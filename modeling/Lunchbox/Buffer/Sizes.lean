import Lunchbox.Buffer.Bytes

set_option autoImplicit false

/-! # The two models of `Buffer` have the same sizes

`Model.lean` has the functions of a `Buffer` over a heap of elements, with a `realloc` that
succeeds, and `Bytes.lean` over bytes. Wherever both are defined, the same calls give the same sizes
and results (`sizes_of_run`), whether or not `realloc` succeeds: the buffer does not look at what it
returns.
-/

namespace Lunchbox.Buffer.Bytes

open StateMachine

variable {T : Type} {P : Params} {H H' : Memory T} {c c' : Buffer} {w n : UInt64} {b b' : State}
  {ok : Bool}

/-- The buffer over elements has the same sizes. -/
def SameSizes (b : State) (c : Buffer) : Prop :=
  b.size.toNat = c.size ∧ b.maxSize.toNat = c.maxSize

theorem SameSizes.resize (h : SameSizes b c)
    (hs : Buffer.resize P H c n.toNat = some (c', H')) : SameSizes (resize w b ok n) c' := by
  obtain ⟨-, hmax⟩ := h
  have hnElems : (n + n >>> 3).toNat = uint64 (n.toNat + n.toNat >>> 3) := by
    rw [toNat_nElems, uint64, Nat.shiftRight_eq_div_pow]
  simp only [Buffer.resize, ← hmax, ← UInt64.le_iff_toNat_le] at hs
  simp only [Bytes.resize]
  split_ifs at hs ⊢ with hn
  · cases hs
    exact ⟨rfl, rfl⟩
  · obtain ⟨r, -, he⟩ := Option.map_eq_some_iff.mp hs
    cases he
    exact ⟨rfl, hnElems⟩

theorem SameSizes.reserve (h : SameSizes b c)
    (hs : Buffer.reserve P H c n.toNat = some (c', H')) : SameSizes (reserve w b ok n) c' := by
  obtain ⟨hsize, hmax⟩ := h
  simp only [Buffer.reserve, ← hmax, ← UInt64.le_iff_toNat_le] at hs
  simp only [Bytes.reserve]
  split_ifs at hs ⊢ with hn
  · cases hs
    exact ⟨hsize, hmax⟩
  · obtain ⟨r, -, he⟩ := Option.map_eq_some_iff.mp hs
    cases he
    exact ⟨hsize, rfl⟩

theorem SameSizes.setSize (h : SameSizes b c) (n : UInt64) :
    (setSize b n).1 = (Buffer.setSize c n.toNat).1 ∧
      SameSizes (setSize b n).2 (Buffer.setSize c n.toNat).2 := by
  obtain ⟨hsize, hmax⟩ := h
  simp only [Bytes.setSize, Buffer.setSize, ← hmax, gt_iff_lt, UInt64.lt_iff_toNat_lt]
  split_ifs
  · exact ⟨rfl, hsize, hmax⟩
  · exact ⟨rfl, rfl, rfl⟩

theorem SameSizes.grow (h : SameSizes b c)
    (hs : Buffer.grow P H c n.toNat = some (c', H')) : SameSizes (grow w b ok n) c' := by
  simp only [Buffer.grow, ← h.1, ← UInt64.lt_iff_toNat_lt] at hs
  simp only [Bytes.grow, gt_iff_lt]
  split_ifs at hs ⊢
  · exact h.resize hs
  · cases hs
    exact h

theorem SameSizes.reset (h : SameSizes b c)
    (hs : Buffer.reset P H c n.toNat = some (c', H')) : SameSizes (reset w b ok n) c' := by
  obtain ⟨r, hr, he⟩ := Option.map_eq_some_iff.mp hs
  cases he
  exact ((h.reserve hr).setSize n).2

theorem SameSizes.pack (h : SameSizes b c) (hs : Buffer.pack P H c = some (c', H')) :
    SameSizes (pack w b ok) c' := by
  obtain ⟨hsize, hmax⟩ := h
  simp only [Buffer.pack, ← hsize, ← hmax, ne_eq, UInt64.toNat_inj] at hs
  simp only [Bytes.pack, ne_eq]
  split_ifs at hs ⊢
  · cases hs
    exact ⟨hsize, hmax⟩
  · obtain ⟨r, -, he⟩ := Option.map_eq_some_iff.mp hs
    cases he
    exact ⟨rfl, rfl⟩

theorem SameSizes.append {data : Nat → UInt8} {k : UInt64} {l : List (Option T)}
    (h : SameSizes b c) (hl : l.length = k.toNat) (happend : append w b ok data k = some b')
    (hs : Buffer.append P H c l = some (c', H')) : SameSizes b' c' := by
  obtain ⟨d, -, rfl⟩ := Option.map_eq_some_iff.mp happend
  obtain ⟨r, hr, hwrite⟩ := Option.bind_eq_some_iff.mp hs
  obtain ⟨H1, -, he⟩ := Option.map_eq_some_iff.mp hwrite
  cases he
  have hsum : uint64 (c.size + l.length) = (b.size + k).toNat := by
    rw [UInt64.toNat_add, h.1, hl, uint64]
  rw [hsum] at hr
  exact h.resize hr

theorem SameSizes.replace {data : Nat → UInt8} {k : UInt64} {l : List (Option T)}
    (h : SameSizes b c) (hl : l.length = k.toNat) (hreplace : replace w b ok data k = some b')
    (hs : Buffer.replace P H c l = some (c', H')) : SameSizes b' c' := by
  obtain ⟨d, -, rfl⟩ := Option.map_eq_some_iff.mp hreplace
  obtain ⟨r, hr, hwrite⟩ := Option.bind_eq_some_iff.mp hs
  obtain ⟨H1, -, he⟩ := Option.map_eq_some_iff.mp hwrite
  cases he
  rw [hl] at hr
  exact ⟨hl.symm, (h.reserve hr).2⟩

/-! ## Runs -/

/-- The same call, on a buffer of elements. -/
inductive OnElements : Op → Buffer.Op Unit T → Prop
  | resize (n : UInt64) : OnElements (.resize n) (.resize () n.toNat)
  | grow (n : UInt64) : OnElements (.grow n) (.grow () n.toNat)
  | reserve (n : UInt64) : OnElements (.reserve n) (.reserve () n.toNat)
  | reset (n : UInt64) : OnElements (.reset n) (.reset () n.toNat)
  | append (data : Nat → UInt8) (k : UInt64) (l : List (Option T)) (hl : l.length = k.toNat) :
      OnElements (.append data k) (.append () l)
  | replace (data : Nat → UInt8) (k : UInt64) (l : List (Option T)) (hl : l.length = k.toNat) :
      OnElements (.replace data k) (.replace () l)
  | pack : OnElements .pack (.pack ())
  | setSize (n : UInt64) : OnElements (.setSize n) (.setSize () n.toNat)
  | put (i : UInt64) (x : Nat → UInt8) (y : T) : OnElements (.put i x) (.put () i.toNat y)
  | clear : OnElements .clear (.clear ())

variable {s s' : Buffer.State Unit T}

/-- A function of the only buffer. -/
theorem set_eq_some {f : Option (Buffer × Memory T)} {o' : Output}
    (hs : f.map (s.set ()) = some (o', s')) :
    o' = .done ∧ f = some (s'.buffers (), s'.memory) := by
  obtain ⟨r, hr, he⟩ := Option.map_eq_some_iff.mp hs
  cases he
  exact ⟨rfl, by simpa using hr⟩

theorem sizes_step {op : Op} {op' : Buffer.Op Unit T} {o o' : Output}
    (h : SameSizes b (s.buffers ())) (hop : OnElements op op')
    (hb : (buffer w).step b (op, ok) = some (o, b')) (hs : (buffers P).step s op' = some (o', s')) :
    o = o' ∧ SameSizes b' (s'.buffers ()) := by
  cases hop with
  | resize n =>
      cases hb
      obtain ⟨rfl, hr⟩ := set_eq_some hs
      exact ⟨rfl, h.resize hr⟩
  | grow n =>
      cases hb
      obtain ⟨rfl, hr⟩ := set_eq_some hs
      exact ⟨rfl, h.grow hr⟩
  | reserve n =>
      cases hb
      obtain ⟨rfl, hr⟩ := set_eq_some hs
      exact ⟨rfl, h.reserve hr⟩
  | reset n =>
      cases hb
      obtain ⟨rfl, hr⟩ := set_eq_some hs
      exact ⟨rfl, h.reset hr⟩
  | append data k l hl =>
      obtain ⟨t, ht, he⟩ := Option.map_eq_some_iff.mp hb
      cases he
      obtain ⟨rfl, hr⟩ := set_eq_some hs
      exact ⟨rfl, h.append hl ht hr⟩
  | replace data k l hl =>
      obtain ⟨t, ht, he⟩ := Option.map_eq_some_iff.mp hb
      cases he
      obtain ⟨rfl, hr⟩ := set_eq_some hs
      exact ⟨rfl, h.replace hl ht hr⟩
  | pack =>
      cases hb
      obtain ⟨rfl, hr⟩ := set_eq_some hs
      exact ⟨rfl, h.pack hr⟩
  | setSize n =>
      obtain ⟨hresult, hsizes⟩ := h.setSize n
      cases hb
      cases hs
      exact ⟨congrArg Output.result hresult, hsizes⟩
  | put i x y =>
      obtain ⟨t, ht, he⟩ := Option.map_eq_some_iff.mp hb
      cases he
      obtain ⟨d, -, rfl⟩ := Option.map_eq_some_iff.mp ht
      obtain ⟨-, hs⟩ := Option.ite_none_right_eq_some.mp hs
      obtain ⟨H, -, he⟩ := Option.map_eq_some_iff.mp hs
      cases he
      exact ⟨rfl, h⟩
  | clear =>
      cases hb
      obtain ⟨rfl, hr⟩ := set_eq_some hs
      obtain ⟨H, -, he⟩ := Option.map_eq_some_iff.mp hr
      obtain ⟨hnew, -⟩ := Prod.mk.inj he
      rw [← hnew]
      exact ⟨rfl, rfl, rfl⟩

/-- **The two models agree.** The same calls return the same results, and the buffers have the same
sizes after them. -/
theorem sizes_of_run {as : List (Op × Bool)} {as' : List (Buffer.Op Unit T)}
    {tr : List ((Op × Bool) × Output)} {tr' : List (Buffer.Op Unit T × Output)}
    (hops : List.Forall₂ (fun a a' => OnElements a.1 a') as as') (h : SameSizes b (s.buffers ()))
    (hb : (buffer w).run as b = some (tr, b')) (hs : (buffers P).run as' s = some (tr', s')) :
    tr.map Prod.snd = tr'.map Prod.snd ∧ SameSizes b' (s'.buffers ()) := by
  induction hops generalizing b s tr tr' with
  | nil =>
      cases hb
      cases hs
      exact ⟨rfl, h⟩
  | cons hop _ ih =>
      obtain ⟨o, b1, tr1, hb1, hrun, rfl⟩ := Machine.run_cons hb
      obtain ⟨o', s1, tr1', hs1, hrun', rfl⟩ := Machine.run_cons hs
      obtain ⟨rfl, h1⟩ := sizes_step h hop hb1 hs1
      obtain ⟨houts, hsizes⟩ := ih h1 hrun hrun'
      rw [List.map_cons, List.map_cons, houts]
      exact ⟨rfl, hsizes⟩

end Lunchbox.Buffer.Bytes
