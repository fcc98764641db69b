import Lunchbox.Lib.Count
import Lunchbox.ThreadPool.Model

set_option autoImplicit false

/-! # Which tasks a pool runs, and when

The invariant of the dispatch (`Inv`) relates the tasks posted, taken and finished in a history
to the state: what was posted is what was taken followed by what is queued, and a taken task is
running or has finished. From it: tasks are taken in the order of the posts, each at most once;
a single worker finishes them in that order; and the destructor leaves behind those tasks that
are queued when it sets `_stop`.
-/

namespace Lunchbox.ThreadPool

open StateMachine

variable {R ρ : Type} {n : Nat}

/-! ## Posted, taken and finished tasks -/

abbrev History (R ρ : Type) (n : Nat) := List (Action R ρ n × Output R)

def Output.postedTask : Output R → Option (Task R)
  | .posted task => some task
  | _ => none

def Output.takenTask : Output R → Option (Task R)
  | .took task => some task
  | _ => none

def Output.finishedTask : Output R → Option (Task R)
  | .finished task => some task
  | _ => none

/-- The step posts, takes and finishes no task. -/
def Output.Quiet (o : Output R) : Prop :=
  o.postedTask = none ∧ o.takenTask = none ∧ o.finishedTask = none

/-- The tasks inserted by `post` and `postDetached`, in the order of the insertions. -/
def posted (tr : History R ρ n) : List (Task R) := tr.filterMap fun e => e.2.postedTask

/-- The tasks that workers took from the queue, in this order. -/
def taken (tr : History R ρ n) : List (Task R) := tr.filterMap fun e => e.2.takenTask

/-- The tasks that have returned, in this order. -/
def finished (tr : History R ρ n) : List (Task R) := tr.filterMap fun e => e.2.finishedTask

/-- How many times the task `k` was executed to its end. -/
def executions (tr : History R ρ n) (k : Nat) : Nat := (finished tr).countP fun task => task.id = k

theorem filterMap_snoc {α β : Type} (f : α → Option β) (l : List α) (x : α) :
    (l ++ [x]).filterMap f = l.filterMap f ++ (f x).toList := by
  rw [List.filterMap_append]
  cases h : f x <;> simp [h]

@[simp] theorem posted_snoc (tr : History R ρ n) (a : Action R ρ n) (o : Output R) :
    posted (tr ++ [(a, o)]) = posted tr ++ o.postedTask.toList :=
  filterMap_snoc _ tr (a, o)

theorem taken_append (tr tr' : History R ρ n) : taken (tr ++ tr') = taken tr ++ taken tr' :=
  List.filterMap_append

@[simp] theorem taken_snoc (tr : History R ρ n) (a : Action R ρ n) (o : Output R) :
    taken (tr ++ [(a, o)]) = taken tr ++ o.takenTask.toList :=
  filterMap_snoc _ tr (a, o)

@[simp] theorem finished_snoc (tr : History R ρ n) (a : Action R ρ n) (o : Output R) :
    finished (tr ++ [(a, o)]) = finished tr ++ o.finishedTask.toList :=
  filterMap_snoc _ tr (a, o)

/-- The task that a worker runs. -/
def Worker.task : Worker R → Option (Task R)
  | .running task => some task
  | _ => none

def Worker.runs (k : Nat) (w : Worker R) : Bool := w.task.any fun task => task.id = k

theorem task_of_awake {w : Worker R} (h : w.awake = true) : w.task = none := by
  cases w with
  | ready | woken => rfl
  | blocking | asleep | running | returned => cases h

theorem task_notify (w : Worker R) : w.notify.task = w.task := by
  cases w <;> rfl

/-- Moving a worker that does not run a task to a point where it does not either. -/
theorem update_task {f : Fin n → Worker R} {i : Fin n} {w : Worker R} (hi : (f i).task = none)
    (hw : w.task = none) (j : Fin n) : (Function.update f i w j).task = (f j).task := by
  by_cases hj : j = i
  · rw [hj, Function.update_self, hi, hw]
  · rw [Function.update_of_ne hj]

/-- How many workers run the task `k`. -/
def running (workers : Fin n → Worker R) (k : Nat) : Nat :=
  countWhere (fun w => w.runs k = true) workers

/-! ## The invariant -/

structure Inv (tr : History R ρ n) (s : State R ρ n) : Prop where
  queue : posted tr = taken tr ++ s.tasks
  ids : (posted tr).map Task.id = List.range s.posts
  -- a taken task is running or has finished
  ran : ∀ k, executions tr k + running s.workers k
    = (taken tr).countP fun task => task.id = k
  taken_of_running : ∀ i task, (s.workers i).task = some task → task ∈ taken tr
  taken_of_finished : ∀ task ∈ finished tr, task ∈ taken tr
  -- what the futures hold
  value : ∀ task ∈ finished tr, ∀ r, task.result = some r → s.promises task.id = .value r
  set : ∀ k, s.promises k ≠ .unset → s.destroyed = true ∨ ∃ task ∈ finished tr, task.id = k
  -- a single worker finishes a task before it takes the next one
  single : n = 1 → ∀ i, taken tr = finished tr ++ (s.workers i).task.toList

variable {tr : History R ρ n} {s s' : State R ρ n} {a : Action R ρ n} {o : Output R}

theorem Inv.nodup (h : Inv tr s) : ((posted tr).map Task.id).Nodup := by
  rw [h.ids]
  exact List.nodup_range

theorem Inv.taken_nodup (h : Inv tr s) : ((taken tr).map Task.id).Nodup := by
  have hnd := h.nodup
  rw [h.queue, List.map_append] at hnd
  exact hnd.of_append_left

theorem Inv.taken_ne_queued (h : Inv tr s) {t u : Task R} (ht : t ∈ taken tr)
    (hu : u ∈ s.tasks) : t.id ≠ u.id := by
  have hnd := h.nodup
  rw [h.queue, List.map_append, List.nodup_append] at hnd
  exact hnd.2.2 _ (List.mem_map_of_mem ht) _ (List.mem_map_of_mem hu)

theorem countP_id (l : List (Task R)) (k : Nat) :
    l.countP (fun task => task.id = k) = (l.map Task.id).count k := by
  rw [List.count, List.countP_map]
  rfl

/-- A task is executed at most once, and not while it runs. -/
theorem Inv.ran_le (h : Inv tr s) (k : Nat) : executions tr k + running s.workers k ≤ 1 := by
  rw [h.ran, countP_id]
  exact List.nodup_iff_count_le_one.mp h.taken_nodup k

theorem executions_pos {task : Task R} (h : task ∈ finished tr) : 0 < executions tr task.id :=
  List.countP_pos_iff.mpr ⟨task, h, by simp⟩

theorem running_pos {f : Fin n → Worker R} {i : Fin n} {task : Task R}
    (h : (f i).task = some task) : 0 < running f task.id :=
  countWhere_pos _ (t := i) (by simp [Worker.runs, h])

theorem running_of_idle {f : Fin n → Worker R} (h : ∀ i, (f i).task = none) (k : Nat) :
    running f k = 0 := by
  rw [running, countWhere_eq_zero_iff]
  intro i
  simp [Worker.runs, h i]

theorem running_congr {f g : Fin n → Worker R} (h : ∀ i, (f i).task = (g i).task) (k : Nat) :
    running f k = running g k := by
  apply countWhere_congr
  intro i
  rw [Worker.runs, Worker.runs, h]

theorem running_start {f : Fin n → Worker R} {i : Fin n} (hi : (f i).task = none) (task : Task R)
    (k : Nat) : running (Function.update f i (.running task)) k
      = running f k + if task.id = k then 1 else 0 := by
  have hcount := countWhere_update (fun w : Worker R => w.runs k = true) f i (.running task)
  have hold : (f i).runs k = false := by simp [Worker.runs, hi]
  have hnew : (Worker.running task).runs k = decide (task.id = k) := rfl
  simpa [hold, hnew, running] using hcount

theorem running_stop {f : Fin n → Worker R} {i : Fin n} {task : Task R} (hi : f i = .running task)
    (k : Nat) : running (Function.update f i .ready) k + (if task.id = k then 1 else 0)
      = running f k := by
  have hcount := countWhere_update (fun w : Worker R => w.runs k = true) f i .ready
  have hold : (f i).runs k = decide (task.id = k) := by rw [hi]; rfl
  have hnew : (Worker.ready : Worker R).runs k = false := rfl
  simpa [hold, hnew, running] using hcount

/-- A task that runs has not finished before. -/
theorem Inv.ne_running (h : Inv tr s) {i : Fin n} {task u : Task R}
    (hi : (s.workers i).task = some task) (hu : u ∈ finished tr) : u.id ≠ task.id := by
  intro heq
  have hexec := executions_pos hu
  have hrun := running_pos hi
  have hle := h.ran_le task.id
  rw [heq] at hexec
  omega

theorem inv_init [DecidableEq ρ] : Inv [] (pool R ρ n).init where
  queue := rfl
  ids := rfl
  ran k := by
    rw [running_of_idle fun _ => rfl]
    rfl
  taken_of_running _ _ ht := by cases ht
  taken_of_finished _ ht := by cases ht
  value _ ht := by cases ht
  set _ hk := absurd rfl hk
  single _ _ := rfl

/-- A step that posts, takes and finishes nothing, and sets no promise. -/
theorem Inv.quiet (h : Inv tr s) (ho : o.Quiet) (htasks : s'.tasks = s.tasks)
    (hposts : s'.posts = s.posts) (hpromises : s'.promises = s.promises)
    (hd : s'.destroyed = s.destroyed) (hw : ∀ i, (s'.workers i).task = (s.workers i).task) :
    Inv (tr ++ [(a, o)]) s' := by
  obtain ⟨hop, hot, hof⟩ := ho
  have hp : posted (tr ++ [(a, o)]) = posted tr := by simp [hop]
  have ht : taken (tr ++ [(a, o)]) = taken tr := by simp [hot]
  have hf : finished (tr ++ [(a, o)]) = finished tr := by simp [hof]
  refine ⟨?_, ?_, ?_, ?_, ?_, ?_, ?_, ?_⟩
  · rw [hp, ht, htasks]
    exact h.queue
  · rw [hp, hposts]
    exact h.ids
  · intro k
    rw [executions, hf, ht, running_congr hw]
    exact h.ran k
  · intro i task hi
    rw [hw] at hi
    rw [ht]
    exact h.taken_of_running i task hi
  · rw [hf, ht]
    exact h.taken_of_finished
  · rw [hf, hpromises]
    exact h.value
  · rw [hf, hpromises, hd]
    exact h.set
  · intro hn i
    rw [ht, hf, hw]
    exact h.single hn i

theorem Inv.take (h : Inv tr s) {i : Fin n} {task : Task R} {rest : List (Task R)}
    (hi : (s.workers i).awake) (ht : s.tasks = task :: rest) :
    Inv (tr ++ [(a, .took task)]) ({ s with tasks := rest }.setWorker i (.running task)) := by
  have hidle := task_of_awake hi
  refine ⟨?_, ?_, ?_, ?_, ?_, ?_, ?_, ?_⟩
  · simp [Output.postedTask, Output.takenTask, State.setWorker, h.queue, ht]
  · simpa [Output.postedTask, State.setWorker] using h.ids
  · intro k
    -- the taken task has one more worker
    have hcount := running_start hidle task k
    have hran := h.ran k
    simp only [executions, finished_snoc, taken_snoc, Output.finishedTask, Output.takenTask,
      Option.toList_none, Option.toList_some, List.append_nil, List.countP_append,
      List.countP_singleton, decide_eq_true_eq, State.setWorker] at hran ⊢
    omega
  · intro j u hj
    rw [taken_snoc]
    by_cases hji : j = i
    · simp only [State.setWorker, hji, Function.update_self, Worker.task, Option.some.injEq] at hj
      simp [Output.takenTask, hj]
    · simp only [State.setWorker, Function.update_of_ne hji] at hj
      exact List.mem_append_left _ (h.taken_of_running j u hj)
  · intro u hu
    rw [finished_snoc] at hu
    rw [taken_snoc]
    exact List.mem_append_left _ (h.taken_of_finished u (by simpa [Output.finishedTask] using hu))
  · simpa [Output.finishedTask, State.setWorker] using h.value
  · simpa [Output.finishedTask, State.setWorker] using h.set
  · intro hn j
    obtain rfl : j = i := by
      subst hn
      exact Subsingleton.elim j i
    have := h.single hn j
    rw [hidle] at this
    simp [Output.takenTask, Output.finishedTask, State.setWorker, Worker.task, this]

theorem finish_promises {i : Fin n} {task : Task R} {k : Nat} (hk : task.id ≠ k) :
    (s.finish i task).promises k = s.promises k := by
  unfold State.finish
  cases task.result with
  | none => rfl
  | some r => exact Function.update_of_ne (Ne.symm hk) _ _

theorem Inv.finish (h : Inv tr s) {i : Fin n} {task : Task R} (hi : s.workers i = .running task) :
    Inv (tr ++ [(a, .finished task)]) (s.finish i task) := by
  obtain ⟨htasks, -, -, hposts, hd⟩ := finish_rest s i task
  have htask : (s.workers i).task = some task := by rw [hi]; rfl
  have hmem := h.taken_of_running i task htask
  refine ⟨?_, ?_, ?_, ?_, ?_, ?_, ?_, ?_⟩
  · simpa [Output.postedTask, Output.takenTask, htasks] using h.queue
  · simpa [Output.postedTask, hposts] using h.ids
  · intro k
    have hcount := running_stop hi k
    have hran := h.ran k
    simp only [executions, finished_snoc, taken_snoc, Output.finishedTask, Output.takenTask,
      Option.toList_none, Option.toList_some, List.append_nil, List.countP_append,
      List.countP_singleton, decide_eq_true_eq, finish_workers] at hran ⊢
    omega
  · intro j u hj
    rw [finish_workers] at hj
    by_cases hji : j = i
    · rw [hji, Function.update_self] at hj
      cases hj
    · rw [Function.update_of_ne hji] at hj
      simpa [Output.takenTask] using h.taken_of_running j u hj
  · intro u hu
    simp only [finished_snoc, taken_snoc, Output.finishedTask, Output.takenTask,
      Option.toList_none, Option.toList_some, List.append_nil, List.mem_append,
      List.mem_singleton] at hu ⊢
    rcases hu with hu | rfl
    · exact h.taken_of_finished u hu
    · exact hmem
  · intro u hu r hr
    simp only [finished_snoc, Output.finishedTask, Option.toList_some, List.mem_append,
      List.mem_singleton] at hu
    rcases hu with hu | rfl
    · rw [finish_promises (h.ne_running htask hu).symm]
      exact h.value u hu r hr
    · simp [State.finish, hr]
  · intro k hk
    rw [hd]
    by_cases heq : task.id = k
    · exact Or.inr ⟨task, by simp [Output.finishedTask], heq⟩
    · rw [finish_promises heq] at hk
      rcases h.set k hk with h1 | ⟨u, hu, huk⟩
      · exact Or.inl h1
      · exact Or.inr ⟨u, by simp [hu], huk⟩
  · intro hn j
    obtain rfl : j = i := by
      subst hn
      exact Subsingleton.elim j i
    have := h.single hn j
    rw [htask] at this
    simp [Output.takenTask, Output.finishedTask, finish_workers, Worker.task, this]

/-- The promises that break are those of queued tasks. -/
theorem Inv.destroy (h : Inv tr s) : Inv (tr ++ [(a, .done)]) s.destroy := by
  have hkeep : ∀ u ∈ finished tr, s.destroy.promises u.id = s.promises u.id := by
    intro u hu
    have hno : ¬ (s.tasks.any fun task => task.id == u.id && task.result.isSome) = true := by
      rw [List.any_eq_true]
      rintro ⟨t, ht, hid⟩
      rw [Bool.and_eq_true, beq_iff_eq] at hid
      exact h.taken_ne_queued (h.taken_of_finished u hu) ht hid.1.symm
    exact if_neg hno
  refine ⟨?_, ?_, ?_, ?_, ?_, ?_, ?_, ?_⟩
  · simpa [Output.postedTask, Output.takenTask, State.destroy] using h.queue
  · simpa [Output.postedTask, State.destroy] using h.ids
  · intro k
    simpa [executions, Output.takenTask, Output.finishedTask, State.destroy] using h.ran k
  · simpa [Output.takenTask, State.destroy] using h.taken_of_running
  · simpa [Output.takenTask, Output.finishedTask] using h.taken_of_finished
  · intro u hu r hr
    simp only [finished_snoc, Output.finishedTask, Option.toList_none, List.append_nil] at hu
    rw [hkeep u hu]
    exact h.value u hu r hr
  · exact fun _ _ => Or.inl rfl
  · simpa [Output.takenTask, Output.finishedTask, State.destroy] using h.single

/-- Where no worker runs a task, the executed tasks are the taken ones. -/
theorem Inv.executions_eq (h : Inv tr s) (hw : ∀ i, (s.workers i).task = none) (k : Nat) :
    executions tr k = ((taken tr).map Task.id).count k := by
  have := h.ran k
  rwa [running_of_idle hw, countP_id] at this

/-- A queued task has not been taken, so it has no executions among those of the taken tasks. -/
theorem Inv.count_queued (h : Inv tr s) {task : Task R} (ht : task ∈ s.tasks) :
    ((taken tr).map Task.id).count task.id = 0 := by
  rw [List.count_eq_zero, List.mem_map]
  rintro ⟨u, hu, hid⟩
  exact h.taken_ne_queued hu ht hid

/-- The future of a task that was taken and executed holds its result: tasks with the same number
are the same task. -/
theorem Inv.value_of_executed (h : Inv tr s) {task : Task R} {r : R} (ht : task ∈ taken tr)
    (hpos : 0 < executions tr task.id) (hr : task.result = some r) :
    s.promises task.id = .value r := by
  obtain ⟨u, hu, hid⟩ : ∃ u ∈ finished tr, u.id = task.id := by
    simpa using List.countP_pos_iff.mp hpos
  have hut : u = task :=
    List.inj_on_of_nodup_map h.taken_nodup (h.taken_of_finished u hu) ht hid
  rw [hut] at hu
  exact h.value task hu r hr

/-- A finished task that was the last one posted leaves nothing queued. -/
theorem Inv.tasks_eq_nil (h : Inv tr s) {task u : Task R} {before : List (Task R)}
    (hlast : posted tr = before ++ [task]) (hu : u ∈ finished tr) (hid : u.id = task.id) :
    s.tasks = [] := by
  by_contra hne
  obtain ⟨q, t, ht⟩ := (List.eq_nil_or_concat' s.tasks).resolve_left hne
  have heq : before ++ [task] = (taken tr ++ q) ++ [t] := by
    rw [← hlast, h.queue, ht, List.append_assoc]
  have hlast : [task] = [t] := (List.append_inj' heq rfl).2
  cases hlast
  exact h.taken_ne_queued (h.taken_of_finished u hu) (by simp [ht]) hid

/-- With one worker, a task that was posted before a finished one has finished. -/
theorem Inv.finished_before (h : Inv tr s) (hn : n = 1) {task u : Task R}
    {before later : List (Task R)} (hp : posted tr = before ++ task :: later)
    (ht : task ∈ finished tr) (hu : u ∈ before) : u ∈ finished tr := by
  have hq := h.queue
  rw [h.single hn ⟨0, by omega⟩, hp, List.append_assoc] at hq
  -- either all of `before` has finished, or `task` is among those that have not
  rcases List.append_eq_append_iff.mp hq with ⟨c, hf, -⟩ | ⟨c, hb, hc⟩
  · rw [hf]
    exact List.mem_append_left _ hu
  · cases c with
    | nil =>
        rw [hb, List.append_nil] at hu
        exact hu
    | cons v c =>
        have hnd := h.nodup
        rw [hp, List.map_append, List.nodup_append] at hnd
        refine absurd rfl (hnd.2.2 task.id ?_ task.id (by simp))
        rw [hb]
        exact List.mem_map_of_mem (List.mem_append_left _ ht)

section

variable [DecidableEq ρ]

theorem Inv.insert (h : Inv tr s) (p : ρ) (result : Option R) :
    Inv (tr ++ [(a, .posted (s.insert p result).1)]) (s.insert p result).2 := by
  refine ⟨?_, ?_, ?_, ?_, ?_, ?_, ?_, ?_⟩
  · simp [Output.postedTask, Output.takenTask, State.insert, h.queue]
  · simp [Output.postedTask, State.insert, List.range_succ, h.ids]
  · intro k
    simpa [executions, Output.takenTask, Output.finishedTask, State.insert] using h.ran k
  · simpa [Output.takenTask, State.insert] using h.taken_of_running
  · simpa [Output.takenTask, Output.finishedTask] using h.taken_of_finished
  · simpa [Output.finishedTask, State.insert] using h.value
  · simpa [Output.finishedTask, State.insert] using h.set
  · simpa [Output.takenTask, Output.finishedTask, State.insert] using h.single

theorem inv_step (h : Inv tr s) (hs : (pool R ρ n).step s a = some (o, s')) :
    Inv (tr ++ [(a, o)]) s' := by
  have hquiet : (Output.done : Output R).Quiet := ⟨rfl, rfl, rfl⟩
  cases step_of_eq hs with
  | insert p result => exact h.insert p result
  | notify p i hi =>
      exact h.quiet hquiet rfl rfl rfl rfl (update_task (by rw [hi]; rfl) rfl)
  | notifyNobody => exact h.quiet hquiet rfl rfl rfl rfl fun _ => rfl
  | leave i hi | test i hi =>
      exact h.quiet hquiet rfl rfl rfl rfl (update_task (task_of_awake hi) rfl)
  | take i task rest hi _ _ ht => exact h.take hi ht
  | block i hi | wake i hi =>
      exact h.quiet hquiet rfl rfl rfl rfl (update_task (by rw [hi]; rfl) rfl)
  | finish i task hi => exact h.finish hi
  | setStop => exact h.quiet hquiet rfl rfl rfl rfl fun i => task_notify (s.workers i)
  | joinAll => exact h.destroy
  | hasPendingJobs | get => exact h.quiet ⟨rfl, rfl, rfl⟩ rfl rfl rfl rfl fun _ => rfl

theorem inv_of_trace (h : (pool R ρ n).Trace tr s) : Inv tr s := by
  induction h with
  | nil => exact inv_init
  | snoc _ hs ih => exact inv_step ih hs

/-! ## The order of the dispatch -/

/-- Neither `_stop` nor the destruction is taken back. -/
theorem step_mono (hs : Step s a o s') :
    (s.stop = true → s'.stop = true) ∧ (s.destroyed = true → s'.destroyed = true) := by
  cases hs with
  | finish i task =>
      obtain ⟨-, hstop, -, -, hd⟩ := finish_rest s i task
      rw [hstop, hd]
      exact ⟨id, id⟩
  | setStop => exact ⟨fun _ => rfl, id⟩
  | joinAll => exact ⟨id, fun _ => rfl⟩
  | insert | notify | notifyNobody | leave | take | test | block | wake | hasPendingJobs | get =>
      exact ⟨id, id⟩

/-- A future whose `get` returned belongs to a finished task, unless the pool is destroyed. -/
theorem finished_of_got (h : (pool R ρ n).Trace tr s) {k : Nat} {q : Promise R}
    (hg : (.get k, .got q) ∈ tr) :
    s.destroyed = true ∨ ∃ u ∈ finished tr, u.id = k := by
  obtain ⟨pre, post, rfl⟩ := List.append_of_mem hg
  obtain ⟨s0, s1, h0, hs⟩ := h.split
  cases step_of_eq hs with
  | get _ hk =>
      rcases (inv_of_trace h0).set k hk with hd | ⟨u, hu, huk⟩
      · refine Or.inl (h0.after (fun _ s => s.destroyed = true) h hd ?_)
        exact fun _ _ _ _ _ hd hs => (step_mono (step_of_eq hs)).2 hd
      · refine Or.inr ⟨u, ?_, huk⟩
        rw [finished, List.filterMap_append]
        exact List.mem_append_left _ hu

/-- **Tasks are dispatched in the order of the posts.** In every interleaving: the tasks taken
are the first ones posted, in this order; no task is run twice, and none that was not posted; a
single worker has finished all tasks posted before one that it has finished; and after `get` has
returned for the last post, `hasPendingJobs` is false. -/
theorem dispatch_order (h : (pool R ρ n).Trace tr s) :
    posted tr = taken tr ++ s.tasks ∧ ((posted tr).map Task.id).Nodup ∧
    (∀ k, executions tr k + running s.workers k ≤ 1) ∧
    (∀ task ∈ finished tr, task ∈ posted tr) ∧
    (∀ i task, s.workers i = .running task → task ∈ posted tr) ∧
    (n = 1 → ∀ before task later, posted tr = before ++ task :: later → task ∈ finished tr →
      ∀ u ∈ before, u ∈ finished tr) ∧
    ∀ pre mid p r task q, tr = pre ++ (.post p r, .posted task) :: mid →
      (∀ e ∈ mid, e.2.postedTask = none) → (.get task.id, .got q) ∈ mid →
      ∀ o s', (pool R ρ n).step s .hasPendingJobs = some (o, s') → o = .pending false := by
  have hi := inv_of_trace h
  refine ⟨hi.queue, hi.nodup, hi.ran_le, ?_, ?_, ?_, ?_⟩
  · intro task ht
    rw [hi.queue]
    exact List.mem_append_left _ (hi.taken_of_finished task ht)
  · intro i task ht
    rw [hi.queue]
    exact List.mem_append_left _ (hi.taken_of_running i task (by rw [ht]; rfl))
  · intro hn before task later hp ht u hu
    exact hi.finished_before hn hp ht hu
  · intro pre mid p r task q htr hno hg o s' hs
    have hlast : posted tr = posted pre ++ [task] := by
      have hmid : mid.filterMap (fun e => e.2.postedTask) = [] :=
        List.filterMap_eq_nil_iff.mpr hno
      rw [htr, posted, List.filterMap_append, List.filterMap_cons, hmid]
      rfl
    have hg' : (Action.get task.id, Output.got q) ∈ tr := by
      rw [htr]
      exact List.mem_append_right _ (List.mem_cons_of_mem _ hg)
    cases step_of_eq hs with
    | insert _ result ha => cases result <;> cases ha
    | hasPendingJobs hd =>
        rcases finished_of_got h hg' with hd' | ⟨u, hu, hid⟩
        · rw [hd] at hd'
          cases hd'
        · rw [State.hasPendingJobs, hi.tasks_eq_nil hlast hu hid]
          rfl

/-- One worker: a task is posted and run, and its result is asked for. -/
def dispatchHistory : History Nat (Fin 1) 1 :=
  [(.work 0, .done), (.block 0, .done), (.postDetached 0, .posted ⟨0, none⟩),
    (.notifyOne 0 (some 0), .done), (.post 0 7, .posted ⟨1, some 7⟩), (.work 0, .took ⟨0, none⟩),
    (.notifyOne 0 none, .done), (.finish 0, .finished ⟨0, none⟩),
    (.work 0, .took ⟨1, some 7⟩), (.finish 0, .finished ⟨1, some 7⟩), (.get 1, .got (.value 7))]

theorem dispatch_order_single :
    ∃ s, (pool Nat (Fin 1) 1).Trace dispatchHistory s ∧
      ((pool Nat (Fin 1) 1).step s .hasPendingJobs).isSome = true ∧
      (∀ o s', (pool Nat (Fin 1) 1).step s .hasPendingJobs = some (o, s') → o = .pending false) ∧
      ∀ u ∈ [(⟨0, none⟩ : Task Nat)], u ∈ finished dispatchHistory := by
  have h : (pool Nat (Fin 1) 1).Trace dispatchHistory _ := Machine.Trace.of_run
    [.work 0, .block 0, .postDetached 0, .notifyOne 0 (some 0), .post 0 7, .work 0,
      .notifyOne 0 none, .finish 0, .work 0, .finish 0, .get 1] rfl
  obtain ⟨-, -, -, -, -, hsingle, hlast⟩ := dispatch_order h
  refine ⟨_, h, rfl, ?_, ?_⟩
  · refine hlast (dispatchHistory.take 4) (dispatchHistory.drop 5) 0 7 ⟨1, some 7⟩ (.value 7) rfl
      ?_ ?_
    · simp [dispatchHistory, Output.postedTask]
    · simp [dispatchHistory]
  · refine hsingle rfl [⟨0, none⟩] ⟨1, some 7⟩ [] rfl ?_
    simp [finished, dispatchHistory, Output.finishedTask]

/-! ## The destructor -/

/-- Once `_stop` is set, no task is taken. -/
theorem taken_after_stop {pre mid : History R ρ n} {s0 : State R ρ n}
    (h0 : (pool R ρ n).Trace pre s0) (hstop : s0.stop = true)
    (h : (pool R ρ n).Trace (pre ++ mid) s) : taken mid = [] := by
  refine (h0.after (fun tr s => s.stop = true ∧ taken tr = []) h ⟨hstop, rfl⟩ ?_).2
  rintro tr s a o s' ⟨hs, ht⟩ hstep
  have hstep := step_of_eq hstep
  refine ⟨(step_mono hstep).1 hs, ?_⟩
  rw [taken_snoc, ht]
  cases hstep with
  | take _ _ _ _ _ hs' =>
      rw [hs] at hs'
      cases hs'
  | insert | notify | notifyNobody | leave | test | block | wake | finish | setStop | joinAll
  | hasPendingJobs | get => rfl

/-- From the moment the destructor sets `_stop` to its end. -/
theorem taken_of_destructor {pre mid : History R ρ n} {b b' : Output R}
    (h : (pool R ρ n).Trace (pre ++ (.setStop, b) :: mid ++ [(.joinAll, b')]) s) :
    taken (pre ++ (.setStop, b) :: mid ++ [(.joinAll, b')]) = taken pre := by
  rw [List.append_assoc, List.cons_append] at h ⊢
  obtain ⟨s0, s1, h0, hs⟩ := h.split
  cases step_of_eq hs with
  | insert _ result ha => cases result <;> cases ha
  | setStop =>
      rw [← List.singleton_append, ← List.append_assoc] at h ⊢
      have hnone := taken_after_stop (h0.snoc hs) rfl h
      rw [taken_append, hnone, taken_snoc]
      simp [Output.takenTask]

/-- When the destructor has joined the workers, none of them runs a task. -/
theorem idle_of_joined {tr : History R ρ n} {b : Output R}
    (h : (pool R ρ n).Trace (tr ++ [(.joinAll, b)]) s) (i : Fin n) : (s.workers i).task = none := by
  obtain ⟨s1, -, hs⟩ := h.snoc_inv
  cases step_of_eq hs with
  | insert _ result ha => cases result <;> cases ha
  | joinAll _ hret =>
      show (s1.workers i).task = none
      rw [hret i]
      rfl

/-- **What the destructor leaves behind.** The tasks posted before the destructor are all
executed, each exactly once, and their futures hold the results, exactly if no task is queued at
the moment when the destructor sets `_stop`. -/
theorem destructor_completes_iff {pre mid : History R ρ n} {s0 : State R ρ n} {b b' : Output R}
    (h0 : (pool R ρ n).Trace pre s0)
    (h : (pool R ρ n).Trace (pre ++ (.setStop, b) :: mid ++ [(.joinAll, b')]) s) :
    (∀ task ∈ posted pre,
      executions (pre ++ (.setStop, b) :: mid ++ [(.joinAll, b')]) task.id = 1 ∧
      ∀ r, task.result = some r → s.promises task.id = .value r) ↔ s0.tasks = [] := by
  have htaken := taken_of_destructor h
  have hi := inv_of_trace h
  have hi0 := inv_of_trace h0
  have hexec := hi.executions_eq (idle_of_joined h)
  constructor
  · intro hall
    by_contra hne
    obtain ⟨task, ht⟩ := List.exists_mem_of_ne_nil _ hne
    have hmem : task ∈ posted pre := by
      rw [hi0.queue]
      exact List.mem_append_right _ ht
    have hone := (hall task hmem).1
    rw [hexec, htaken, hi0.count_queued ht] at hone
    cases hone
  · intro hempty task ht
    rw [hi0.queue, hempty, List.append_nil, ← htaken] at ht
    have hone : executions (pre ++ (.setStop, b) :: mid ++ [(.joinAll, b')]) task.id = 1 := by
      rw [hexec]
      exact List.count_eq_one_of_mem hi.taken_nodup (List.mem_map_of_mem ht)
    refine ⟨hone, fun r hr => hi.value_of_executed ht ?_ hr⟩
    omega

/-- The only worker has a task and finishes it while the destructor waits for it. -/
def completedHistory : History Nat (Fin 1) 1 × History Nat (Fin 1) 1 :=
  ([(.post 0 7, .posted ⟨0, some 7⟩), (.notifyOne 0 none, .done), (.work 0, .took ⟨0, some 7⟩)],
    [(.finish 0, .finished ⟨0, some 7⟩), (.work 0, .done)])

theorem destructor_completes_iff_idle :
    ∃ s0 s, (pool Nat (Fin 1) 1).Trace completedHistory.1 s0 ∧
      (pool Nat (Fin 1) 1).Trace
        (completedHistory.1 ++ (.setStop, .done) :: completedHistory.2 ++ [(.joinAll, .done)]) s ∧
      s0.tasks = [] ∧ ∀ r, some 7 = some r → s.promises 0 = .value r := by
  have h0 : (pool Nat (Fin 1) 1).Trace completedHistory.1 _ :=
    Machine.Trace.of_run [.post 0 7, .notifyOne 0 none, .work 0] rfl
  have h : (pool Nat (Fin 1) 1).Trace
      (completedHistory.1 ++ (.setStop, .done) :: completedHistory.2 ++ [(.joinAll, .done)]) _ :=
    Machine.Trace.of_run [.post 0 7, .notifyOne 0 none, .work 0, .setStop, .finish 0, .work 0,
      .joinAll] rfl
  have hall := (destructor_completes_iff h0 h).mpr rfl
  have hp : ⟨0, some 7⟩ ∈ posted completedHistory.1 := by
    simp [posted, completedHistory, Output.postedTask]
  exact ⟨_, _, h0, h, rfl, (hall ⟨0, some 7⟩ hp).2⟩

/-- The destructor runs before the only worker has taken the task. -/
def droppedHistory : History Nat (Fin 1) 1 :=
  [(.post 0 7, .posted ⟨0, some 7⟩), (.notifyOne 0 none, .done), (.setStop, .done),
    (.work 0, .done), (.joinAll, .done)]

/-- A task that is still queued is not executed, and its future gets a broken promise. -/
theorem destructor_drops_task :
    ∃ s, (pool Nat (Fin 1) 1).Trace droppedHistory s ∧
      posted (droppedHistory.take 2) = [⟨0, some 7⟩] ∧ executions droppedHistory 0 = 0 ∧
      s.promises 0 = .broken := by
  have h : (pool Nat (Fin 1) 1).Trace droppedHistory _ :=
    Machine.Trace.of_run [.post 0 7, .notifyOne 0 none, .setStop, .work 0, .joinAll] rfl
  exact ⟨_, h, rfl, rfl, rfl⟩

end

end Lunchbox.ThreadPool
