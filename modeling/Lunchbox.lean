import Lunchbox.Lib.Machine
import Lunchbox.SpinLock
import Lunchbox.LFQueue
import Lunchbox.Lib.Count
import Lunchbox.MTQueue.Model
import Lunchbox.MTQueue.PopBarrier
import Lunchbox.RequestHandler.Model
import Lunchbox.RequestHandler.Pool
import Lunchbox.RequestHandler.Phases
import Lunchbox.RequestHandler.Pairing
import Lunchbox.RequestHandler.Interleaving
import Lunchbox.IntervalSet.Model
import Lunchbox.IntervalSet.Edges
import Lunchbox.IntervalSet.SetAlgebra
import Lunchbox.IntervalSet.Runs
import Lunchbox.BitOperation
import Lunchbox.LFVector.Model
import Lunchbox.LFVector.Storage
import Lunchbox.LFVector.Refinement
import Lunchbox.LFVector.Runs
import Lunchbox.LFVector.Growth
import Lunchbox.RefPtr.Invariant
import Lunchbox.RefPtr.Program
import Lunchbox.IntervalSet.Size
import Lunchbox.IntervalSet.Canonical
import Lunchbox.ThreadPool.Dispatch
import Lunchbox.ThreadPool.Wakeup
import Lunchbox.MemoryMap
import Lunchbox.MTQueue.Operations
import Lunchbox.MTQueue.System
import Lunchbox.MTQueue.Safety
import Lunchbox.MTQueue.Conservation
import Lunchbox.RequestHandler.Request
import Lunchbox.IntervalSet.Iteration
import Lunchbox.IntervalSet.Counting
import Lunchbox.IntervalSet.Union
import Lunchbox.LFVector.Capacity
import Lunchbox.LFVector.Serialization
import Lunchbox.LFVector.Spare
import Lunchbox.Lib.Heap
import Lunchbox.Buffer.Model
import Lunchbox.Buffer.SpareList
import Lunchbox.Buffer.Refinement
import Lunchbox.Buffer.Runs
import Lunchbox.Thread.Invariant
import Lunchbox.Thread.Cancel
import Lunchbox.Thread.Protocol
import Lunchbox.LFVector.Release
import Lunchbox.LFVector.Removal
import Lunchbox.LFVector.SlotSize
import Lunchbox.LFQueue.Clear
import Lunchbox.MTQueue.SetHeight
import Lunchbox.RequestHandler.Identifiers
import Lunchbox.Thread.Failure
import Lunchbox.File
import Lunchbox.Thread.Registry
import Lunchbox.Clock
import Lunchbox.LFVector.Address
import Lunchbox.Strings
import Lunchbox.Fork
import Lunchbox.PluginFactory
import Lunchbox.Buffer.Bytes
import Lunchbox.File.Report
import Lunchbox.Log
import Lunchbox.Buffer.ByteRanges
import Lunchbox.Buffer.Sizes
import Lunchbox.Lib.Linearizable
import Lunchbox.Monitor.Model
import Lunchbox.Atomic
import Lunchbox.LFVector.Locked
import Lunchbox.Monitor.Atomic
import Lunchbox.Monitor.Wakeup
import Lunchbox.Pool
import Lunchbox.RefPtr.ThreadInvariant
import Lunchbox.RefPtr.ThreadSafety
import Lunchbox.Any
import Lunchbox.Future
import Lunchbox.Log.Redirect
import Lunchbox.PluginFactory.Libraries
