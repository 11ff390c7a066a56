import DieHard.Lib.Transition
import DieHard.Lib.Blocks
import DieHard.Lib.Regions
import DieHard.Lib.ByteMemory
import DieHard.Lib.Runs
import DieHard.Lib.Counting
import DieHard.Lib.DelayedCounter
import DieHard.Lib.Linearizability
import DieHard.Lib.Spinlock
import DieHard.Lib.LinearProbing
import DieHard.Lib.BinaryHeap
import DieHard.Lib.Codec
import DieHard.Lib.Classes
import DieHard.Lib.Numeral
import DieHard.Lib.MaxTable
import DieHard.Lib.SlotTable
import DieHard.Math.Log2
import DieHard.Math.Log2Variants
import DieHard.Math.HalfLog2
import DieHard.Util.Size
import DieHard.Util.HeapShield
import DieHard.Util.KingsleyHeap
import DieHard.Util.SourceHeap
import DieHard.Util.BrokenMalloc
import DieHard.Util.TrackAlloc
import DieHard.Util.Injection
import DieHard.Util.BitMap
import DieHard.Util.AtomicBitMap
import DieHard.Util.AtomicThreads
import DieHard.Util.DynamicHashTable
import DieHard.Util.RandomMmap
import DieHard.Util.Random
import DieHard.FreePool.Queue
import DieHard.FreePool.Invariant
import DieHard.FreePool.Steps
import DieHard.FreePool.Fifo
import DieHard.FreePool.Full
import DieHard.FreePool.Once
import DieHard.Heap.Config
import DieHard.Heap.MiniHeap
import DieHard.Heap.Template
import DieHard.Heap.Activation
import DieHard.Heap.SlotIndex
import DieHard.Heap.PageTable
import DieHard.Heap.DieHardHeap
import DieHard.Heap.FailedGrowth
import DieHard.Heap.Placement
import DieHard.Heap.Frame
import DieHard.Heap.Search
import DieHard.Heap.Growth
import DieHard.Heap.Allocation
import DieHard.Heap.Safety
import DieHard.Heap.DieFast
import DieHard.Heap.FalseAlarm
import DieHard.Heap.Zeroed
import DieHard.Heap.Detection
import DieHard.Heap.InvalidFree
import DieHard.Heap.LargeHeap
import DieHard.Heap.FailedMapping
import DieHard.Heap.Capacity
import DieHard.Heap.Counters
import DieHard.Heap.Uniform
import DieHard.Heap.ShuffleHeap
import DieHard.Heap.LargeObjects
import DieHard.Heap.LargeThreads
import DieHard.Heap.CombineHeap
import DieHard.Heap.Caches
import DieHard.Heap.Memalign
import DieHard.Scalable.Registry
import DieHard.Scalable.Initialization
import DieHard.Scalable.RegistryBound
import DieHard.Scalable.Machine
import DieHard.Scalable.Steps
import DieHard.Scalable.Invariant
import DieHard.Scalable.Calls
import DieHard.Scalable.Lookup
import DieHard.Scalable.Freeing
import DieHard.Scalable.Held
import DieHard.Scalable.UsableSize
import DieHard.Scalable.Forwarding
import DieHard.Scalable.Traffic
import DieHard.Scalable.Carried
import DieHard.Scalable.Pending
import DieHard.Scalable.Fallback
import DieHard.Scalable.DoubleFree
import DieHard.Scalable.ThreadIds
import DieHard.Scalable.Protocol
import DieHard.Scalable.Balance
import DieHard.Scalable.Accounts
import DieHard.Scalable.FreesOnce
import DieHard.Scalable.Wraparound
import DieHard.Replicated.Vote
import DieHard.Replicated.Pipeline
import DieHard.Replicated.Steps
import DieHard.Replicated.Rounds
import DieHard.Replicated.Safety
import DieHard.Replicated.Lockstep
import DieHard.Replicated.Output
import DieHard.Replicated.EndOfFile
import DieHard.Replicated.Barrier
import DieHard.Exterminator.Partition
import DieHard.Exterminator.Heap
import DieHard.Exterminator.Correct
import DieHard.Exterminator.Deferred
import DieHard.Exterminator.DanglingPatch
import DieHard.Exterminator.InvalidFree
import DieHard.Exterminator.Injection
import DieHard.Exterminator.DieFast
import DieHard.Exterminator.Accounting
import DieHard.Exterminator.DirectObjects
import DieHard.Exterminator.DirectThreads
import DieHard.Exterminator.LiveObjects
import DieHard.Exterminator.Realloc
import DieHard.Exterminator.CorrectedRuns
import DieHard.Exterminator.ExchangeBitMap
import DieHard.Exterminator.CoreFile
import DieHard.Exterminator.RoundTrip
import DieHard.Exterminator.CompareWords
import DieHard.Exterminator.IdLookup
import DieHard.Exterminator.PartitionBounds
import DieHard.Exterminator.CompareSlot
import DieHard.Exterminator.EqPartition
import DieHard.Exterminator.Mask
import DieHard.Exterminator.PatchFile
import DieHard.Exterminator.ReadPatch
import DieHard.Exterminator.PatchReports
import DieHard.Exterminator.Overflow
import DieHard.Exterminator.CompareHeaps
import DieHard.Exterminator.CanaryScore
import DieHard.Exterminator.HeapPatches
import DieHard.Exterminator.ReadFile
import DieHard.Exterminator.Repair
import DieHard.Exterminator.BufferBounds
import DieHard.Concurrent.RandomHeap
import DieHard.Concurrent.Growth
import DieHard.Concurrent.Free
import DieHard.Concurrent.Retry
