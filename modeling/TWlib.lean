import TWlib.BufBlkEat
import TWlib.BufBlkUnlink
import TWlib.BufBlkEatCases
import TWlib.BufBlkEatOutcomes
import TWlib.BufBlkEatBytes
import TWlib.BufBlkContig
import TWlib.BufBlkCopy
import TWlib.BufBlkIterator
import TWlib.MemBlkMutex
import TWlib.BufBlkCount
import TWlib.BufBlkOwnership
import TWlib.BufBlkOwnershipCopy
import TWlib.BufBlkOwnershipSlice
import TWlib.BufBlkRefCount
import TWlib.CircularBuffer
import TWlib.CircularSequential
import TWlib.CircularThreads
import TWlib.CircularWakeups
import TWlib.KHashMap
import TWlib.KHashRefinement
import TWlib.KHashReferences
import TWlib.BufBlkNavigate
import TWlib.SafeFifoWakeups
import TWlib.SafeFifoMv
import TWlib.Semaphore
import TWlib.SemaTwoWayPermits
import TWlib.BndSafeFifoCapacity
import TWlib.BndSafeFifoThreads
import TWlib.LListSequence
import TWlib.KHashLifetime
import TWlib.GoogleHash
import TWlib.GoogleHashRefinement
import TWlib.DenseHashReferences
import TWlib.GoogleHashLocks
import TWlib.StringMap
import TWlib.StringMapCalls
import TWlib.StringMapOwnership
import TWlib.AutoPointerCleanup
import TWlib.CircularSwitch
import TWlib.Lib.LockProgram
import TWlib.QueueLocks
import TWlib.TaskStart
import TWlib.CircularArray
import TWlib.CircularClone
import TWlib.CircularStranded
import TWlib.KHashLoops
import TWlib.TaskStatus
import TWlib.BufBlkEatShared
import TWlib.CircularReverse
import TWlib.FifoCopy
import TWlib.SafeFifoIterator
import TWlib.SafeFifoWaiters
import TWlib.BufBlkAssign
import TWlib.BufBlkContigFailure
import TWlib.BufBlkDeepCopy
import TWlib.BufBlkHexDump
import TWlib.CircularDeadlines
import TWlib.Times
import TWlib.TaskManager
import TWlib.LListOwnership
import TWlib.LListDeletion
import TWlib.LListBulk
import TWlib.DynArraySequence
import TWlib.DynArraySelf
import TWlib.FifoDisabled
import TWlib.BndSafeFifoCopy
import TWlib.RbTreeIterators
import TWlib.KTreeRuns
import TWlib.DenseTableIterators
import TWlib.DenseHashTable
