import ConcurrencyInAction.Lib.Interleaving
import ConcurrencyInAction.Lib.Mutex
import ConcurrencyInAction.HierachicalMutex.Model
import ConcurrencyInAction.HierachicalMutex.Representation
import ConcurrencyInAction.HierachicalMutex.Deadlock
import ConcurrencyInAction.HierachicalMutex.Unlock
import ConcurrencyInAction.Lib.ConditionVariable
import ConcurrencyInAction.ThreadsafeQueue.Model
import ConcurrencyInAction.Lib.SequentialSpec
import ConcurrencyInAction.ThreadsafeQueue.Fifo
import ConcurrencyInAction.ThreadsafeQueue.Wakeup
import ConcurrencyInAction.Lib.CriticalRegion
import ConcurrencyInAction.ThreadsafeStack.Model
import ConcurrencyInAction.ThreadsafeStack.SelfLock
import ConcurrencyInAction.Swap.Model
import ConcurrencyInAction.Swap.Locks
import ConcurrencyInAction.Swap.Serializability
import ConcurrencyInAction.Lib.BlockFold
import ConcurrencyInAction.ParallelAccumulate.Model
import ConcurrencyInAction.ParallelAccumulate.Partition
import ConcurrencyInAction.ParallelAccumulate.Refinement
import ConcurrencyInAction.ParallelAccumulate.Termination
import ConcurrencyInAction.ParallelAccumulate.Joining
import ConcurrencyInAction.ParallelAccumulate.Blocks
import ConcurrencyInAction.ParallelAccumulate.Slots
import ConcurrencyInAction.HierachicalMutex.Client
import ConcurrencyInAction.HierachicalMutex.Checks
import ConcurrencyInAction.HierachicalMutex.ForeignUnlock
import ConcurrencyInAction.Lib.Accounting
import ConcurrencyInAction.UserBalance.Model
import ConcurrencyInAction.UserBalance.Locks
import ConcurrencyInAction.UserBalance.Balance
import ConcurrencyInAction.Lib.Completion
import ConcurrencyInAction.UserBalance.UnknownUser
import ConcurrencyInAction.Lib.SharedRegion
import ConcurrencyInAction.AtomicCounter.Model
import ConcurrencyInAction.AtomicCounter.Increments
import ConcurrencyInAction.AtomicCounter.Progress
import ConcurrencyInAction.SpinlockMutex.Exclusion
import ConcurrencyInAction.DnsCache.Model
import ConcurrencyInAction.DnsCache.AtomicMap
import ConcurrencyInAction.LazyInitialization.Model
import ConcurrencyInAction.LazyInitialization.Once
import ConcurrencyInAction.Lib.Exceptions
import ConcurrencyInAction.AutoJoiningThread.Model
import ConcurrencyInAction.AutoJoiningThread.Ownership
import ConcurrencyInAction.AutoJoiningThread.Assignments
import ConcurrencyInAction.HierachicalMutex.Scopes
import ConcurrencyInAction.Lib.MemoryModel
import ConcurrencyInAction.Lib.LockDiscipline
import ConcurrencyInAction.ReleaseSequenceExample.Model
import ConcurrencyInAction.ReleaseSequenceExample.Assertion
import ConcurrencyInAction.SpinlockMutex.Ordering
import ConcurrencyInAction.LazyInitialization.DataRaces
import ConcurrencyInAction.Lib.OnceFlag
import ConcurrencyInAction.LazyInitialization.CallOnce
import ConcurrencyInAction.BasicThreadManagement.Model
import ConcurrencyInAction.BasicThreadManagement.Lifetime
import ConcurrencyInAction.Lib.Component
import ConcurrencyInAction.ThreadsafeQueue.Client
import ConcurrencyInAction.Pipeline.Model
import ConcurrencyInAction.Pipeline.Delivery
import ConcurrencyInAction.Pipeline.Drain
import ConcurrencyInAction.ThreadGuards.Model
import ConcurrencyInAction.ThreadGuards.Guards
import ConcurrencyInAction.ThreadGuards.Container
import ConcurrencyInAction.DataWrapper.Model
import ConcurrencyInAction.DataWrapper.Races
import ConcurrencyInAction.WaitingForAnEvent.Model
import ConcurrencyInAction.WaitingForAnEvent.Delivery
import ConcurrencyInAction.WaitingForAnEvent.Ending
import ConcurrencyInAction.Lib.AtomicUpdates
import ConcurrencyInAction.AtomicCounter.Ordering
import ConcurrencyInAction.Lib.UpdateLog
import ConcurrencyInAction.ComparisonOperator.Model
import ConcurrencyInAction.ComparisonOperator.Moments
import ConcurrencyInAction.MultithreadCompareExchange.Model
import ConcurrencyInAction.MultithreadCompareExchange.Outcome
import ConcurrencyInAction.MultithreadCompareExchange.Ending
import ConcurrencyInAction.DnsCache.Completion
import ConcurrencyInAction.ProtectedList.Model
import ConcurrencyInAction.ProtectedList.Linearizable
import ConcurrencyInAction.ProtectedList.Completion
import ConcurrencyInAction.Lib.UniqueLock
import ConcurrencyInAction.Lib.GuardedData
import ConcurrencyInAction.UniqueLockFunctions.Model
import ConcurrencyInAction.UniqueLockFunctions.Protection
