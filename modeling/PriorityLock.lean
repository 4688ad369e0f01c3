import PriorityLock.Lists.Placement
import PriorityLock.Lists.Links
import PriorityLock.Lists.Greedy
import PriorityLock.Transition.Runs
import PriorityLock.Transition.History
import PriorityLock.Transition.Fairness
import PriorityLock.Transition.Tally
import PriorityLock.Transition.Peak
import PriorityLock.Priority
import PriorityLock.Queue.Basic
import PriorityLock.Queue.Chained
import PriorityLock.Queue.Arena
import PriorityLock.Queue.ArenaStore
import PriorityLock.Queue.ArenaLinks
import PriorityLock.Queue.ArenaBlock
import PriorityLock.Queue.ArenaLawful
import PriorityLock.Queue.Boxed
import PriorityLock.Queue.BoxedStore
import PriorityLock.Queue.BoxedInsert
import PriorityLock.Queue.BoxedDequeue
import PriorityLock.Queue.BoxedLawful
import PriorityLock.Queue.Builtin
import PriorityLock.Queue.Runs
import PriorityLock.Queue.Correctness
import PriorityLock.Queue.Memory
import PriorityLock.Queue.Updates
import PriorityLock.Queue.Ownership
import PriorityLock.Queue.Probe
import PriorityLock.Queue.Slots
import PriorityLock.Queue.Lockstep
import PriorityLock.Queue.Stability
import PriorityLock.Lock.Basic
import PriorityLock.Lock.Numbered
import PriorityLock.Lock.Entries
import PriorityLock.Lock.RwLock
import PriorityLock.Queue.Plain
import PriorityLock.Queue.Twins
import PriorityLock.Waiter.Basic
import PriorityLock.Waiter.Steps
import PriorityLock.Waiter.Wakeups
import PriorityLock.Waiter.Storage
import PriorityLock.Waiter.Tasks
import PriorityLock.Waiter.Packed
import PriorityLock.Waiter.PackedSteps
import PriorityLock.Waiter.Progress
import PriorityLock.Mutex.Basic
import PriorityLock.Mutex.Exclusion
import PriorityLock.Mutex.Order
import PriorityLock.Mutex.Eviction
import PriorityLock.Mutex.Overtaking
import PriorityLock.Mutex.FairLock
import PriorityLock.Mutex.Progress
import PriorityLock.Mutex.Guarded
import PriorityLock.Mutex.Tasks
import PriorityLock.Semaphore.Entry
import PriorityLock.Semaphore.Basic
import PriorityLock.Semaphore.Guards
import PriorityLock.Semaphore.Order
import PriorityLock.Semaphore.Pool
import PriorityLock.Semaphore.Walk
import PriorityLock.Semaphore.Loops
import PriorityLock.Semaphore.Functions
import PriorityLock.Semaphore.Refinement
import PriorityLock.Semaphore.Conservation
import PriorityLock.Semaphore.Shape
import PriorityLock.Semaphore.OnePermit
import PriorityLock.Semaphore.Twins
import PriorityLock.Semaphore.Plain
import PriorityLock.Semaphore.Stalls
import PriorityLock.Semaphore.Origins
import PriorityLock.Semaphore.Grants
import PriorityLock.Semaphore.Fairness
import PriorityLock.Semaphore.Progress
import PriorityLock.Semaphore.Eviction
import PriorityLock.Semaphore.Justification
import PriorityLock.Semaphore.WithinTotal
import PriorityLock.Semaphore.Rescan
import PriorityLock.Semaphore.Overflow
import PriorityLock.Semaphore.Activation
import PriorityLock.Semaphore.Cancellation
import PriorityLock.Semaphore.Counts
import PriorityLock.Semaphore.Tasks
import PriorityLock.Constructors
import PriorityLock.Destructors
import PriorityLock.Contract
