import ConcurrencyInAction.Lib.UniqueLock

/-!
# `process_data` and `get_and_process_data`: the code

The functions that hold a mutex through a `std::unique_lock`:

* `process_data` takes over the `unique_lock` that `get_lock` returns, with the mutex locked;
* `get_and_process_data` unlocks while it processes its chunk of data, and locks again;
* the functions that they call, empty in the source, are parameters (`Functions`) and may throw;
  `prepare_data` and `do_something` work on data that `some_mutex` guards, `get_next_data_chunck`
  and `write_result` on data that `the_mutex` guards, and `process` on neither.

The two `lk` are told apart by their functions.  `return lk` moves the lock object and destroys it,
which is what it comes to as well where the compiler elides the move.
-/

namespace ConcurrencyInAction.UniqueLockFunctions

open Interleaving UniqueLocks

inductive MutexName where
  | someMutex
  | theMutex
  deriving DecidableEq

inductive LockName where
  | getLockLk
  | processDataLk
  | myLock
  deriving DecidableEq

variable {T D E C R : Type*}

/-- The functions that are called. -/
structure Functions (D E C R : Type*) where
  prepareData : D → D
  doSomething : D → D
  getNextDataChunck : E → C × E
  process : C → R
  writeResult : C → R → E → E

/-- The variables of `get_and_process_data`. -/
structure Vars (C R : Type*) where
  dataToProcess : Option C
  result : Option R
  deriving DecidableEq

/-- The statements; the shared data are those of `some_mutex` and those of `the_mutex`. -/
abbrev Statement (D E C R : Type*) := Stmt LockName MutexName (D × E) (Vars C R)

/-- `get_lock`. -/
def getLock (F : Functions D E C R) (returned : LockName) : List (Statement D E C R) :=
  [.construct .getLockLk .someMutex,
    .access [.someMutex] fun d v => ((F.prepareData d.1, d.2), v),
    .moveFrom returned .getLockLk,
    .destroy .getLockLk]

/-- `process_data`. -/
def processData (F : Functions D E C R) : List (Statement D E C R) :=
  getLock F .processDataLk ++
    [.access [.someMutex] fun d v => ((F.doSomething d.1, d.2), v)]

end ConcurrencyInAction.UniqueLockFunctions
