import ConcurrencyInAction.Lib.Mutex

/-!
# Once flags

A flag that lets one call through to an initialization, makes the others wait for it, and is as it
was before when the initialization fails.

* `OnceFlag`: nobody has come yet, a thread is active, or the initialization has been completed;
* `owner`: the thread that is active holds the flag as it would hold a mutex;
* `enter`: what the flag is when a thread gets past it, and `enter_eq_some`.
-/

namespace ExclusiveLock

variable {T : Type*}

inductive OnceFlag (T : Type*) where
  | untouched
  | active (t : T)
  | done
  deriving DecidableEq

namespace OnceFlag

def owner : OnceFlag T → Mutex T
  | .active t => some t
  | .untouched | .done => none

def isDone : OnceFlag T → Bool
  | .done => true
  | .untouched | .active _ => false

/-- A thread arrives: it becomes active, it goes on past the flag, or it has to wait. -/
def enter (t : T) : OnceFlag T → Option (OnceFlag T)
  | .untouched => some (.active t)
  | .active _ => none
  | .done => some .done

theorem enter_eq_some {t : T} {flag flag' : OnceFlag T} (h : flag.enter t = some flag') :
    (flag = .untouched ∧ flag' = .active t) ∨ (flag = .done ∧ flag' = .done) := by
  cases flag with
  | untouched => exact .inl ⟨rfl, (Option.some.inj h).symm⟩
  | active u => exact nomatch h
  | done => exact .inr ⟨rfl, (Option.some.inj h).symm⟩

/-- A thread waits only for one that is active. -/
theorem exists_owner_of_enter {t : T} {flag : OnceFlag T} (h : flag.enter t = none) :
    ∃ u, flag.owner = some u := by
  cases flag with
  | untouched => exact nomatch h
  | active u => exact ⟨u, rfl⟩
  | done => exact nomatch h

end OnceFlag

end ExclusiveLock
