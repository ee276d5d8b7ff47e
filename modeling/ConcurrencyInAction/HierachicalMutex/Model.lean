import ConcurrencyInAction.Lib.Interleaving
import ConcurrencyInAction.Lib.Mutex
import Mathlib.Data.List.Basic

/-!
# `hierachical_mutex`: the code, step by step

A `hierachical_mutex` is an internal lock, a constant level `hierarchy_value` and a saved level
`previous_hierarchy_value`; each thread has a level of its own, the thread-local
`this_thread_hierarchy_value`.  The member functions run one memory access at a time:

* `lock` and `try_lock`: the hierarchy check, the internal lock, then the two assignments of
  `update_hierarchy_value` (`savePrevious`, `setThis`);
* `unlock`: the comparison of the two levels, the assignment that restores the thread's level, the
  release of the internal lock.

The internal `std::mutex` is exclusive and not recursive: `lock` waits while anyone holds it, the
calling thread included, and `try_lock` may also fail spuriously.  Releasing a `std::mutex` that the
thread does not hold is undefined (`Point.undefined`).

`acquired` is a history variable, the mutexes whose internal lock the thread got and has not given
back, the most recent first: no step of the code reads it.
-/

namespace ConcurrencyInAction.HierachicalMutex

open Interleaving ExclusiveLock

variable {T M : Type*}

/-- `ULONG_MAX` for a 64-bit `unsigned long`, the level of a thread that has locked nothing. -/
def ulongMax : UInt64 := 0xFFFFFFFFFFFFFFFF

/-- The text of the `std::logic_error` of both checks. -/
def hierarchyViolated : String := "mutex hierarchy violated"

/-- The members of every mutex that change; the constructor sets the saved level to `0`. -/
structure Shared (T M : Type*) where
  internalMutex : M → Mutex T
  previousHierarchyValue : M → UInt64

/-- The public member functions, with the mutex they are called on. -/
inductive Call (M : Type*) where
  | lock (m : M)
  | tryLock (m : M)
  | unlock (m : M)
  deriving DecidableEq

/-- Where a thread is: outside every member function, or about to take the named step of one. -/
inductive Point (M : Type*) where
  | idle
  | lockCheck (m : M)
  | lockAcquire (m : M)
  | tryCheck (m : M)
  | tryAcquire (m : M)
  | savePrevious (m : M)
  | setThis (m : M)
  | unlockCheck (m : M)
  | unlockRestore (m : M)
  | unlockRelease (m : M)
  | undefined
  deriving DecidableEq

/-- How the last member function ended; `returned` is `true` for `try_lock`. -/
inductive Outcome where
  | returned
  | returnedFalse
  | logicError (what : String)
  deriving DecidableEq

/-- A thread: its thread-local level, its program point, how its last call ended, and the history
variable `acquired`. -/
structure Thread (M : Type*) where
  thisThreadHierarchyValue : UInt64
  point : Point M
  outcome : Option Outcome
  acquired : List M

/-- What the scheduler and the client decide: which function an idle thread calls, that a thread
takes its next step, or that `std::mutex::try_lock` fails spuriously. -/
inductive Choice (M : Type*) where
  | call (f : Call M)
  | run
  | spurious
  deriving DecidableEq

namespace Thread

/-- A call starts at the function's first step. -/
def enter (l : Thread M) (p : Point M) : Thread M := { l with point := p, outcome := none }

/-- The function goes on with its next step. -/
def goto (l : Thread M) (p : Point M) : Thread M := { l with point := p }

/-- The function ends. -/
def finish (l : Thread M) (o : Outcome) : Thread M := { l with point := .idle, outcome := some o }

end Thread

/-- The two global mutexes of the example. -/
inductive GlobalMutex where
  | highLevelMutex
  | lowLevelMutex
  deriving DecidableEq

/-- The values they are constructed with. -/
def globalHierarchyValue : GlobalMutex → UInt64
  | .highLevelMutex => 10000
  | .lowLevelMutex => 5000

section Code

variable [DecidableEq T] [DecidableEq M]

/-- `internal_mutex.lock()` or `try_lock()` on a free lock. -/
def Shared.take (g : Shared T M) (t : T) (m : M) : Shared T M :=
  { g with internalMutex := Function.update g.internalMutex m (some t) }

/-- `internal_mutex.unlock()`. -/
def Shared.release (g : Shared T M) (m : M) : Shared T M :=
  { g with internalMutex := Function.update g.internalMutex m none }

/-- `previous_hierarchy_value = this_thread_hierarchy_value` in mutex `m`. -/
def Shared.save (g : Shared T M) (m : M) (value : UInt64) : Shared T M :=
  { g with previousHierarchyValue := Function.update g.previousHierarchyValue m value }

/-- `check_for_hierarchy_violation`, then the next step of the caller. -/
def checkForHierarchyViolation (hierarchyValue : M → UInt64) (m : M) (l : Thread M)
    (next : Point M) : Thread M :=
  if l.thisThreadHierarchyValue ≤ hierarchyValue m then l.finish (.logicError hierarchyViolated)
  else l.goto next

/-- The steps of `lock`, `try_lock`, `update_hierarchy_value` and `unlock`. -/
def program (hierarchyValue : M → UInt64) : Program T (Choice M) (Shared T M) (Thread M) :=
  fun t c g l =>
    match l.point, c with
    | .idle, .call (.lock m) => some (g, l.enter (.lockCheck m))
    | .idle, .call (.tryLock m) => some (g, l.enter (.tryCheck m))
    | .idle, .call (.unlock m) => some (g, l.enter (.unlockCheck m))
    | .lockCheck m, .run =>
        some (g, checkForHierarchyViolation hierarchyValue m l (.lockAcquire m))
    | .lockAcquire m, .run =>
        if g.internalMutex m = none then
          some (g.take t m, { l.goto (.savePrevious m) with acquired := m :: l.acquired })
        else none
    | .tryCheck m, .run =>
        some (g, checkForHierarchyViolation hierarchyValue m l (.tryAcquire m))
    | .tryAcquire m, .run =>
        if g.internalMutex m = none then
          some (g.take t m, { l.goto (.savePrevious m) with acquired := m :: l.acquired })
        else some (g, l.finish .returnedFalse)
    | .tryAcquire _, .spurious => some (g, l.finish .returnedFalse)
    | .savePrevious m, .run =>
        some (g.save m l.thisThreadHierarchyValue, l.goto (.setThis m))
    | .setThis m, .run =>
        some (g, { l.finish .returned with thisThreadHierarchyValue := hierarchyValue m })
    | .unlockCheck m, .run =>
        if l.thisThreadHierarchyValue ≠ hierarchyValue m then
          some (g, l.finish (.logicError hierarchyViolated))
        else some (g, l.goto (.unlockRestore m))
    | .unlockRestore m, .run =>
        some (g, { l.goto (.unlockRelease m) with
          thisThreadHierarchyValue := g.previousHierarchyValue m })
    | .unlockRelease m, .run =>
        if g.internalMutex m = some t then
          some (g.release m, { l.finish .returned with acquired := l.acquired.erase m })
        else some (g, l.goto .undefined)
    | _, _ => none

/-- All mutexes constructed and unlocked, no thread inside a member function. -/
def initial : Config T (Shared T M) (Thread M) where
  shared := ⟨fun _ => none, fun _ => 0⟩
  locals := fun _ => ⟨ulongMax, .idle, none, []⟩

/-- A thread calls `unlock` only on a mutex that it holds; the order is free. -/
def unlocksHeld (s : Config T (Shared T M) (Thread M)) (t : T) (c : Choice M) : Prop :=
  ∀ m, c = .call (.unlock m) → s.shared.internalMutex m = some t

instance (s : Config T (Shared T M) (Thread M)) (t : T) (c : Choice M) :
    Decidable (unlocksHeld s t c) :=
  match c with
  | .call (.unlock m) =>
      decidable_of_iff (s.shared.internalMutex m = some t)
        ⟨fun h _ hm => by cases hm; exact h, fun h => h m rfl⟩
  | .call (.lock _) => isTrue (fun _ hm => by cases hm)
  | .call (.tryLock _) => isTrue (fun _ hm => by cases hm)
  | .run => isTrue (fun _ hm => by cases hm)
  | .spurious => isTrue (fun _ hm => by cases hm)

end Code

/-! ### What a step can do -/

section Inversion

variable [DecidableEq T] [DecidableEq M] (hierarchyValue : M → UInt64)

/-- The steps of the code, one case per branch. -/
inductive Step (t : T) (g : Shared T M) (l : Thread M) : Choice M → Shared T M → Thread M → Prop
  | callLock {m : M} : l.point = .idle → Step t g l (.call (.lock m)) g (l.enter (.lockCheck m))
  | callTryLock {m : M} : l.point = .idle →
      Step t g l (.call (.tryLock m)) g (l.enter (.tryCheck m))
  | callUnlock {m : M} : l.point = .idle →
      Step t g l (.call (.unlock m)) g (l.enter (.unlockCheck m))
  | checkThrows {m : M} : l.point = .lockCheck m ∨ l.point = .tryCheck m →
      l.thisThreadHierarchyValue ≤ hierarchyValue m →
      Step t g l .run g (l.finish (.logicError hierarchyViolated))
  | lockCheckPasses {m : M} : l.point = .lockCheck m →
      hierarchyValue m < l.thisThreadHierarchyValue → Step t g l .run g (l.goto (.lockAcquire m))
  | tryCheckPasses {m : M} : l.point = .tryCheck m →
      hierarchyValue m < l.thisThreadHierarchyValue → Step t g l .run g (l.goto (.tryAcquire m))
  | takes {m : M} : l.point = .lockAcquire m ∨ l.point = .tryAcquire m → g.internalMutex m = none →
      Step t g l .run (g.take t m) { l.goto (.savePrevious m) with acquired := m :: l.acquired }
  | tryFails {m : M} : l.point = .tryAcquire m → g.internalMutex m ≠ none →
      Step t g l .run g (l.finish .returnedFalse)
  | tryFailsSpuriously {m : M} : l.point = .tryAcquire m →
      Step t g l .spurious g (l.finish .returnedFalse)
  | savesPrevious {m : M} : l.point = .savePrevious m →
      Step t g l .run (g.save m l.thisThreadHierarchyValue) (l.goto (.setThis m))
  | setsThis {m : M} : l.point = .setThis m →
      Step t g l .run g { l.finish .returned with thisThreadHierarchyValue := hierarchyValue m }
  | unlockThrows {m : M} : l.point = .unlockCheck m →
      l.thisThreadHierarchyValue ≠ hierarchyValue m →
      Step t g l .run g (l.finish (.logicError hierarchyViolated))
  | unlockPasses {m : M} : l.point = .unlockCheck m →
      l.thisThreadHierarchyValue = hierarchyValue m →
      Step t g l .run g (l.goto (.unlockRestore m))
  | restores {m : M} : l.point = .unlockRestore m →
      Step t g l .run g
        { l.goto (.unlockRelease m) with thisThreadHierarchyValue := g.previousHierarchyValue m }
  | releases {m : M} : l.point = .unlockRelease m → g.internalMutex m = some t →
      Step t g l .run (g.release m) { l.finish .returned with acquired := l.acquired.erase m }
  | releasesForeign {m : M} : l.point = .unlockRelease m → g.internalMutex m ≠ some t →
      Step t g l .run g (l.goto .undefined)

/-- **Inversion.**  The steps of the code are exactly the cases of `Step`. -/
theorem program_eq_some {t : T} {c : Choice M} {g g' : Shared T M} {l l' : Thread M} :
    program hierarchyValue t c g l = some (g', l') ↔ Step hierarchyValue t g l c g' l' := by
  constructor
  · intro h
    unfold program at h
    split at h
    all_goals rename_i hp
    all_goals try (cases h)
    · exact .callLock hp
    · exact .callTryLock hp
    · exact .callUnlock hp
    · unfold checkForHierarchyViolation
      split
      · exact .checkThrows (.inl hp) ‹_›
      · exact .lockCheckPasses hp (UInt64.not_le.mp ‹_›)
    · split at h
      · cases h
        exact .takes (.inl hp) ‹_›
      · cases h
    · unfold checkForHierarchyViolation
      split
      · exact .checkThrows (.inr hp) ‹_›
      · exact .tryCheckPasses hp (UInt64.not_le.mp ‹_›)
    · split at h
      · cases h
        exact .takes (.inr hp) ‹_›
      · cases h
        exact .tryFails hp ‹_›
    · exact .tryFailsSpuriously hp
    · exact .savesPrevious hp
    · exact .setsThis hp
    · split at h
      · cases h
        exact .unlockThrows hp ‹_›
      · cases h
        exact .unlockPasses hp (not_not.mp ‹_›)
    · exact .restores hp
    · split at h
      · cases h
        exact .releases hp ‹_›
      · cases h
        exact .releasesForeign hp ‹_›
  · intro h
    cases h with
    | checkThrows hp hle =>
      rcases hp with hp | hp <;> simp [program, hp, checkForHierarchyViolation, hle]
    | takes hp hfree => rcases hp with hp | hp <;> simp [program, hp, hfree]
    | tryFails hp hheld => simp [program, hp, hheld]
    | lockCheckPasses hp hlt | tryCheckPasses hp hlt =>
      simp [program, hp, checkForHierarchyViolation, UInt64.not_le.mpr hlt]
    | unlockThrows hp hne => simp [program, hp, hne]
    | unlockPasses hp he => simp [program, hp, he]
    | releases hp hheld => simp [program, hp, hheld]
    | releasesForeign hp hheld => simp [program, hp, hheld]
    | _ => simp [program, *]

end Inversion

end ConcurrencyInAction.HierachicalMutex
