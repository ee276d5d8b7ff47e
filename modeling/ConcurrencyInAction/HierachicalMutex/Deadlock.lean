import ConcurrencyInAction.HierachicalMutex.Representation

/-!
# No circular wait on hierarchical mutexes

A thread blocked inside `lock` has passed the check, so the mutex it waits for lies strictly below
its level; the level is that of the lowest mutex it holds.  Following the holders of the awaited
mutexes the levels would strictly decrease for ever.
-/

namespace ConcurrencyInAction.HierachicalMutex

open Interleaving ExclusiveLock

variable {T M : Type*} {hierarchyValue : M → UInt64}

/-- Thread `t` is inside `lock`, past its check, about to lock the internal mutex of `m`. -/
def WaitsFor (s : Config T (Shared T M) (Thread M)) (t : T) (m : M) : Prop :=
  (s.locals t).point = .lockAcquire m

theorem Assertion.level_le_of_owner {t : T} {g : Shared T M} {l : Thread M} {m m' : M}
    (h : Assertion hierarchyValue t g l) (hp : l.point = .lockAcquire m)
    (hown : g.internalMutex m' = some t) : l.thisThreadHierarchyValue ≤ hierarchyValue m' := by
  have ha := h.atPoint
  simp only [AtPoint, hp] at ha
  rw [ha.1.1]
  exact h.descending.level_le ((h.owns m').mpr hown)

theorem Assertion.lt_of_waits {t : T} {g : Shared T M} {l : Thread M} {m : M}
    (h : Assertion hierarchyValue t g l) (hp : l.point = .lockAcquire m) :
    hierarchyValue m < l.thisThreadHierarchyValue := by
  have ha := h.atPoint
  simp only [AtPoint, hp] at ha
  exact ha.2

/-- Where every thread satisfies its assertion there is no circular wait; the threads are ranked by
their levels. -/
theorem not_circularWait {s : Config T (Shared T M) (Thread M)}
    (h : ∀ t, Assertion hierarchyValue t s.shared (s.locals t)) (S : Set T) :
    ¬ CircularWait (WaitsFor s) s.shared.internalMutex S := by
  apply not_circularWait_of_rank (fun m => (hierarchyValue m).toNat)
    fun t => (s.locals t).thisThreadHierarchyValue.toNat
  · intro t m hw
    exact UInt64.lt_iff_toNat_lt.mp ((h t).lt_of_waits hw)
  · intro t m m' hw hown
    exact UInt64.le_iff_toNat_le.mp ((h t).level_le_of_owner hw hown)

variable [DecidableEq T] [DecidableEq M]

/-- **Deadlock freedom.**  In no reachable state is there a non-empty set of threads, each blocked
inside `lock` past its check on an internal mutex that is held by a thread of the set. -/
theorem lock_deadlock_free (hierarchyValue : M → UInt64) {s : Config T (Shared T M) (Thread M)}
    (hs : Reachable (program hierarchyValue) unlocksHeld initial s) :
    ¬ ∃ S : Set T, S.Nonempty ∧
      ∀ t ∈ S, ∃ m, (s.locals t).point = .lockAcquire m ∧
        ∃ u ∈ S, s.shared.internalMutex m = some u := by
  rintro ⟨S, hne, hS⟩
  exact not_circularWait (reachable_assertion hs) S ⟨hne, hS⟩

/-- Thread `false` holds the high level mutex and is blocked on the low level mutex, which thread
`true` holds. -/
def blockedRun : List (Bool × Choice GlobalMutex) :=
  [(true, .call (.lock .lowLevelMutex)), (true, .run), (true, .run), (true, .run), (true, .run),
   (false, .call (.lock .highLevelMutex)), (false, .run), (false, .run), (false, .run),
   (false, .run), (false, .call (.lock .lowLevelMutex)), (false, .run)]

theorem lock_deadlock_free_blockedRun :
    ∃ s, initial.run (program globalHierarchyValue) blockedRun = some s ∧
      (s.locals false).point = .lockAcquire .lowLevelMutex ∧
      s.shared.internalMutex .lowLevelMutex = some true ∧
      ¬ ∃ S : Set Bool, S.Nonempty ∧
        ∀ t ∈ S, ∃ m, (s.locals t).point = .lockAcquire m ∧
          ∃ u ∈ S, s.shared.internalMutex m = some u := by
  refine ⟨(initial.run (program globalHierarchyValue) blockedRun).get (by decide),
    (Option.some_get _).symm, by decide, by decide, ?_⟩
  exact lock_deadlock_free globalHierarchyValue
    (Reachable.of_run blockedRun _ _ .init (by decide) (Option.some_get _).symm)

end ConcurrencyInAction.HierachicalMutex
