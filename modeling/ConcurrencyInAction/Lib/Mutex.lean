import Mathlib.Logic.Function.Basic
import Mathlib.Order.WellFounded
import Mathlib.Data.Set.Basic

/-!
# Exclusive locks, and lock ordering

An exclusive, non-recursive lock is the thread that holds it, if any; a family of locks is a map
from the locks to their holders.

* `SameHolder`: what a thread relies on, that nobody else takes or gives back *its* locks, and the
  two steps (`SameHolder.lock`, `SameHolder.unlock`) that keep it for every other thread;
* `CircularWait`: a non-empty set of threads, each waiting for a lock held inside the set;
* `not_circularWait_of_rank`: **lock ordering**, from ranks in any well-founded order;
* `exists_ready`: without a circular wait, some unfinished thread is not waiting.
-/

namespace ExclusiveLock

variable {T M R : Type*}

/-- A lock by its holder; `none` when it is free. -/
abbrev Mutex (T : Type*) := Option T

/-- Thread `u` holds the same locks before and after. -/
def SameHolder (u : T) (own own' : M → Mutex T) : Prop := ∀ m, own' m = some u ↔ own m = some u

theorem SameHolder.refl (u : T) (own : M → Mutex T) : SameHolder u own own := fun _ => Iff.rfl

/-- A thread that takes a free lock does not disturb another thread. -/
theorem SameHolder.lock [DecidableEq M] {own : M → Mutex T} {m : M} {t u : T} (hfree : own m = none)
    (hu : u ≠ t) : SameHolder u own (Function.update own m (some t)) := by
  intro x
  by_cases hx : x = m
  · subst hx
    simp [hfree, hu.symm]
  · rw [Function.update_of_ne hx]

/-- A thread that gives back a lock of its own does not disturb another thread. -/
theorem SameHolder.unlock [DecidableEq M] {own : M → Mutex T} {m : M} {t u : T}
    (hheld : own m = some t) (hu : u ≠ t) : SameHolder u own (Function.update own m none) := by
  intro x
  by_cases hx : x = m
  · subst hx
    simp [hheld, hu.symm]
  · rw [Function.update_of_ne hx]

/-- Every thread of the non-empty set waits for a lock that a thread of the set holds. -/
def CircularWait (waits : T → M → Prop) (own : M → Mutex T) (S : Set T) : Prop :=
  S.Nonempty ∧ ∀ t ∈ S, ∃ m, waits t m ∧ ∃ u ∈ S, own m = some u

/-- **Lock ordering.**  If a waiting thread waits for a lock of a level below its rank, and has no
lock of a level below its rank, there is no circular wait: a thread of least rank in the set would
wait for a thread of smaller rank. -/
theorem not_circularWait_of_rank [LinearOrder R] [WellFoundedLT R] {waits : T → M → Prop}
    {own : M → Mutex T} (level : M → R) (rank : T → R)
    (hwaits : ∀ t m, waits t m → level m < rank t)
    (hholds : ∀ t m m', waits t m → own m' = some t → rank t ≤ level m') (S : Set T) :
    ¬ CircularWait waits own S := by
  rintro ⟨⟨t₀, ht₀⟩, hS⟩
  obtain ⟨_, ⟨t, ht, rfl⟩, hmin⟩ :=
    WellFounded.has_min (wellFounded_lt (α := R)) (rank '' S) ⟨rank t₀, t₀, ht₀, rfl⟩
  obtain ⟨m, hm, u, hu, hown⟩ := hS t ht
  obtain ⟨m', hm', -⟩ := hS u hu
  have hlt : rank u < rank t := lt_of_le_of_lt (hholds u m' m hm' hown) (hwaits t m hm)
  exact hmin (rank u) ⟨u, hu, rfl⟩ hlt

/-- If every unfinished thread is ready or waits for a lock held by an unfinished thread, and there
is no circular wait, an unfinished thread is ready as long as there is an unfinished one. -/
theorem exists_ready {waits : T → M → Prop} {own : M → Mutex T} {unfinished ready : T → Prop}
    (hblocked : ∀ t, unfinished t →
      ready t ∨ ∃ m, waits t m ∧ ∃ u, unfinished u ∧ own m = some u)
    (hno : ∀ S, ¬ CircularWait waits own S) (hex : ∃ t, unfinished t) :
    ∃ t, unfinished t ∧ ready t := by
  by_contra hnone
  apply hno {t | unfinished t}
  obtain ⟨t₀, ht₀⟩ := hex
  refine ⟨⟨t₀, ht₀⟩, fun t ht => ?_⟩
  rcases hblocked t ht with hr | ⟨m, hm, u, hu, hown⟩
  · exact absurd ⟨t, ht, hr⟩ hnone
  · exact ⟨m, hm, u, hu, hown⟩

end ExclusiveLock
