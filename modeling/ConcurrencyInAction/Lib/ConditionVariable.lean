import Mathlib.Data.Finset.Card
import Mathlib.Data.Finset.Insert

/-!
# Condition variables

The threads inside `wait` of a condition variable are either asleep, or woken and on their way to
the mutex.  `wait` puts a thread to sleep, a notification or a spurious wake-up moves it to the
woken ones, and it leaves when it has the mutex again.

`Covered n` is the no-lost-wake-up condition for `n` pending items: if anyone sleeps, at least `n`
threads are on their way.  Each operation comes with what it does to `Covered`.
-/

/-- The threads blocked in `wait`, and those already unblocked that do not have the mutex yet. -/
structure ConditionVariable (T : Type*) where
  asleep : Finset T
  woken : Finset T

namespace ConditionVariable

variable {T : Type*} [DecidableEq T]

/-- Nobody waits. -/
def empty : ConditionVariable T := ⟨∅, ∅⟩

/-- `t` goes to sleep. -/
def sleep (c : ConditionVariable T) (t : T) : ConditionVariable T :=
  { c with asleep := insert t c.asleep }

/-- `u` is unblocked, by a notification or spuriously. -/
def wake (c : ConditionVariable T) (u : T) : ConditionVariable T :=
  ⟨c.asleep.erase u, insert u c.woken⟩

/-- `t` has the mutex again and leaves `wait`. -/
def leave (c : ConditionVariable T) (t : T) : ConditionVariable T :=
  { c with woken := c.woken.erase t }

/-- `t` is inside `wait`. -/
def Waiting (c : ConditionVariable T) (t : T) : Prop := t ∈ c.asleep ∨ t ∈ c.woken

variable {c : ConditionVariable T} {t u : T} {n k : ℕ}

theorem waiting_sleep : (c.sleep t).Waiting u ↔ u = t ∨ c.Waiting u := by
  simp [sleep, Waiting, or_assoc]

theorem waiting_sleep_of_ne (hu : u ≠ t) : (c.sleep t).Waiting u ↔ c.Waiting u := by
  simp [waiting_sleep, hu]

theorem waiting_wake (ht : t ∈ c.asleep) : (c.wake t).Waiting u ↔ c.Waiting u := by
  by_cases hu : u = t
  · subst hu
    simp [wake, Waiting, ht]
  · simp [wake, Waiting, hu]

theorem waiting_leave_of_ne (hu : u ≠ t) : (c.leave t).Waiting u ↔ c.Waiting u := by
  simp [leave, Waiting, hu]

theorem not_waiting_leave (hd : Disjoint c.asleep c.woken) (ht : t ∈ c.woken) :
    ¬ (c.leave t).Waiting t := by
  rintro (h | h)
  · exact Finset.disjoint_left.mp hd h ht
  · exact Finset.notMem_erase t c.woken h

/-! ### Nobody is asleep and woken at once -/

theorem disjoint_sleep (hd : Disjoint c.asleep c.woken) (ht : ¬ c.Waiting t) :
    Disjoint (c.sleep t).asleep (c.sleep t).woken := by
  show Disjoint (insert t c.asleep) c.woken
  rw [Finset.disjoint_insert_left]
  exact ⟨fun h => ht (.inr h), hd⟩

theorem disjoint_wake (hd : Disjoint c.asleep c.woken) :
    Disjoint (c.wake t).asleep (c.wake t).woken := by
  show Disjoint (c.asleep.erase t) (insert t c.woken)
  rw [Finset.disjoint_insert_right]
  exact ⟨Finset.notMem_erase t c.asleep, hd.mono_left (Finset.erase_subset t c.asleep)⟩

theorem disjoint_leave (hd : Disjoint c.asleep c.woken) :
    Disjoint (c.leave t).asleep (c.leave t).woken :=
  hd.mono_right (Finset.erase_subset t c.woken)

/-! ### No lost wake-up -/

/-- If anyone is asleep, at least `n` threads are woken and on their way. -/
def Covered (c : ConditionVariable T) (n : ℕ) : Prop := c.asleep.Nonempty → n ≤ c.woken.card

instance : Decidable (c.Covered n) :=
  inferInstanceAs (Decidable (c.asleep.Nonempty → n ≤ c.woken.card))

omit [DecidableEq T] in
theorem covered_zero : c.Covered 0 := fun _ => Nat.zero_le _

omit [DecidableEq T] in
theorem covered_of_asleep_eq_empty (h : c.asleep = ∅) : c.Covered n := by
  intro hne
  rw [h] at hne
  exact absurd hne Finset.not_nonempty_empty

omit [DecidableEq T] in
theorem Covered.mono (h : c.Covered n) (hk : k ≤ n) : c.Covered k := fun hne => hk.trans (h hne)

theorem card_woken_wake (hd : Disjoint c.asleep c.woken) (ht : t ∈ c.asleep) :
    (c.wake t).woken.card = c.woken.card + 1 :=
  Finset.card_insert_of_notMem (Finset.disjoint_left.mp hd ht)

/-- A notification that finds a sleeper pays for one more item. -/
theorem Covered.notify (h : c.Covered n) (hd : Disjoint c.asleep c.woken) (ht : t ∈ c.asleep) :
    (c.wake t).Covered (n + 1) := by
  intro _
  rw [card_woken_wake hd ht]
  exact Nat.succ_le_succ (h ⟨t, ht⟩)

/-- A spurious wake-up does no harm. -/
theorem Covered.wake (h : c.Covered n) (hd : Disjoint c.asleep c.woken) (ht : t ∈ c.asleep) :
    (c.wake t).Covered n :=
  (h.notify hd ht).mono (Nat.le_succ n)

/-- A thread that leaves takes one of the woken ones away. -/
theorem Covered.leave (h : c.Covered n) (ht : t ∈ c.woken) : (c.leave t).Covered (n - 1) := by
  intro hne
  have hn := h hne
  show n - 1 ≤ (c.woken.erase t).card
  rw [Finset.card_erase_of_mem ht]
  omega

end ConditionVariable
