import ConcurrencyInAction.Lib.MemoryModel
import Mathlib.Data.Int.Notation

/-!
# `release_sequence_example`: the code

The two threads of `main`, as the actions on memory that their statements make.

* `next`: the statements of `producer` and of `consumer`; the value that a read returns is any one;
* `IsExecution`: the executions of the program, complete or not;
* `producer_action`, `consumer_action`: **what each event is**.

The consumer stops when its assertion fails, and reads `data` once more to print it when it holds.
-/

namespace ConcurrencyInAction.ReleaseSequenceExample

open MemoryModel

inductive Location where
  | atomicVar
  | data
  deriving DecidableEq

/-- `t1` and `t2`. -/
inductive Thread where
  | producer
  | consumer
  deriving DecidableEq

/-- The statement that a thread is at. -/
inductive Point where
  | writeData
  | storeRelease
  | fetchAdd
  | storeRelaxed
  | wait
  | assertion
  | print
  | finished
  deriving DecidableEq

def Thread.start : Thread → Point
  | .producer => .writeData
  | .consumer => .wait

/-- The statements of both functions. -/
def next : Point → Action Location ℤ → Option Point
  | .writeData, .write .data v => if v = 42 then some .storeRelease else none
  | .storeRelease, .store .release .atomicVar v => if v = 1 then some .fetchAdd else none
  | .fetchAdd, .update .relaxed .atomicVar v w => if w = v + 1 then some .storeRelaxed else none
  | .storeRelaxed, .store .relaxed .atomicVar v => if v = 2 then some .finished else none
  | .wait, .load .acquire .atomicVar v => some (if v < 1 then .wait else .assertion)
  | .assertion, .read .data v => some (if v = 42 then .print else .finished)
  | .print, .read .data _ => some .finished
  | _, _ => none

/-- The executions of the program. -/
structure IsExecution (G : Execution Thread Location ℤ) : Prop where
  initially : ∀ x, G.initially x = 0
  follows : ∀ t, Follows next t.start (G.actions t)

/-! ### The events -/

/-- The statements of the producer by their number. -/
def Producer (i : ℕ) (act : Action Location ℤ) : Prop :=
  (i = 0 ∧ act = .write .data 42) ∨ (i = 1 ∧ act = .store .release .atomicVar 1) ∨
    (i = 2 ∧ ∃ v, act = .update .relaxed .atomicVar v (v + 1)) ∨
    (i = 3 ∧ act = .store .relaxed .atomicVar 2)

/-- How many statements the producer has behind it. -/
def Point.behind : Point → Option ℕ
  | .writeData => some 0
  | .storeRelease => some 1
  | .fetchAdd => some 2
  | .storeRelaxed => some 3
  | .finished => some 4
  | .wait | .assertion | .print => none

theorem producer_step {i : ℕ} {l l' : Point} {act : Action Location ℤ} (hi : l.behind = some i)
    (h : next l act = some l') : Producer i act ∧ l'.behind = some (i + 1) := by
  unfold next at h
  split at h
  · obtain ⟨hv, hl⟩ := Option.ite_none_right_eq_some.mp h
    cases hl
    cases hi
    exact ⟨.inl ⟨rfl, by rw [hv]⟩, rfl⟩
  · obtain ⟨hv, hl⟩ := Option.ite_none_right_eq_some.mp h
    cases hl
    cases hi
    exact ⟨.inr (.inl ⟨rfl, by rw [hv]⟩), rfl⟩
  · obtain ⟨hw, hl⟩ := Option.ite_none_right_eq_some.mp h
    cases hl
    cases hi
    exact ⟨.inr (.inr (.inl ⟨rfl, _, by rw [hw]⟩)), rfl⟩
  · obtain ⟨hv, hl⟩ := Option.ite_none_right_eq_some.mp h
    cases hl
    cases hi
    exact ⟨.inr (.inr (.inr ⟨rfl, by rw [hv]⟩)), rfl⟩
  · cases hi
  · cases hi
  · cases hi
  · cases h

variable {G : Execution Thread Location ℤ} {i : ℕ} {act : Action Location ℤ}

/-- **The producer.** -/
theorem IsExecution.producer_action (hG : IsExecution G)
    (h : G.action (.nth .producer i) = some act) : Producer i act := by
  obtain ⟨l, l', hl, hnext⟩ := (hG.follows .producer).before _ _
    (fun i l => l.behind = some i) rfl
    (fun i l act l' hl _ hnext => (producer_step hl hnext).2) i act h
  exact (producer_step hl hnext).1

/-- The loop of the consumer has ended before the place `i`, with a load of what is not less
than 1. -/
def Ended (G : Execution Thread Location ℤ) (i : ℕ) : Prop :=
  ∃ j < i, ∃ v, 1 ≤ v ∧ G.action (.nth .consumer j) = some (.load .acquire .atomicVar v)

theorem Ended.mono {j : ℕ} (h : Ended G i) (hij : i ≤ j) : Ended G j := by
  obtain ⟨k, hk, hrest⟩ := h
  exact ⟨k, Nat.lt_of_lt_of_le hk hij, hrest⟩

/-- The consumer is in its loop, or behind it. -/
def Point.Consumes (G : Execution Thread Location ℤ) (i : ℕ) : Point → Prop
  | .wait => ¬ Ended G i
  | .assertion | .print | .finished => Ended G i
  | .writeData | .storeRelease | .fetchAdd | .storeRelaxed => False

/-- What the consumer does at the place `i`. -/
def Consumer (G : Execution Thread Location ℤ) (i : ℕ) (act : Action Location ℤ) : Prop :=
  (∃ v, act = .load .acquire .atomicVar v ∧ ¬ Ended G i) ∨
    (∃ v, act = .read .data v ∧ Ended G i)

theorem consumer_step {l l' : Point} (hi : l.Consumes G i)
    (hact : G.action (.nth .consumer i) = some act) (h : next l act = some l') :
    Consumer G i act ∧ l'.Consumes G (i + 1) := by
  unfold next at h
  split at h
  · exact hi.elim
  · exact hi.elim
  · exact hi.elim
  · exact hi.elim
  · rename_i v
    refine ⟨.inl ⟨v, rfl, hi⟩, ?_⟩
    by_cases hv : v < 1
    · rw [if_pos hv] at h
      cases h
      -- the loop goes on
      intro hended
      obtain ⟨j, hj, w, hw, hload⟩ := hended
      rcases Nat.lt_succ_iff_lt_or_eq.mp hj with hlt | heq
      · exact hi ⟨j, hlt, w, hw, hload⟩
      · subst heq
        cases hact.symm.trans hload
        omega
    · rw [if_neg hv] at h
      cases h
      exact ⟨i, Nat.lt_succ_self i, v, by omega, hact⟩
  · rename_i v
    refine ⟨.inr ⟨v, rfl, hi⟩, ?_⟩
    have hnext := hi.mono (Nat.le_succ i)
    by_cases hv : v = 42
    · rw [if_pos hv] at h
      cases h
      exact hnext
    · rw [if_neg hv] at h
      cases h
      exact hnext
  · rename_i v
    cases h
    exact ⟨.inr ⟨v, rfl, hi⟩, hi.mono (Nat.le_succ i)⟩
  · cases h

/-- **The consumer.** -/
theorem IsExecution.consumer_action (hG : IsExecution G)
    (h : G.action (.nth .consumer i) = some act) : Consumer G i act := by
  have hstart : ¬ Ended G 0 := by
    intro hended
    obtain ⟨j, hj, -⟩ := hended
    exact absurd hj (Nat.not_lt_zero j)
  obtain ⟨l, l', hl, hnext⟩ := (hG.follows .consumer).before _ _
    (fun i l => l.Consumes G i) hstart
    (fun i l act l' hl hact hnext => (consumer_step hl hact hnext).2) i act h
  exact (consumer_step hl h hnext).1

end ConcurrencyInAction.ReleaseSequenceExample
