import ConcurrencyInAction.Lib.Interleaving
import Mathlib.Algebra.BigOperators.Group.Finset.Basic
import Mathlib.Algebra.Order.BigOperators.Group.Finset
import Mathlib.Data.Fintype.BigOperators
import Mathlib.Data.List.Count

/-!
# Accounts

A shared value to which finitely many threads contribute.

* `sum_update_sub`: what the sum over all threads gains when one of them moves;
* `Reachable.accounts`: **the rule of accounts**.  If every step changes the value by as much as it
  changes the share of the thread that takes it, the value is the sum of the shares;
* `sum_count_filterMap`: a history is what each thread has contributed to it;
* `sum_charges_le`: **the rule of charges**.  Threads that charge one another in one direction only
  make at most one charge for every two threads.
-/

namespace Interleaving

variable {T C G L A : Type*} [Fintype T] [DecidableEq T] [AddCommGroup A]

theorem sum_update_sub (share : T → L → A) (locals : T → L) (t : T) (l : L) :
    ∑ u, share u (Function.update locals t l u) - ∑ u, share u (locals u) =
      share t l - share t (locals t) := by
  rw [← Finset.sum_sub_distrib]
  rw [Finset.sum_eq_single_of_mem t (Finset.mem_univ t)]
  · rw [Function.update_self]
  · intro u _ hu
    rw [Function.update_of_ne hu, sub_self]

/-- **The rule of accounts.** -/
theorem Reachable.accounts {p : Program T C G L} {ok : Config T G L → T → C → Prop}
    {s₀ s : Config T G L} (value : G → A) (share : T → L → A)
    (hstep : ∀ s t c g l, Reachable p ok s₀ s → ok s t c →
      p t c s.shared (s.locals t) = some (g, l) →
      value g - value s.shared = share t l - share t (s.locals t))
    (hs : Reachable p ok s₀ s) :
    value s.shared - value s₀.shared = ∑ t, share t (s.locals t) - ∑ t, share t (s₀.locals t) := by
  apply hs.invariant (I := fun s => value s.shared - value s₀.shared =
    ∑ t, share t (s.locals t) - ∑ t, share t (s₀.locals t))
  · rw [sub_self, sub_self]
  · intro s t c g l hr hI hok hp
    have hmoved := hstep s t c g l hr hok hp
    rw [← sum_update_sub share s.locals t l] at hmoved
    calc value g - value s₀.shared
        = (value g - value s.shared) + (value s.shared - value s₀.shared) := by
          rw [sub_add_sub_cancel]
      _ = _ := by rw [hmoved, hI, sub_add_sub_cancel]

omit [DecidableEq T] in
/-- The charges made by all threads are those made to all threads. -/
theorem sum_charges_comm (charges : T → T → Prop) [∀ t u, Decidable (charges t u)] :
    ∑ t, (Finset.univ.filter fun u => charges t u).card =
      ∑ t, (Finset.univ.filter fun u => charges u t).card := by
  simp only [Finset.card_filter]
  exact Finset.sum_comm

/-- **The rule of charges.** -/
theorem sum_charges_le (charges : T → T → Prop) [∀ t u, Decidable (charges t u)]
    (hasymm : ∀ t u, charges t u → ¬ charges u t) :
    ∑ t, (Finset.univ.filter fun u => charges u t).card ≤
      Fintype.card T * (Fintype.card T - 1) / 2 := by
  rw [Nat.le_div_iff_mul_le Nat.two_pos, Nat.mul_two]
  nth_rewrite 1 [← sum_charges_comm]
  rw [← Finset.sum_add_distrib]
  apply Finset.sum_le_card_nsmul Finset.univ _ (Fintype.card T - 1)
  intro t _
  -- those that a thread charges and those that charge it are different, and other threads
  have hdisjoint : Disjoint (Finset.univ.filter fun u => charges t u)
      (Finset.univ.filter fun u => charges u t) := by
    rw [Finset.disjoint_filter]
    exact fun u _ => hasymm t u
  rw [← Finset.card_union_of_disjoint hdisjoint, ← Finset.card_univ,
    ← Finset.card_erase_of_mem (Finset.mem_univ t)]
  apply Finset.card_le_card
  intro u hu
  rw [Finset.mem_erase]
  refine ⟨fun he => ?_, Finset.mem_univ u⟩
  subst he
  rw [Finset.mem_union, Finset.mem_filter, Finset.mem_filter, or_self] at hu
  exact hasymm u u hu.2 hu.2

/-- A history with the threads that made its entries: what all threads contributed is what each of
them did. -/
theorem sum_count_filterMap {E V : Type*} [DecidableEq V] (f : E → Option V) (v : V)
    (es : List (T × E)) :
    ∑ t, (es.filterMap fun e => if e.1 = t then f e.2 else none).count v =
      (es.filterMap fun e => f e.2).count v := by
  induction es with
  | nil => exact Finset.sum_const_zero
  | cons e es ih =>
    have hone : ∀ t, ((e :: es).filterMap fun e => if e.1 = t then f e.2 else none).count v =
        (if e.1 = t then (f e.2).toList.count v else 0) +
          (es.filterMap fun e => if e.1 = t then f e.2 else none).count v := by
      intro t
      rw [List.filterMap_cons]
      by_cases ht : e.1 = t
      · rw [if_pos ht, if_pos ht]
        cases f e.2 with
        | none => exact (Nat.zero_add _).symm
        | some w =>
          show ([w] ++ _).count v = _
          exact List.count_append
      · rw [if_neg ht, if_neg ht]
        exact (Nat.zero_add _).symm
    rw [Finset.sum_congr rfl fun t _ => hone t, Finset.sum_add_distrib, ih,
      Finset.sum_ite_eq, if_pos (Finset.mem_univ _), List.filterMap_cons]
    cases f e.2 with
    | none => exact Nat.zero_add _
    | some w =>
      show _ = ([w] ++ _).count v
      exact List.count_append.symm

end Interleaving
