import ConcurrencyInAction.AtomicCounter.Model
import ConcurrencyInAction.Lib.Accounting
import Mathlib.Algebra.BigOperators.Ring.Finset
import Mathlib.Algebra.Ring.Int.Defs

/-!
# No lost increment

* `Assertion`: where a call is about to exchange, `desired` is `expected + 1`; the history has one
  success of a call that has returned, and none of any other;
* `increment_step`: a step changes the counter by as much as it changes the share of its call;
* `no_lost_increment`: the counter is the initial value plus the number of successful calls.
-/

namespace ConcurrencyInAction.AtomicCounter

open Interleaving

variable {T A : Type*} [DecidableEq T]

/-- What is true of a call at every point. -/
structure Assertion [Add A] [One A] (t : T) (g : Shared T A) (l : Point A) : Prop where
  desired_eq : ∀ {expected desired : A}, l = .exchange expected desired → desired = expected + 1
  succeeded_of_returned : l = .returned → g.history.count (.succeeded t) = 1
  not_succeeded : l ≠ .returned → .succeeded t ∉ g.history

/-- The other calls do not record a success of the call. -/
def Rely (u : T) (g g' : Shared T A) : Prop :=
  g'.history.count (.succeeded u) = g.history.count (.succeeded u)

/-- What a call has added to the counter. -/
def share [Zero A] [One A] : Point A → A
  | .returned => 1
  | _ => 0

section Steps

variable [Add A] [One A] {t u : T} {c : Choice} {g g' : Shared T A} {l l' : Point A}

theorem Assertion.init (c₀ : A) (t : T) :
    Assertion t (initial c₀ : Config T (Shared T A) (Point A)).shared .load where
  desired_eq h := nomatch h
  succeeded_of_returned h := nomatch h
  not_succeeded _ := List.not_mem_nil

theorem Assertion.stable (hr : Rely u g g') (h : Assertion u g l) : Assertion u g' l where
  desired_eq := h.desired_eq
  succeeded_of_returned hl := hr.trans (h.succeeded_of_returned hl)
  not_succeeded hl := by
    rw [← List.count_eq_zero, hr, List.count_eq_zero]
    exact h.not_succeeded hl

omit [Add A] [One A] in
theorem rely_cons {e : Event T} (he : e ≠ .succeeded u) (hg : g'.history = e :: g.history) :
    Rely u g g' := by
  rw [Rely, hg, List.count_cons_of_ne he]

/-- Every step keeps the assertion of its call, and the other calls rely on it. -/
theorem Assertion.step (h : Assertion t g l) (hstep : Step t g l c g' l') :
    Assertion t g' l' ∧ ∀ u, u ≠ t → Rely u g g' := by
  -- it is enough that the step records nothing but its own failures and loads
  have hquiet : ∀ {e : Event T} {l' : Point A}, (∀ u, e ≠ .succeeded u) → l ≠ .returned →
      l' ≠ .returned → (∀ {x y : A}, l' = .exchange x y → y = x + 1) →
      Assertion t (g.record e) l' ∧ ∀ u, u ≠ t → Rely u g (g.record e) := by
    intro e l' he hl hl' hdesired
    refine ⟨⟨hdesired, fun hr => absurd hr hl', fun _ => ?_⟩, fun u _ => rely_cons (he u) rfl⟩
    show Event.succeeded t ∉ e :: g.history
    rw [List.mem_cons, not_or]
    exact ⟨(he t).symm, h.not_succeeded hl⟩
  cases hstep with
  | loads => exact hquiet nofun nofun nofun nofun
  | fails desired hne => exact hquiet nofun nofun nofun nofun
  | failsSpuriously desired => exact hquiet nofun nofun nofun nofun
  | computes expected =>
    refine ⟨⟨?_, nofun, fun _ => h.not_succeeded nofun⟩, fun u _ => rfl⟩
    intro x y hxy
    cases hxy
    rfl
  | recomputes expected desired =>
    refine ⟨⟨?_, nofun, fun _ => h.not_succeeded nofun⟩, fun u _ => rfl⟩
    intro x y hxy
    cases hxy
    rfl
  | succeeds desired =>
    have hnot := h.not_succeeded nofun
    refine ⟨⟨nofun, fun _ => ?_, fun hl => absurd rfl hl⟩, fun u hu => ?_⟩
    · show (Event.succeeded t :: g.history).count (.succeeded t) = 1
      rw [List.count_cons_self, List.count_eq_zero.mpr hnot]
    · apply rely_cons (e := .succeeded t) _ rfl
      intro he
      cases he
      exact hu rfl

end Steps

section Runs

variable [Add A] [One A] [DecidableEq A] {c₀ : A} {s : Config T (Shared T A) (Point A)}

theorem reachable_assertion (hs : Reachable program anyStep (initial c₀) s) (t : T) :
    Assertion t s.shared (s.locals t) := by
  have h : RelyGuarantee (program (T := T) (A := A)) anyStep (fun _ => True) Assertion Rely :=
    { stable := fun _ _ _ _ hr h => h.stable hr
      step := fun s t c g l _ hP _ hp => ⟨trivial, (hP t).step (step_of_program hp)⟩ }
  exact (hs.rely_guarantee h ⟨trivial, Assertion.init c₀⟩).2 t

/-- No call gets through more than once. -/
theorem count_succeeded_le_one (hs : Reachable program anyStep (initial c₀) s) (t : T) :
    s.shared.history.count (.succeeded t) ≤ 1 := by
  have ht := reachable_assertion hs t
  by_cases hl : s.locals t = .returned
  · rw [ht.succeeded_of_returned hl]
  · rw [List.count_eq_zero.mpr (ht.not_succeeded hl)]
    exact Nat.zero_le 1

end Runs

section Counter

variable [AddCommGroupWithOne A] [DecidableEq A] {c₀ : A} {s : Config T (Shared T A) (Point A)}

omit [DecidableEq A] in
/-- **A step changes the counter by as much as the share of its call.** -/
theorem increment_step {t : T} {c : Choice} {g g' : Shared T A} {l l' : Point A}
    (h : Assertion t g l) (hstep : Step t g l c g' l') :
    g'.counter - g.counter = share l' - share l := by
  cases hstep with
  | loads => exact (sub_self _).trans (sub_self _).symm
  | computes expected => exact (sub_self _).trans (sub_self _).symm
  | fails desired hne => exact (sub_self _).trans (sub_self _).symm
  | failsSpuriously desired => exact (sub_self _).trans (sub_self _).symm
  | recomputes expected desired => exact (sub_self _).trans (sub_self _).symm
  | succeeds desired =>
    show desired - g.counter = 1 - 0
    rw [h.desired_eq rfl, add_sub_cancel_left, sub_zero]

theorem sum_share [Fintype T] (hs : Reachable program anyStep (initial c₀) s) :
    ∑ t, share (s.locals t) =
      ((Finset.univ.filter fun t => .succeeded t ∈ s.shared.history).card : A) := by
  rw [Finset.natCast_card_filter]
  apply Finset.sum_congr rfl
  intro t _
  have ht := reachable_assertion hs t
  by_cases hl : s.locals t = .returned
  · have hmem : Event.succeeded t ∈ s.shared.history := by
      rw [← List.one_le_count_iff, ht.succeeded_of_returned hl]
    rw [hl, if_pos hmem]
    rfl
  · rw [if_neg (ht.not_succeeded hl)]
    generalize s.locals t = l at hl
    cases l with
    | returned => exact absurd rfl hl
    | load | compute _ | exchange _ _ | recompute _ _ => rfl

/-- **No lost increment.** -/
theorem no_lost_increment [Fintype T] (hs : Reachable program anyStep (initial c₀) s) :
    s.shared.counter =
        c₀ + (Finset.univ.filter fun t => .succeeded t ∈ s.shared.history).card ∧
      (∀ t, s.shared.history.count (.succeeded t) ≤ 1) ∧
      ((∀ t, s.locals t = .returned) → s.shared.counter = c₀ + Fintype.card T) := by
  have hsum := hs.accounts (·.counter) (fun _ => share) (fun s t c g l hr _ hp =>
    increment_step (reachable_assertion hr t) (step_of_program hp))
  have hzero : ∑ t : T, share ((initial c₀ : Config T (Shared T A) (Point A)).locals t) = 0 :=
    Finset.sum_const_zero
  rw [hzero, sub_zero, sub_eq_iff_eq_add'] at hsum
  refine ⟨?_, count_succeeded_le_one hs, fun hall => ?_⟩
  · rw [hsum, sum_share hs]
    rfl
  · rw [hsum]
    have hone : ∑ t, share (s.locals t) = ∑ _t : T, (1 : A) := by
      apply Finset.sum_congr rfl
      intro t _
      rw [hall t]
      rfl
    rw [hone, Finset.sum_const, Finset.card_univ, nsmul_one]
    rfl

end Counter

/-- Two calls: the second one fails spuriously once, and once more because the first one came
between. -/
def contendedRun : List (Bool × Choice) :=
  [(false, .run), (true, .run), (false, .run), (true, .run), (true, .spurious), (true, .run),
    (false, .run), (true, .run), (true, .run), (true, .run)]

theorem no_lost_increment_contendedRun :
    (((initial (5 : ℤ)).run program contendedRun).get (by decide)).shared.counter = 5 + 2 := by
  have hr := Reachable.of_run_any contendedRun
    (Option.some_get (x := (initial (5 : ℤ)).run program contendedRun) (by decide)).symm
  exact (no_lost_increment hr).2.2 (by decide)

end ConcurrencyInAction.AtomicCounter
