import ConcurrencyInAction.Lib.Completion
import ConcurrencyInAction.ProtectedList.Linearizable

/-!
# Additions and searches end

* `weight`: the steps that a thread has still to take, with a list of that length.  An addition
  makes the searches that have not begun longer, and pays for that;
* `Step.weight_lt`: every step but a new call is paid for;
* `searches_complete`: **the calls in progress end**, whatever the order of their steps.
-/

namespace ConcurrencyInAction.ProtectedList

open Interleaving ExclusiveLock SequentialSpec

variable {T V : Type*}

/-- The steps that a thread has still to take, for `threads` threads and a list of that length. -/
def weight (threads length : ℕ) : Point V → ℕ
  | .idle | .undefined => 0
  | .addLock _ => 2 * threads + 3
  | .pushBack _ => 2 * threads + 2
  | .containsLock _ => 2 * length + 4
  | .testEnd _ it => 2 * (length - it) + 3
  | .testValue _ it => 2 * (length - it) + 2
  | .compareEnd _ _ => 2
  | .unlock _ => 1

/-- A longer list is two more steps. -/
theorem weight_succ_le (threads length : ℕ) (l : Point V) :
    weight threads (length + 1) l ≤ weight threads length l + 2 := by
  cases l with
  | containsLock | testEnd | testValue =>
    simp only [weight]
    omega
  | _ => exact Nat.le_add_right _ _

/-- No new call. -/
def inProgress (_ : Config T (Shared T V) (Point V)) (_ : T) (c : Choice V) : Prop :=
  c = .run ∨ c = .throws

/-- No call is in progress, and the list is what the calls have made it. -/
structure Settled (contents : List V) (s : Config T (Shared T V) (Point V)) : Prop where
  idle : ∀ t, s.locals t = .idle
  list : s.shared.myList = contents ++ s.shared.history.filterMap Result.addedValue

variable {contents : List V} {t : T} {c : Choice V} {g g' : Shared T V} {l l' : Point V}

/-- **Every step is paid for.** -/
theorem Step.weight_lt (threads : ℕ) (hc : c = .run ∨ c = .throws) (hstep : Step t g c l g' l') :
    ∃ k, (∀ l : Point V, weight threads g'.myList.length l ≤ weight threads g.myList.length l + k) ∧
      weight threads g'.myList.length l' + k * threads < weight threads g.myList.length l := by
  have hquiet : ∀ l : Point V,
      weight threads g.myList.length l ≤ weight threads g.myList.length l + 0 :=
    fun l => Nat.le_refl _
  cases hstep with
  | callsAdd | callsContains => rcases hc with hc | hc <;> exact nomatch hc
  | @pushes v =>
    have hlength : (g.myList ++ [v]).length = g.myList.length + 1 := by
      rw [List.length_append, List.length_singleton]
    refine ⟨2, fun l => ?_, ?_⟩
    · show weight threads (g.myList ++ [v]).length l ≤ _
      rw [hlength]
      exact weight_succ_le threads _ l
    · show 1 + 2 * threads < 2 * threads + 2
      omega
  | @finds v it hvalue =>
    have hlt := (List.getElem?_eq_some_iff.mp hvalue).1
    refine ⟨0, hquiet, ?_⟩
    simp only [weight]
    omega
  | @passes value v it hvalue _ =>
    have hlt := (List.getElem?_eq_some_iff.mp hvalue).1
    refine ⟨0, hquiet, ?_⟩
    simp only [weight]
    omega
  | locksAdd _ | pushThrows | locksContains _ | atEnd | notAtEnd _ | dangles _ | compares
  | unlocks =>
    refine ⟨0, hquiet, ?_⟩
    simp only [weight]
    omega

/-! ### Who can go on -/

section Run

variable [DecidableEq T] [DecidableEq V] {s : Config T (Shared T V) (Point V)}

omit [DecidableEq T] in
/-- Whoever holds the mutex can go on. -/
theorem exists_run_of_holdsMutex (hl : l.HoldsMutex) (hdefined : l ≠ .undefined) :
    ∃ r, program t .run g l = some r := by
  cases l with
  | idle | addLock | containsLock => exact hl.elim
  | undefined => exact absurd rfl hdefined
  | pushBack | compareEnd | unlock => exact ⟨_, rfl⟩
  | testEnd v it =>
    by_cases hend : it = g.myList.length
    · exact ⟨_, if_pos hend⟩
    · exact ⟨_, if_neg hend⟩
  | testValue v it =>
    cases hvalue : g.myList[it]? with
    | none => exact ⟨(g, .undefined), by simp only [program, hvalue]⟩
    | some value =>
      by_cases heq : value = v
      · exact ⟨(g, .compareEnd v it), by simp only [program, hvalue, if_pos heq]⟩
      · exact ⟨(g, .testEnd v (it + 1)), by simp only [program, hvalue, if_neg heq]⟩

/-- While a call is in progress, one of those in progress can take its next step. -/
theorem exists_enabled (hs : Reachable program anyStep (initial contents) s)
    (hbusy : s.locals t ≠ .idle) : ∃ u s', s.step program u .run = some s' := by
  have hdefined := reachable_defined hs
  have hstep : ∀ u, (∃ r, program u .run s.shared (s.locals u) = some r) →
      ∃ u s', s.step program u .run = some s' := by
    intro u hu
    obtain ⟨r, hr⟩ := hu
    exact ⟨u, _, Config.step_eq_some.mpr ⟨r.1, r.2, hr, rfl⟩⟩
  cases hown : s.shared.myMutex with
  | some u =>
    have hin : (s.locals u).HoldsMutex := ((reachable_region hs).2 u).owns.mp hown
    exact hstep u (exists_run_of_holdsMutex hin (hdefined u))
  | none =>
    have hfree : s.shared.myMutex.isNone = true := by rw [hown]; rfl
    cases hl : s.locals t with
    | idle => exact absurd hl hbusy
    | addLock v => exact hstep t (hl ▸ ⟨_, if_pos hfree⟩)
    | containsLock v => exact hstep t (hl ▸ ⟨_, if_pos hfree⟩)
    | pushBack | testEnd | testValue | compareEnd | unlock | undefined =>
      refine hstep t (exists_run_of_holdsMutex ?_ (hdefined t))
      rw [hl]
      trivial

/-- **Additions and searches end.**  From every reachable state, the calls in progress take
boundedly many steps, and cannot stop before all of them have returned or thrown; the list is then
what the calls that have ended have made it. -/
theorem searches_complete [Fintype T] (hs : Reachable program anyStep (initial contents) s) :
    Config.Completes program inProgress (Settled contents) s := by
  refine Config.completes_of_measure (I := Reachable program anyStep (initial contents))
    (fun s => ∑ t, weight (Fintype.card T) s.shared.myList.length (s.locals t)) ?_ ?_ hs
  · intro s t c s' hr hc hstep
    obtain ⟨g, l, hp, rfl⟩ := Config.step_eq_some.mp hstep
    obtain ⟨k, hothers, hpays⟩ := (step_of_program hp).weight_lt (Fintype.card T) hc
    exact ⟨hr.step trivial hstep, Config.sum_lt_of_pays s.locals t l k hothers hpays⟩
  · intro s hr hnot
    have hbusy : ¬ ∀ t, s.locals t = .idle := by
      intro hidle
      have hfree : s.shared.myMutex = none := by
        by_contra hheld
        obtain ⟨u, hu⟩ := Option.ne_none_iff_exists'.mp hheld
        have hin : (s.locals u).HoldsMutex := ((reachable_region hr).2 u).owns.mp hu
        rw [hidle u] at hin
        exact hin
      obtain ⟨q, hlegal, hnow⟩ := exists_legal hr
      exact hnot ⟨hidle, (hnow hfree).trans (contents_of_legal hlegal)⟩
    obtain ⟨t, ht⟩ := not_forall.mp hbusy
    obtain ⟨u, s', hstep⟩ := exists_enabled hr ht
    exact ⟨u, .run, s', .inl rfl, hstep⟩

end Run

/-- A search has to wait for an addition. -/
theorem searches_complete_waitingSearch : ∃ s : Config Bool (Shared Bool ℕ) (Point ℕ),
    (initial [3]).run program
      [(false, .addToList 5), (false, .run), (true, .listContains 5)] = some s ∧
    Config.Completes program inProgress (Settled [3]) s := by
  have hrun : ((initial [3]).run program
      [((false : Bool), .addToList 5), (false, .run), (true, .listContains 5)]).isSome := rfl
  exact ⟨_, (Option.some_get hrun).symm,
    searches_complete (.of_run_any _ (Option.some_get hrun).symm)⟩

end ConcurrencyInAction.ProtectedList
