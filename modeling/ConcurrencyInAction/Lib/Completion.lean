import ConcurrencyInAction.Lib.Interleaving
import Mathlib.Algebra.Order.BigOperators.Group.Finset

/-!
# Completion

Any number of threads, of which only finitely many are at work in any one state.

* `Config.Completes p ok done s`: the runs from `s` by steps that satisfy `ok` are bounded, and one
  that cannot be continued has come to `done`; `Config.Completes.exists_run`: there is such a run;
* `Reachable.exists_moved`: finitely many threads have moved;
* `Config.sum_lt_of_pays`: a step that makes the others do something again, and pays for it;
* `Config.completes_of_measure`, `Config.completes_of_potential`, `Config.completes_of_work`: **the
  rules of completion**.  Each step brings a measure of the system down; or the work of its thread
  and a potential of what is shared; or the threads of a finite set do all the steps, and each step
  leaves its thread less work;
* `Reachable.completes`: the same for any number of threads that have nothing to do at the start.
-/

namespace Interleaving

variable {T C G L : Type*} [DecidableEq T]

namespace Config

variable {p : Program T C G L} {ok : Config T G L → T → C → Prop} {done : Config T G L → Prop}

/-- The runs by steps that satisfy `ok` are bounded, and go on until `done`. -/
def Completes (p : Program T C G L) (ok : Config T G L → T → C → Prop)
    (done : Config T G L → Prop) (s : Config T G L) : Prop :=
  ∃ bound : ℕ, ∀ (as : List (T × C)) (s' : Config T G L), s.AllSteps p ok as →
    s.run p as = some s' → as.length ≤ bound ∧
      (done s' ∨ ∃ t c s'', ok s' t c ∧ s'.step p t c = some s'')

/-- Some run comes to `done`. -/
theorem Completes.exists_run {s : Config T G L} (h : Completes p ok done s) :
    ∃ as s', s.AllSteps p ok as ∧ s.run p as = some s' ∧ done s' := by
  obtain ⟨bound, hbound⟩ := h
  induction bound generalizing s with
  | zero =>
    obtain ⟨-, hdone | ⟨t, c, s₁, hok, hstep⟩⟩ := hbound [] s trivial rfl
    · exact ⟨[], s, trivial, rfl, hdone⟩
    · have hrun : s.run p [(t, c)] = some s₁ := run_cons_eq_some.mpr ⟨s₁, hstep, rfl⟩
      have hlong := (hbound [(t, c)] s₁ ⟨hok, fun _ _ => trivial⟩ hrun).1
      exact absurd hlong (Nat.not_succ_le_zero 0)
  | succ bound ih =>
    obtain ⟨-, hdone | ⟨t, c, s₁, hok, hstep⟩⟩ := hbound [] s trivial rfl
    · exact ⟨[], s, trivial, rfl, hdone⟩
    · -- what follows the step is shorter by one
      have hcons : ∀ as, s₁.AllSteps p ok as → s.AllSteps p ok ((t, c) :: as) := by
        intro as hall
        refine ⟨hok, fun s' hs' => ?_⟩
        rw [Option.some.inj (hs'.symm.trans hstep)]
        exact hall
      obtain ⟨as, s', hall, hrun, hdone⟩ := ih fun as s' hall hrun => by
        obtain ⟨hlen, hnext⟩ :=
          hbound ((t, c) :: as) s' (hcons as hall) (run_cons_eq_some.mpr ⟨s₁, hstep, hrun⟩)
        exact ⟨Nat.le_of_succ_le_succ hlen, hnext⟩
      exact ⟨(t, c) :: as, s', hcons as hall, run_cons_eq_some.mpr ⟨s₁, hstep, hrun⟩, hdone⟩

/-- A thread of the set that has less work left takes the sum down. -/
theorem sum_work_lt {F : Finset T} {work : L → ℕ} {s s' : Config T G L} {t : T} {c : C}
    (hstep : s.step p t c = some s') (ht : t ∈ F)
    (hlt : work (s'.locals t) < work (s.locals t)) :
    ∑ u ∈ F, work (s'.locals u) < ∑ u ∈ F, work (s.locals u) := by
  refine Finset.sum_lt_sum (fun u _ => ?_) ⟨t, ht, hlt⟩
  by_cases hu : t = u
  · subst hu
    exact hlt.le
  · obtain ⟨l, -, -, hother⟩ := step_focus u hstep
    rw [hother hu]

/-- **The rule of completion**, for a measure of the whole system. -/
theorem completes_of_measure {I : Config T G L → Prop} (μ : Config T G L → ℕ)
    (hstep : ∀ s t c s', I s → ok s t c → s.step p t c = some s' → I s' ∧ μ s' < μ s)
    (hready : ∀ s, I s → ¬ done s → ∃ t c s', ok s t c ∧ s.step p t c = some s')
    {s : Config T G L} (hs : I s) : Completes p ok done s := by
  refine ⟨μ s, fun as s' hall hrun => ?_⟩
  obtain ⟨hs', hle⟩ := run_spec μ hstep as s s' hs hall hrun
  refine ⟨by omega, ?_⟩
  by_cases hdone : done s'
  · exact .inl hdone
  · exact .inr (hready s' hs' hdone)

/-- What the sum over all threads gains when one of them moves. -/
theorem sum_work_update [Fintype T] (work : L → ℕ) (locals : T → L) (t : T) (l : L) :
    ∑ u, work (Function.update locals t l u) + work (locals t) = ∑ u, work (locals u) + work l := by
  have hothers : ∑ u ∈ Finset.univ.erase t, work (Function.update locals t l u) =
      ∑ u ∈ Finset.univ.erase t, work (locals u) :=
    Finset.sum_congr rfl fun u hu => by rw [Function.update_of_ne (Finset.ne_of_mem_erase hu)]
  rw [← Finset.add_sum_erase _ _ (Finset.mem_univ t), hothers, Function.update_self,
    ← Finset.add_sum_erase (a := t) _ (fun u => work (locals u)) (Finset.mem_univ t)]
  omega

/-- A thread that pays for what its step makes the others do again. -/
theorem sum_lt_of_pays [Fintype T] {work work' : L → ℕ} (locals : T → L) (t : T) (l : L) (k : ℕ)
    (hothers : ∀ l, work' l ≤ work l + k)
    (hpays : work' l + k * Fintype.card T < work (locals t)) :
    ∑ u, work' (Function.update locals t l u) < ∑ u, work (locals u) := by
  have hrest : ∑ u ∈ Finset.univ.erase t, work' (Function.update locals t l u) ≤
      ∑ u ∈ Finset.univ.erase t, work (locals u) + k * Fintype.card T := by
    calc ∑ u ∈ Finset.univ.erase t, work' (Function.update locals t l u)
        ≤ ∑ u ∈ Finset.univ.erase t, (work (locals u) + k) := by
          refine Finset.sum_le_sum fun u hu => ?_
          rw [Function.update_of_ne (Finset.ne_of_mem_erase hu)]
          exact hothers (locals u)
      _ = ∑ u ∈ Finset.univ.erase t, work (locals u) + (Finset.univ.erase t).card * k := by
          rw [Finset.sum_add_distrib, Finset.sum_const_nat fun _ _ => rfl]
      _ ≤ ∑ u ∈ Finset.univ.erase t, work (locals u) + k * Fintype.card T := by
          rw [Nat.mul_comm k]
          exact Nat.add_le_add_left (Nat.mul_le_mul_right k (Finset.card_le_univ _)) _
  rw [← Finset.add_sum_erase _ _ (Finset.mem_univ t), Function.update_self,
    ← Finset.add_sum_erase (a := t) _ (fun u => work (locals u)) (Finset.mem_univ t)]
  omega

/-- **The rule of completion**, for the work that is left to each thread and a potential of what
they share. -/
theorem completes_of_potential [Fintype T] {I : Config T G L → Prop} (work : L → ℕ)
    (potential : G → ℕ)
    (hstep : ∀ s t c g l, I s → ok s t c → p t c s.shared (s.locals t) = some (g, l) →
      I ⟨g, Function.update s.locals t l⟩ ∧
        work l + potential g < work (s.locals t) + potential s.shared)
    (hready : ∀ s, I s → ¬ done s → ∃ t c s', ok s t c ∧ s.step p t c = some s')
    {s : Config T G L} (hs : I s) : Completes p ok done s := by
  refine completes_of_measure (fun s => ∑ u, work (s.locals u) + potential s.shared) ?_ hready hs
  intro s t c s' hI hok hst
  obtain ⟨g, l, hp, rfl⟩ := step_eq_some.mp hst
  obtain ⟨hI', hlt⟩ := hstep s t c g l hI hok hp
  have hsum := sum_work_update work s.locals t l
  refine ⟨hI', ?_⟩
  show ∑ u, work (Function.update s.locals t l u) + potential g < _
  omega

/-- **The rule of completion**, for the work that is left to each thread. -/
theorem completes_of_work {I : Config T G L → Prop} (work : L → ℕ) (F : Finset T)
    (hstep : ∀ s t c s', I s → ok s t c → s.step p t c = some s' →
      I s' ∧ t ∈ F ∧ work (s'.locals t) < work (s.locals t))
    (hready : ∀ s, I s → ¬ done s → ∃ t c s', ok s t c ∧ s.step p t c = some s')
    {s : Config T G L} (hs : I s) : Completes p ok done s := by
  refine completes_of_measure (fun s => ∑ u ∈ F, work (s.locals u)) ?_ hready hs
  intro s t c s' hI hok hst
  obtain ⟨hI', ht, hlt⟩ := hstep s t c s' hI hok hst
  exact ⟨hI', sum_work_lt hst ht hlt⟩

end Config

/-- Only finitely many threads have moved. -/
theorem Reachable.exists_moved {p : Program T C G L} {ok : Config T G L → T → C → Prop}
    {s₀ s : Config T G L} (hs : Reachable p ok s₀ s) :
    ∃ F : Finset T, ∀ t, t ∉ F → s.locals t = s₀.locals t := by
  induction hs with
  | init => exact ⟨∅, fun _ _ => rfl⟩
  | @step s s' t c _ _ hst ih =>
    obtain ⟨F, hF⟩ := ih
    refine ⟨insert t F, fun u hu => ?_⟩
    rw [Finset.mem_insert, not_or] at hu
    obtain ⟨l, -, -, hother⟩ := Config.step_focus u hst
    exact (hother (Ne.symm hu.1)).trans (hF u hu.2)

/-- **The rule of completion**, for any number of threads that have nothing to do at the start. -/
theorem Reachable.completes {p : Program T C G L} {ok ok' : Config T G L → T → C → Prop}
    {done : Config T G L → Prop} {s₀ s : Config T G L} (work : L → ℕ)
    (h₀ : ∀ t, work (s₀.locals t) = 0) (hok : ∀ s t c, ok' s t c → ok s t c)
    (hstep : ∀ s t c g l, Reachable p ok s₀ s → ok' s t c →
      p t c s.shared (s.locals t) = some (g, l) → work l < work (s.locals t))
    (hready : ∀ s, Reachable p ok s₀ s → ¬ done s → ∃ t c s', ok' s t c ∧ s.step p t c = some s')
    (hs : Reachable p ok s₀ s) : Config.Completes p ok' done s := by
  obtain ⟨F, hF⟩ := hs.exists_moved
  refine Config.completes_of_work
    (I := fun s => Reachable p ok s₀ s ∧ ∀ t, t ∉ F → work (s.locals t) = 0)
    work F ?_ (fun s hI => hready s hI.1) ⟨hs, fun t ht => by rw [hF t ht, h₀ t]⟩
  intro s t c s' hI hallowed hst
  obtain ⟨hr, hout⟩ := hI
  obtain ⟨l, hp, hself, -⟩ := Config.step_focus t hst
  have hlt := hstep s t c s'.shared l hr hallowed hp
  -- only a thread that has still something to do moves
  have ht : t ∈ F := by
    by_contra hnot
    rw [hout t hnot] at hlt
    exact Nat.not_lt_zero _ hlt
  refine ⟨⟨hr.step (hok s t c hallowed) hst, fun u hu => ?_⟩, ht, by rw [hself rfl]; exact hlt⟩
  obtain ⟨l', -, -, hother⟩ := Config.step_focus u hst
  rw [hother fun he => hu (he ▸ ht)]
  exact hout u hu

end Interleaving
