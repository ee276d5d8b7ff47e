import ConcurrencyInAction.AtomicCounter.Increments
import ConcurrencyInAction.Lib.Component
import ConcurrencyInAction.Lib.Completion
import ConcurrencyInAction.MultithreadCompareExchange.Model
import Mathlib.Data.Fintype.Option

/-!
# What the threads leave behind

* `Progress`, `InThread`: how far the function is, by what it has started and joined, and what a
  thread has done; `relyGuarantee`: every step keeps the assertions;
* `counter_component`: the calls are calls of `increment_with_loop` on one counter;
* `function_outcome`: **when the function returns, every thread has incremented the counter**, and
  none accesses it afterwards; otherwise a thread could not be started.
-/

namespace ConcurrencyInAction.MultithreadCompareExchange

open Interleaving

variable {A : Type*} {n : ℕ}

/-! ### Assertions -/

/-- How far the function is. -/
def Progress (g : Shared n A) : Thread A → Prop
  | .reserve => g.alive = true ∧ g.terminated = false ∧ g.started = 0 ∧ g.joined = 0
  | .emplaceBack i =>
      g.alive = true ∧ g.terminated = false ∧ g.started = i ∧ g.joined = 0 ∧ i ≤ n
  | .join i =>
      g.alive = true ∧ g.terminated = false ∧ g.started = n ∧ g.joined = i ∧ i ≤ n
  | .destroy .returned =>
      g.alive = true ∧ g.terminated = false ∧ g.started = n ∧ g.joined = n
  | .destroy .threw =>
      g.alive = true ∧ g.terminated = false ∧ g.started < n ∧ g.joined = 0
  | .left .returned => g.alive = false ∧ g.terminated = false ∧ g.started = n ∧ g.joined = n
  | .left .threw => g.alive = false ∧ g.terminated = false ∧ g.started = 0 ∧ g.joined = 0
  | .terminated => g.alive = true ∧ g.terminated = true ∧ 0 < g.started ∧ g.started < n
  | .unstarted | .call _ | .finished | .undefined => False

/-- Where a thread is, by what the function has started. -/
structure InThread (i : Fin n) (g : Shared n A) (l : Thread A) : Prop where
  finished_iff : g.finished i = true ↔ l = .finished
  started : l = .unstarted ∨ i < g.started
  point : l = .unstarted ∨ l = .finished ∨ ∃ k, l = .call k

def Assertion (t : Party n) (g : Shared n A) (l : Thread A) : Prop :=
  match t with
  | none => Progress g l
  | some i => InThread i g l

/-- What has been joined has finished, and the counter outlives the threads that were started. -/
structure SharedAssertion (g : Shared n A) : Prop where
  joined : ∀ i : Fin n, i < g.joined → g.finished i = true
  outlives : g.alive = false → g.started ≤ g.joined

/-- The function is not disturbed by its threads, nor are they by one another. -/
def Rely (t : Party n) (g g' : Shared n A) : Prop :=
  match t with
  | none => g'.alive = g.alive ∧ g'.terminated = g.terminated ∧ g'.started = g.started ∧
      g'.joined = g.joined
  | some i => g'.finished i = g.finished i ∧ g.started ≤ g'.started

variable {t u : Party n} {c : Choice} {g g' : Shared n A} {l l' : Thread A} {i : Fin n}

theorem Progress.congr (h : Progress g l) (hr : Rely none g g') : Progress g' l := by
  obtain ⟨halive, hterminated, hstarted, hjoined⟩ := hr
  unfold Progress
  rw [halive, hterminated, hstarted, hjoined]
  exact h

theorem Assertion.stable (hr : Rely u g g') (h : Assertion u g l) : Assertion u g' l := by
  cases u with
  | none => exact Progress.congr h hr
  | some i =>
    obtain ⟨hfinished, hstarted⟩ := hr
    refine ⟨?_, h.started.imp_right fun hi => Nat.lt_of_lt_of_le hi hstarted, h.point⟩
    rw [hfinished]
    exact h.finished_iff

/-- The threads rely on a step of the function. -/
theorem rely_of_statement (hf : g'.finished = g.finished) (hs : g.started ≤ g'.started)
    (hu : u ≠ none) : Rely u g g' := by
  cases u with
  | none => exact absurd rfl hu
  | some i => exact ⟨congrFun hf i, hs⟩

/-- The function and the other threads rely on a step of a thread. -/
theorem rely_of_thread (halive : g'.alive = g.alive) (hterminated : g'.terminated = g.terminated)
    (hstarted : g'.started = g.started) (hjoined : g'.joined = g.joined)
    (hf : ∀ j, j ≠ i → g'.finished j = g.finished j) (hu : u ≠ some i) : Rely u g g' := by
  cases u with
  | none => exact ⟨halive, hterminated, hstarted, hjoined⟩
  | some j => exact ⟨hf j fun he => hu (congrArg some he), hstarted.ge⟩

variable [DecidableEq A] [Add A] [One A]

/-- A step of the function. -/
theorem Progress.step (hS : SharedAssertion g) (h : Progress g l)
    (hstep : Step n g none c l g' l') :
    SharedAssertion g' ∧ Progress g' l' ∧ g'.finished = g.finished ∧ g.started ≤ g'.started := by
  cases hstep with
  | reserves => exact ⟨hS, ⟨h.1, h.2.1, h.2.2.1, h.2.2.2, Nat.zero_le n⟩, rfl, Nat.le_refl _⟩
  | reserveThrows =>
    obtain ⟨halive, hterminated, hstarted, hjoined⟩ := h
    refine ⟨⟨hS.joined, fun _ => ?_⟩, ⟨rfl, hterminated, hstarted, hjoined⟩, rfl, Nat.le_refl _⟩
    show g.started ≤ g.joined
    rw [hstarted]
    exact Nat.zero_le _
  | @starts i hi =>
    obtain ⟨halive, hterminated, hstarted, hjoined, -⟩ := h
    refine ⟨⟨hS.joined, fun hgone => ?_⟩, ⟨halive, hterminated, rfl, hjoined, hi⟩, rfl, ?_⟩
    · exact absurd (halive.symm.trans hgone) Bool.noConfusion
    · show g.started ≤ i + 1
      omega
  | startThrows hi =>
    obtain ⟨halive, hterminated, hstarted, hjoined, -⟩ := h
    exact ⟨hS, ⟨halive, hterminated, hstarted.symm ▸ hi, hjoined⟩, rfl, Nat.le_refl _⟩
  | startedAll hi =>
    obtain ⟨halive, hterminated, hstarted, hjoined, hle⟩ := h
    exact ⟨hS, ⟨halive, hterminated, hstarted.trans (Nat.le_antisymm hle hi), hjoined,
      Nat.zero_le n⟩, rfl, Nat.le_refl _⟩
  | @joins i hi hfinished =>
    obtain ⟨halive, hterminated, hstarted, hjoined, -⟩ := h
    refine ⟨⟨fun j hj => ?_, fun hgone => ?_⟩, ⟨halive, hterminated, hstarted, rfl, hi⟩, rfl,
      Nat.le_refl _⟩
    · rcases Nat.lt_succ_iff_lt_or_eq.mp (show j.val < i + 1 from hj) with hj | hj
      · exact hS.joined j (hjoined.symm ▸ hj)
      · subst hj
        exact hfinished
    · exact absurd (halive.symm.trans hgone) Bool.noConfusion
  | joinedAll hi =>
    obtain ⟨halive, hterminated, hstarted, hjoined, hle⟩ := h
    exact ⟨hS, ⟨halive, hterminated, hstarted, hjoined.trans (Nat.le_antisymm hle hi)⟩, rfl,
      Nat.le_refl _⟩
  | @terminates o hlt =>
    refine ⟨⟨hS.joined, hS.outlives⟩, ?_, rfl, Nat.le_refl _⟩
    cases o with
    | returned =>
      obtain ⟨-, -, hstarted, hjoined⟩ := h
      omega
    | threw =>
      obtain ⟨halive, -, hstarted, hjoined⟩ := h
      exact ⟨halive, rfl, hjoined ▸ hlt, hstarted⟩
  | @leaves o hle =>
    refine ⟨⟨hS.joined, fun _ => hle⟩, ?_, rfl, Nat.le_refl _⟩
    cases o with
    | returned =>
      obtain ⟨-, hterminated, hstarted, hjoined⟩ := h
      exact ⟨rfl, hterminated, hstarted, hjoined⟩
    | threw =>
      obtain ⟨-, hterminated, -, hjoined⟩ := h
      exact ⟨rfl, hterminated, Nat.le_zero.mp (hjoined ▸ hle), hjoined⟩

omit [DecidableEq A] [Add A] [One A] in
/-- While a thread is in its call, the counter exists. -/
theorem InThread.alive {k : AtomicCounter.Point A} (hS : SharedAssertion g)
    (h : InThread i g (.call k)) : g.alive = true := by
  by_contra hgone
  have hle := hS.outlives (Bool.eq_false_iff.mpr hgone)
  rcases h.started with hl | hi
  · exact nomatch hl
  · exact nomatch h.finished_iff.mp (hS.joined i (Nat.lt_of_lt_of_le hi hle))

omit [DecidableEq A] [Add A] [One A] in
/-- A call goes on. -/
theorem InThread.of_call {k k' : AtomicCounter.Point A} (h : InThread i g (.call k))
    (hf : g'.finished = g.finished) (hs : g'.started = g.started) :
    InThread i g' (.call k') where
  finished_iff := by
    rw [hf, h.finished_iff]
    exact iff_of_false nofun nofun
  started := by
    rw [hs]
    exact .inr (h.started.resolve_left nofun)
  point := .inr (.inr ⟨k', rfl⟩)

/-- A step of a thread. -/
theorem InThread.step (hS : SharedAssertion g) (h : InThread i g l)
    (hstep : Step n g (some i) c l g' l') :
    SharedAssertion g' ∧ InThread i g' l' ∧ ∀ u, u ≠ some i → Rely u g g' := by
  cases hstep with
  | begins hi =>
    refine ⟨hS, ⟨?_, .inr hi, .inr (.inr ⟨_, rfl⟩)⟩,
      fun u hu => rely_of_thread rfl rfl rfl rfl (fun _ _ => rfl) hu⟩
    rw [h.finished_iff]
    exact iff_of_false nofun nofun
  | finishes =>
    have hother : ∀ j, j ≠ i → Function.update g.finished i true j = g.finished j :=
      fun j hj => Function.update_of_ne hj _ _
    refine ⟨⟨fun j hj => ?_, hS.outlives⟩,
      ⟨iff_of_true (Function.update_self _ _ _) rfl, .inr (h.started.resolve_left nofun),
        .inr (.inl rfl)⟩, fun u hu => rely_of_thread rfl rfl rfl rfl hother hu⟩
    by_cases hj' : j = i
    · subst hj'
      exact Function.update_self _ _ _
    · exact (hother j hj').trans (hS.joined j hj)
  | calls _ _ =>
    exact ⟨⟨hS.joined, hS.outlives⟩, h.of_call rfl rfl,
      fun u hu => rely_of_thread rfl rfl rfl rfl (fun _ _ => rfl) hu⟩
  | dangles hgone => exact absurd ((h.alive hS).symm.trans hgone) Bool.noConfusion

/-! ### Whole runs -/

section Run

variable {c₀ : A} {s s' : Config (Party n) (Shared n A) (Thread A)}

theorem relyGuarantee : RelyGuarantee (program n (A := A)) anyStep SharedAssertion Assertion
    Rely where
  stable _ _ _ _ hr h := h.stable hr
  step s t c g' l' hS hP _ hp := by
    obtain ⟨-, hstep⟩ := step_of_program hp
    have ht := hP t
    cases t with
    | none =>
      obtain ⟨hS', hprogress, hf, hs⟩ := Progress.step hS ht hstep
      exact ⟨hS', hprogress, fun u hu => rely_of_statement hf hs hu⟩
    | some i => exact InThread.step hS ht hstep

theorem reachable_assertion (hs : Reachable (program n) anyStep (initial n c₀) s) :
    SharedAssertion s.shared ∧ ∀ t, Assertion t s.shared (s.locals t) := by
  refine hs.rely_guarantee relyGuarantee ⟨⟨fun i hi => ?_, fun hgone => ?_⟩, fun t => ?_⟩
  · exact absurd hi (Nat.not_lt_zero _)
  · exact absurd (show true = false from hgone) Bool.noConfusion
  · cases t with
    | none => exact ⟨rfl, rfl, rfl, rfl⟩
    | some i => exact ⟨iff_of_false nofun nofun, .inl rfl, .inl rfl⟩

theorem reachable_progress (hs : Reachable (program n) anyStep (initial n c₀) s) :
    Progress s.shared (s.locals none) := (reachable_assertion hs).2 none

theorem reachable_inThread (hs : Reachable (program n) anyStep (initial n c₀) s) (i : Fin n) :
    InThread i s.shared (s.locals (some i)) := (reachable_assertion hs).2 (some i)

/-- The call of a thread: before it, in it, after it. -/
def Thread.inCall : Thread A → AtomicCounter.Point A
  | .call l => l
  | .finished => .returned
  | _ => .load

/-- **The calls are calls of `increment_with_loop`** on one counter. -/
theorem counter_component : Component (program n) anyStep (initial n c₀)
    (AtomicCounter.program (T := Party n) (A := A)) anyStep (·.counter) Thread.inCall where
  step s t c g l hs _ hp := by
    obtain ⟨hS, hP⟩ := reachable_assertion hs
    obtain ⟨-, hstep⟩ := step_of_program hp
    have ht := hP t
    generalize s.locals t = k at hstep ht
    cases hstep with
    | reserves | reserveThrows | starts _ | startThrows _ | startedAll _ | joins _ _
    | joinedAll _ | terminates _ | leaves _ | begins _ | finishes => exact .inl ⟨rfl, rfl⟩
    | calls _ hcall => exact .inr ⟨_, trivial, hcall⟩
    | dangles hgone =>
      exact absurd ((InThread.alive hS ht).symm.trans hgone) Bool.noConfusion

end Run

/-! ### The counter -/

section Counter

variable {A : Type*} [AddCommGroupWithOne A] [DecidableEq A] {c₀ : A}
  {s : Config (Party n) (Shared n A) (Thread A)}

omit [AddCommGroupWithOne A] [DecidableEq A] in
theorem map_initial : (initial n c₀).map (·.counter) Thread.inCall = AtomicCounter.initial c₀ := by
  refine congrArg (Config.mk _) (funext fun t => ?_)
  cases t <;> rfl

/-- The counter counts the calls that have got through. -/
theorem counter_eq (hs : Reachable (program n) anyStep (initial n c₀) s) :
    s.shared.counter.counter =
      c₀ + ∑ i : Fin n, AtomicCounter.share (s.locals (some i)).inCall := by
  have hr := counter_component.reachable hs
  rw [map_initial] at hr
  have haccounts := hr.accounts (·.counter) (fun _ => AtomicCounter.share)
    fun s t c g l hr _ hp => AtomicCounter.increment_step (AtomicCounter.reachable_assertion hr t)
      (AtomicCounter.step_of_program hp)
  have hzero : ∑ t : Party n,
      AtomicCounter.share ((AtomicCounter.initial c₀ : Config (Party n) _ _).locals t) = 0 :=
    Finset.sum_const_zero
  have hfunction : AtomicCounter.share (s.locals none).inCall = (0 : A) := by
    have hp := reachable_progress hs
    generalize s.locals none = l at hp
    cases l with
    | call l => exact hp.elim
    | finished => exact hp.elim
    | _ => rfl
  rw [hzero, sub_zero, sub_eq_iff_eq_add', Fintype.sum_option] at haccounts
  refine haccounts.trans ?_
  show c₀ + (AtomicCounter.share (s.locals none).inCall + _) = _
  rw [hfunction, zero_add]
  rfl

/-- **When the function returns, every thread has incremented the counter once**, and is finished;
no thread ever accesses the counter that is gone.  The function ends otherwise only if a thread
could not be started: with the exception, if it was the first one, and by termination, if not. -/
theorem function_outcome (hs : Reachable (program n) anyStep (initial n c₀) s) :
    (∀ t, s.locals t ≠ .undefined) ∧
    (s.locals none = .left .returned →
      s.shared.counter.counter = c₀ + n ∧ ∀ i, s.locals (some i) = .finished) ∧
    (s.locals none = .left .threw →
      s.shared.counter.counter = c₀ ∧ ∀ i, s.locals (some i) = .unstarted) ∧
    (s.locals none = .terminated → 0 < s.shared.started ∧ s.shared.started < n) := by
  have hprogress := reachable_progress hs
  have hthread := reachable_inThread hs
  refine ⟨fun t ht => ?_, fun hl => ?_, fun hl => ?_, fun hl => ?_⟩
  · cases t with
    | none =>
      rw [ht] at hprogress
      exact hprogress
    | some i =>
      rcases (hthread i).point with hp | hp | ⟨k, hp⟩ <;> exact nomatch ht.symm.trans hp
  · rw [hl] at hprogress
    obtain ⟨-, -, -, hjoined⟩ := hprogress
    have hfinished : ∀ i, s.locals (some i) = .finished := fun i =>
      (hthread i).finished_iff.mp ((reachable_assertion hs).1.joined i (hjoined.symm ▸ i.isLt))
    refine ⟨?_, hfinished⟩
    have hone : ∑ i : Fin n, AtomicCounter.share (s.locals (some i)).inCall =
        ∑ _i : Fin n, (1 : A) := by
      refine Finset.sum_congr rfl fun i _ => ?_
      rw [hfinished i]
      rfl
    rw [counter_eq hs, hone, Finset.sum_const, Finset.card_univ, Fintype.card_fin, nsmul_one]
  · rw [hl] at hprogress
    obtain ⟨-, -, hstarted, -⟩ := hprogress
    have hunstarted : ∀ i, s.locals (some i) = .unstarted := fun i =>
      (hthread i).started.resolve_right (hstarted.symm ▸ Nat.not_lt_zero _)
    refine ⟨?_, hunstarted⟩
    have hzero : ∑ i : Fin n, AtomicCounter.share (s.locals (some i)).inCall =
        ∑ _i : Fin n, (0 : A) := by
      refine Finset.sum_congr rfl fun i _ => ?_
      rw [hunstarted i]
      rfl
    rw [counter_eq hs, hzero, Finset.sum_const_zero, add_zero]
  · rw [hl] at hprogress
    exact hprogress.2.2

end Counter

/-- The second thread has loaded the counter before the first one exchanges it. -/
def twoThreads : List (Party 2 × Choice) :=
  List.replicate 4 (none, .run) ++ List.replicate 3 (some 0, .run) ++
    List.replicate 3 (some 1, .run) ++ List.replicate 2 (some 0, .run) ++
    List.replicate 4 (some 1, .run) ++ List.replicate 4 (none, .run)

theorem function_outcome_twoThreads :
    ∃ s : Config (Party 2) (Shared 2 ℤ) (Thread ℤ),
      (initial 2 (5 : ℤ)).run (program 2) twoThreads = some s ∧
      s.locals none = .left .returned ∧ s.shared.counter.counter = 5 + (2 : ℕ) := by
  have hrun : ((initial 2 (5 : ℤ)).run (program 2) twoThreads).isSome := by decide
  have hl : (((initial 2 (5 : ℤ)).run (program 2) twoThreads).get hrun).locals none =
      .left .returned := rfl
  exact ⟨_, (Option.some_get hrun).symm, hl,
    ((function_outcome (.of_run_any twoThreads (Option.some_get hrun).symm)).2.1 hl).1⟩

end ConcurrencyInAction.MultithreadCompareExchange
