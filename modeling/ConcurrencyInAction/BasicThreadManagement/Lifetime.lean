import ConcurrencyInAction.BasicThreadManagement.Model
import ConcurrencyInAction.Lib.Completion
import Mathlib.Data.Fintype.Basic

/-!
# The lifetime of the variable

* `Alive`: the variable is there, and holds what the thread has counted;
* `Assertion`: what is true at each statement of the caller, whichever of the functions it is;
* `joined_before_leaving`: `betterOops` and `muchBetterOops` wait for the thread on every way out,
  so that every access is valid and every increment is done;
* `oops_undefined`: once `oops` has left before the last turn of the loop, every continuation ends
  in undefined behaviour.
-/

namespace ConcurrencyInAction.BasicThreadManagement

open Interleaving

variable {f : Function} {n : ℕ} {t : Party} {c : Choice} {g g' : Shared} {l l' : Point}

/-! ### The assertions -/

/-- What the thread has counted, and whether it has finished. -/
def Counts (n : ℕ) (worker : Point) (value : ℕ) (finished : Bool) : Prop :=
  match worker with
  | .unstarted => value = 0 ∧ finished = false
  | .loop j => value = j ∧ j ≤ n ∧ finished = false
  | .write j old => old = j ∧ value = j ∧ j < n ∧ finished = false
  | .finished => value = n ∧ finished = true
  | _ => False

/-- The variable is there, and holds the count. -/
def Alive (n : ℕ) (g : Shared) (worker : Point) : Prop :=
  ∃ value, g.someLocalState = some value ∧ Counts n worker value g.finished

/-- What is true at a statement of the caller. -/
def Assertion (f : Function) (n : ℕ) (g : Shared) (worker : Point) : Point → Prop
  | .declare => g.handle = .none ∧ g.finished = false ∧ worker = .unstarted
  | .start => g.handle = .none ∧ worker = .unstarted ∧ Alive n g worker
  | .detach => f = .oops ∧ g.handle = .joinable ∧ Alive n g worker
  | .body | .guardTest _ | .join _ => f ≠ .oops ∧ g.handle = .joinable ∧ Alive n g worker
  | .destroyThread _ => (g.handle = .joined ∨ g.handle = .detached) ∧ Alive n g worker ∧
      (f ≠ .oops → g.finished = true)
  | .leave o => Alive n g worker ∧
      ((g.handle = .none ∧ worker = .unstarted ∧ o = .threw) ∨
        ((g.handle = .joined ∨ g.handle = .detached) ∧ (f ≠ .oops → g.finished = true)))
  | .left o => g.someLocalState = none ∧
      ((g.handle = .none ∧ worker = .unstarted ∧ o = .threw ∧ g.final = some 0) ∨
        ((g.handle = .joined ∨ g.handle = .detached) ∧
          (f ≠ .oops → worker = .finished ∧ g.final = some n)))
  | _ => False

theorem Alive.of_finished (h : Alive n g l) (hfinished : g.finished = true) :
    l = .finished ∧ g.someLocalState = some n := by
  obtain ⟨value, hvalue, hcounts⟩ := h
  rw [hfinished] at hcounts
  cases l with
  | finished => exact ⟨rfl, hcounts.1 ▸ hvalue⟩
  | unstarted => exact nomatch hcounts.2
  | loop j => exact nomatch hcounts.2.2
  | write j old => exact nomatch hcounts.2.2.2
  | declare | start | detach | body | guardTest _ | join _ | destroyThread _ | leave _ | left _
  | terminated | undefined => exact hcounts.elim

/-! ### One step -/

/-- A step of the thread counts, while the variable is there. -/
theorem Alive.worker_step (h : Alive n g l) (hstep : Step f n g .worker c l g' l') :
    Alive n g' l' ∧ g'.handle = g.handle ∧ (g.finished = true → g'.finished = true) := by
  obtain ⟨value, hvalue, hcounts⟩ := h
  cases hstep with
  | begins hstarted =>
    refine ⟨⟨value, hvalue, ?_⟩, rfl, id⟩
    exact ⟨hcounts.1, Nat.zero_le n, hcounts.2⟩
  | @reads j value' hj hvalue' =>
    have hsame : value = value' := Option.some.inj (hvalue.symm.trans hvalue')
    subst hsame
    exact ⟨⟨value, hvalue, hcounts.1, hcounts.1, hj, hcounts.2.2⟩, rfl, id⟩
  | readsNothing hj hnone => exact nomatch hvalue.symm.trans hnone
  | @finishes j hj =>
    refine ⟨⟨value, hvalue, ?_, rfl⟩, rfl, fun _ => rfl⟩
    have hle := hcounts.2.1
    have heq := hcounts.1
    omega
  | @writes j old old' hold =>
    obtain ⟨hold', hvalue', hj, hfinished⟩ := hcounts
    exact ⟨⟨old + 1, rfl, by rw [hold'], hj, hfinished⟩, rfl, id⟩
  | writesNothing hnone => exact nomatch hvalue.symm.trans hnone

/-- **A step of the thread** keeps the assertion of the caller. -/
theorem Assertion.worker_step {caller : Point} (h : Assertion f n g l caller)
    (hstep : Step f n g .worker c l g' l') : Assertion f n g' l' caller := by
  -- a thread that has not been started does nothing
  have hno : g.handle = .none → l = .unstarted → False := by
    intro hhandle hl
    subst hl
    cases hstep with
    | begins hstarted => exact hstarted hhandle
  cases caller with
  | declare => exact (hno h.1 h.2.2).elim
  | start => exact (hno h.1 h.2.1).elim
  | detach =>
    obtain ⟨halive, hhandle, -⟩ := h.2.2.worker_step hstep
    exact ⟨h.1, hhandle.trans h.2.1, halive⟩
  | body | guardTest _ | join _ =>
    obtain ⟨halive, hhandle, -⟩ := h.2.2.worker_step hstep
    exact ⟨h.1, hhandle.trans h.2.1, halive⟩
  | destroyThread o =>
    obtain ⟨halive, hhandle, hfinished⟩ := h.2.1.worker_step hstep
    refine ⟨?_, halive, fun hf => hfinished (h.2.2 hf)⟩
    rw [hhandle]
    exact h.1
  | leave o =>
    obtain ⟨halive, hhandle, hfinished⟩ := h.1.worker_step hstep
    refine ⟨halive, ?_⟩
    rw [hhandle]
    rcases h.2 with ⟨hnone, hl, -⟩ | ⟨hstarted, hjoined⟩
    · exact (hno hnone hl).elim
    · exact .inr ⟨hstarted, fun hf => hfinished (hjoined hf)⟩
  | left o =>
    obtain ⟨hgone, hrest⟩ := h
    rcases hrest with ⟨hnone, hl, -⟩ | ⟨hstarted, hjoined⟩
    · exact (hno hnone hl).elim
    · by_cases hf : f = .oops
      · cases hstep with
        | writes hold => exact nomatch hgone.symm.trans hold
        | reads hj hvalue => exact nomatch hgone.symm.trans hvalue
        | begins _ | readsNothing _ _ | finishes _ | writesNothing _ =>
          exact ⟨hgone, .inr ⟨hstarted, fun hne => absurd hf hne⟩⟩
      · -- the thread has finished
        have hl := (hjoined hf).1
        subst hl
        cases hstep
  | terminated | unstarted | loop _ | write _ _ | finished | undefined => exact h.elim

theorem afterBody_assertion {o : Outcome} (hf : f ≠ .oops) (hhandle : g.handle = .joinable)
    (halive : Alive n g l) : Assertion f n g l (f.afterBody o) := by
  cases f with
  | oops => exact absurd rfl hf
  | betterOops => exact ⟨hf, hhandle, halive⟩
  | muchBetterOops => exact ⟨hf, hhandle, halive⟩

/-- **A step of the caller.** -/
theorem Assertion.caller_step {worker : Point} (h : Assertion f n g worker l)
    (hstep : Step f n g .caller c l g' l') : Assertion f n g' worker l' := by
  cases hstep with
  | declares =>
    obtain ⟨hhandle, hfinished, hworker⟩ := h
    subst hworker
    exact ⟨hhandle, rfl, 0, rfl, rfl, hfinished⟩
  | starts =>
    obtain ⟨-, -, halive⟩ := h
    cases f with
    | oops => exact ⟨rfl, rfl, halive⟩
    | betterOops => exact ⟨nofun, rfl, halive⟩
    | muchBetterOops => exact ⟨nofun, rfl, halive⟩
  | startFails =>
    obtain ⟨hhandle, hworker, halive⟩ := h
    exact ⟨halive, .inl ⟨hhandle, hworker, rfl⟩⟩
  | detaches => exact ⟨.inr rfl, h.2.2, fun hf => absurd h.1 hf⟩
  | bodyReturns => exact afterBody_assertion h.1 h.2.1 h.2.2
  | bodyThrows => exact afterBody_assertion h.1 h.2.1 h.2.2
  | guardJoins hj => exact ⟨h.1, hj, h.2.2⟩
  | guardSkips hj => exact absurd h.2.1 hj
  | joins hfinished => exact ⟨.inl rfl, h.2.2, fun _ => hfinished⟩
  | terminates hj =>
    rcases h.1 with hh | hh
    · exact nomatch hh.symm.trans hj
    · exact nomatch hh.symm.trans hj
  | destroys hj => exact ⟨h.2.1, .inr ⟨h.1, h.2.2⟩⟩
  | leaves =>
    obtain ⟨halive, hrest⟩ := h
    refine ⟨rfl, ?_⟩
    rcases hrest with ⟨hhandle, hworker, ho⟩ | ⟨hstarted, hjoined⟩
    · obtain ⟨value, hvalue, hcounts⟩ := halive
      rw [hworker] at hcounts
      exact .inl ⟨hhandle, hworker, ho, hvalue.trans (by rw [hcounts.1])⟩
    · exact .inr ⟨hstarted, fun hf => halive.of_finished (hjoined hf)⟩

/-! ### Runs -/

variable {s s' : Config Party Shared Point}

theorem reachable_assertion (hs : Reachable (program f n) anyStep initial s) :
    Assertion f n s.shared (s.locals .worker) (s.locals .caller) := by
  apply hs.invariant (I := fun s => Assertion f n s.shared (s.locals .worker) (s.locals .caller))
  · exact ⟨rfl, rfl, rfl⟩
  · intro s t c g l _ h _ hp
    have hstep := step_of_program hp
    cases t with
    | caller => exact h.caller_step hstep
    | worker => exact h.worker_step hstep

/-- Until the caller has left, the variable is there for the thread. -/
theorem Assertion.alive {worker : Point} (h : Assertion f n g worker l) :
    worker = .unstarted ∨ Alive n g worker ∨ ∃ o, l = .left o := by
  cases l with
  | declare => exact .inl h.2.2
  | start | detach | body | guardTest _ | join _ => exact .inr (.inl h.2.2)
  | destroyThread o => exact .inr (.inl h.2.1)
  | leave o => exact .inr (.inl h.1)
  | left o => exact .inr (.inr ⟨o, rfl⟩)
  | terminated | unstarted | loop _ | write _ _ | finished | undefined => exact h.elim

/-- The thread is in trouble only when the caller has left. -/
theorem Assertion.left_of_undefined (h : Assertion f n g .undefined l) : ∃ o, l = .left o := by
  rcases h.alive with hu | ⟨value, -, hcounts⟩ | hleft
  · exact nomatch hu
  · exact hcounts.elim
  · exact hleft

/-! ### Completion -/

/-- The steps that a party has still to take, at most. -/
def Point.work (n : ℕ) : Point → ℕ
  | .declare => 8
  | .start => 7
  | .body => 6
  | .guardTest _ => 5
  | .join _ => 4
  | .detach => 4
  | .destroyThread _ => 3
  | .leave _ => 2
  | .left _ | .terminated => 0
  | .unstarted => 2 * n + 2
  | .loop j => 2 * (n - j) + 1
  | .write j _ => 2 * (n - j)
  | .finished | .undefined => 0

/-- Every step brings the end closer; the thread is at most at its last turn when it writes. -/
theorem Step.work_lt (hstep : Step f n g t c l g' l')
    (hwrite : ∀ j old, t = .worker → l = .write j old → j < n) : l'.work n < l.work n := by
  cases hstep with
  | starts => cases f <;> simp [Function.afterStart, Point.work]
  | bodyReturns => cases f <;> simp [Function.afterBody, Point.work]
  | bodyThrows => cases f <;> simp [Function.afterBody, Point.work]
  | @writes j value old hold =>
    have hj := hwrite j value rfl rfl
    simp only [Point.work]
    omega
  | @writesNothing j value hnone =>
    have hj := hwrite j value rfl rfl
    simp only [Point.work]
    omega
  | reads hj hvalue => simp [Point.work]
  | declares | startFails | detaches | guardJoins _ | guardSkips _ | joins _ | terminates _
  | destroys _ | leaves | begins _ | readsNothing _ _ | finishes _ => simp [Point.work]

/-- The thread writes in a turn of its loop. -/
theorem Step.write_lt (hstep : Step f n g t c l g' l') {j old : ℕ} (hl : l' = .write j old) :
    j < n := by
  cases hstep with
  | reads hj hvalue =>
    cases hl
    exact hj
  | starts => cases f <;> exact nomatch hl
  | bodyReturns => cases f <;> exact nomatch hl
  | bodyThrows => cases f <;> exact nomatch hl
  | declares | startFails | detaches | guardJoins _ | guardSkips _ | joins _ | terminates _
  | destroys _ | leaves | begins _ | readsNothing _ _ | finishes _ | writes _ | writesNothing _ =>
    exact nomatch hl

theorem reachable_write_lt (hs : Reachable (program f n) anyStep initial s) :
    ∀ t j old, s.locals t = .write j old → j < n := by
  intro t
  apply hs.local_invariant (P := fun _ l => ∀ j old, l = .write j old → j < n)
  · intro t j old h
    cases t with
    | caller => exact nomatch h
    | worker => exact nomatch h
  · intro s t c g l _ _ _ hp j old hl
    exact (step_of_program hp).write_lt hl

/-- A thread that has been started and has not finished can go on. -/
theorem Alive.exists_step (h : Alive n g l) (hstarted : g.handle ≠ .none)
    (hnot : g.finished = false) : ∃ g' l', Step f n g .worker .run l g' l' := by
  obtain ⟨value, hvalue, hcounts⟩ := h
  cases l with
  | unstarted => exact ⟨_, _, .begins hstarted⟩
  | loop j =>
    rcases Nat.lt_or_ge j n with hj | hj
    · exact ⟨_, _, .reads hj hvalue⟩
    · exact ⟨_, _, .finishes hj⟩
  | write j old => exact ⟨_, _, .writes hvalue⟩
  | finished => exact nomatch hnot.symm.trans hcounts.2
  | declare | start | detach | body | guardTest _ | join _ | destroyThread _ | leave _ | left _
  | terminated | undefined => exact hcounts.elim

/-- **No deadlock.**  Until the caller has left, it can go on, or it waits for a thread that can. -/
theorem Assertion.exists_step {worker : Point} (h : Assertion f n g worker l)
    (hnot : ∀ o, l ≠ .left o) :
    (∃ g' l', Step f n g .caller .run l g' l') ∨ ∃ g' l', Step f n g .worker .run worker g' l' := by
  cases l with
  | declare => exact .inl ⟨_, _, .declares⟩
  | start => exact .inl ⟨_, _, .starts⟩
  | detach => exact .inl ⟨_, _, .detaches⟩
  | body => exact .inl ⟨_, _, .bodyReturns⟩
  | guardTest o => exact .inl ⟨_, _, .guardJoins h.2.1⟩
  | join o =>
    cases hfinished : g.finished with
    | true => exact .inl ⟨_, _, .joins hfinished⟩
    | false =>
      have hstarted : g.handle ≠ .none := by rw [h.2.1]; exact nofun
      exact .inr (h.2.2.exists_step hstarted hfinished)
  | destroyThread o =>
    refine .inl ⟨_, _, .destroys ?_⟩
    rcases h.1 with hh | hh
    · rw [hh]
      exact nofun
    · rw [hh]
      exact nofun
  | leave o => exact .inl ⟨_, _, .leaves⟩
  | left o => exact absurd rfl (hnot o)
  | terminated | unstarted | loop _ | write _ _ | finished | undefined => exact h.elim

theorem step_of_step (h : Step f n s.shared t c (s.locals t) g' l') :
    ∃ s', s.step (program f n) t c = some s' :=
  ⟨_, Config.step_eq_some.mpr ⟨g', l', program_of_step h, rfl⟩⟩

/-- **Joined on every way out.**  Whether `doSomethingInthisThread` returns or throws: no access of
the variable is undefined, and the program is not terminated; the caller leaves, and when it has
left the thread has finished and every increment has been made, unless the thread could not be
started at all. -/
theorem joined_before_leaving (hf : f ≠ .oops)
    (hs : Reachable (program f n) anyStep initial s) :
    s.locals .worker ≠ .undefined ∧ s.locals .caller ≠ .terminated ∧
    (∀ o, s.locals .caller = .left o →
      (s.locals .worker = .finished ∧ s.shared.final = some n) ∨
      (s.locals .worker = .unstarted ∧ o = .threw ∧ s.shared.final = some 0)) ∧
    Config.Completes (program f n) anyStep (fun s => ∃ o, s.locals .caller = .left o) s := by
  have h := reachable_assertion hs
  refine ⟨fun hw => ?_, fun hc => ?_, fun o ho => ?_, ?_⟩
  · rw [hw] at h
    obtain ⟨o, ho⟩ := h.left_of_undefined
    rw [ho] at h
    rcases h.2 with ⟨-, hu, -⟩ | ⟨-, hjoined⟩
    · exact nomatch hu
    · exact nomatch (hjoined hf).1
  · rw [hc] at h
    exact h
  · rw [ho] at h
    rcases h.2 with ⟨-, hu, hthrew, hfinal⟩ | ⟨-, hjoined⟩
    · exact .inr ⟨hu, hthrew, hfinal⟩
    · exact .inl (hjoined hf)
  · refine Config.completes_of_work (I := Reachable (program f n) anyStep initial) (Point.work n)
      Finset.univ (fun s t c s' hs hok hst => ?_) (fun s hs hnot => ?_) hs
    · obtain ⟨l, hp, hself, -⟩ := Config.step_focus t hst
      refine ⟨hs.step hok hst, Finset.mem_univ t, ?_⟩
      rw [hself rfl]
      exact (step_of_program hp).work_lt fun j old _ hl => reachable_write_lt hs t j old hl
    · rcases (reachable_assertion hs).exists_step fun o ho => hnot ⟨o, ho⟩ with
        ⟨g', l', hstep⟩ | ⟨g', l', hstep⟩
      · obtain ⟨s', hs'⟩ := step_of_step hstep
        exact ⟨.caller, .run, s', trivial, hs'⟩
      · obtain ⟨s', hs'⟩ := step_of_step hstep
        exact ⟨.worker, .run, s', trivial, hs'⟩

/-- Two turns; what is called in between throws, and the caller waits for the thread. -/
def throwingRun : List (Party × Choice) :=
  [(.caller, .run), (.caller, .run), (.worker, .run), (.caller, .throws), (.caller, .run),
    (.worker, .run), (.worker, .run), (.worker, .run), (.worker, .run), (.worker, .run),
    (.caller, .run), (.caller, .run), (.caller, .run)]

def afterThrowingRun : Config Party Shared Point :=
  (initial.run (program .muchBetterOops 2) throwingRun).get (by decide)

theorem reachable_afterThrowingRun :
    Reachable (program .muchBetterOops 2) anyStep initial afterThrowingRun :=
  .of_run_any throwingRun (Option.some_get (by decide)).symm

theorem joined_before_leaving_throwingRun :
    (afterThrowingRun.locals .worker = .finished ∧ afterThrowingRun.shared.final = some 2) ∨
      (afterThrowingRun.locals .worker = .unstarted ∧ Outcome.threw = .threw ∧
        afterThrowingRun.shared.final = some 0) :=
  (joined_before_leaving (f := .muchBetterOops) nofun reachable_afterThrowingRun).2.2.1 .threw
    (by decide)

/-! ### Detached -/

/-- The thread has an access of the variable before it. -/
def Pending (n : ℕ) : Point → Prop
  | .unstarted => 0 < n
  | .loop j => j < n
  | .write _ _ => True
  | _ => False

/-- A step of the detached thread after the caller has left. -/
theorem Step.pending (hstep : Step f n g .worker c l g' l') (hgone : g.someLocalState = none) :
    g'.someLocalState = none ∧ g'.handle = g.handle ∧
      (Pending n l → Pending n l' ∨ l' = .undefined) ∧
      (¬ Pending n l → ¬ Pending n l' ∧ l' ≠ .undefined) := by
  cases hstep with
  | begins hstarted => exact ⟨hgone, rfl, fun h => .inl h, fun h => ⟨h, nofun⟩⟩
  | reads hj hvalue => exact nomatch hgone.symm.trans hvalue
  | readsNothing hj hnone => exact ⟨hgone, rfl, fun _ => .inr rfl, fun h => absurd hj h⟩
  | finishes hj => exact ⟨hgone, rfl, fun h => absurd h (Nat.not_lt.mpr hj), fun _ => ⟨id, nofun⟩⟩
  | writes hold => exact nomatch hgone.symm.trans hold
  | writesNothing hnone => exact ⟨hgone, rfl, fun _ => .inr rfl, fun h => absurd trivial h⟩

/-- The caller has returned, and what the thread still does is `P`. -/
structure Returned (P : Point → Prop) (s : Config Party Shared Point) : Prop where
  left : s.locals .caller = .left .returned
  gone : s.shared.someLocalState = none
  started : s.shared.handle ≠ .none
  worker : P (s.locals .worker)

/-- Only the thread goes on when the caller has returned. -/
theorem Returned.step {P : Point → Prop} (h : Returned P s)
    (hP : ∀ c g' l', Step f n s.shared .worker c (s.locals .worker) g' l' → P l')
    (hst : s.step (program f n) t c = some s') : t = .worker ∧ Returned P s' := by
  obtain ⟨g, l, hp, hs'⟩ := Config.step_eq_some.mp hst
  subst hs'
  have hstep := step_of_program hp
  cases t with
  | caller =>
    rw [h.left] at hstep
    cases hstep
  | worker =>
    obtain ⟨hgone, hhandle, -⟩ := hstep.pending h.gone
    exact ⟨rfl, h.left, hgone, hhandle ▸ h.started, hP c g l hstep⟩

theorem exists_step_of_pending (h : Returned (Pending n) s) :
    ∃ s', s.step (program f n) .worker .run = some s' := by
  have hw := h.worker
  have hstep : ∃ g' l', Step f n s.shared .worker .run (s.locals .worker) g' l' := by
    cases hp : s.locals .worker with
    | unstarted => exact ⟨_, _, .begins h.started⟩
    | loop j =>
      rw [hp] at hw
      exact ⟨_, _, .readsNothing hw h.gone⟩
    | write j old => exact ⟨_, _, .writesNothing h.gone⟩
    | declare | start | detach | body | guardTest _ | join _ | destroyThread _ | leave _ | left _
    | terminated | finished | undefined =>
      rw [hp] at hw
      exact hw.elim
  obtain ⟨g', l', hstep⟩ := hstep
  exact step_of_step hstep

/-- **Detached.**  As long as `oops` has not left, nothing is undefined.  When it has returned and
the thread has an access of the variable before it, every continuation ends in undefined behaviour;
when the thread has none, no continuation does. -/
theorem oops_undefined (hs : Reachable (program .oops n) anyStep initial s) :
    (s.locals .worker = .undefined → ∃ o, s.locals .caller = .left o) ∧
    (s.locals .caller = .left .returned →
      (Pending n (s.locals .worker) → Config.Completes (program .oops n) anyStep
        (fun s => s.locals .worker = .undefined) s) ∧
      (¬ Pending n (s.locals .worker) → s.locals .worker ≠ .undefined →
        ∀ s', Reachable (program .oops n) anyStep s s' → s'.locals .worker ≠ .undefined)) := by
  have h := reachable_assertion hs
  refine ⟨fun hw => ?_, fun hleft => ?_⟩
  · rw [hw] at h
    exact h.left_of_undefined
  rw [hleft] at h
  have hstarted : s.shared.handle ≠ .none := by
    rcases h.2 with ⟨-, -, ho, -⟩ | ⟨hh | hh, -⟩
    · exact nomatch ho
    · rw [hh]
      exact nofun
    · rw [hh]
      exact nofun
  constructor
  · intro hpending
    refine Config.completes_of_work (I := fun s => Reachable (program .oops n) anyStep initial s ∧
      Returned (fun l => Pending n l ∨ l = .undefined) s) (Point.work n) Finset.univ
      (fun s t c s' hI hok hst => ?_) (fun s hI hnot => ?_)
      ⟨hs, hleft, h.1, hstarted, .inl hpending⟩
    · obtain ⟨hs, hreturned⟩ := hI
      obtain ⟨-, hreturned'⟩ := hreturned.step (fun c g' l' hstep => by
        rcases hreturned.worker with hw | hw
        · exact (hstep.pending hreturned.gone).2.2.1 hw
        · rw [hw] at hstep
          cases hstep) hst
      refine ⟨⟨hs.step hok hst, hreturned'⟩, Finset.mem_univ t, ?_⟩
      obtain ⟨l, hp, hself, -⟩ := Config.step_focus t hst
      rw [hself rfl]
      exact (step_of_program hp).work_lt fun j old _ hl => reachable_write_lt hs t j old hl
    · obtain ⟨-, hreturned⟩ := hI
      have hw : Pending n (s.locals .worker) := by
        rcases hreturned.worker with hw | hw
        · exact hw
        · exact absurd hw hnot
      obtain ⟨s', hs'⟩ :=
        exists_step_of_pending (f := .oops) ⟨hreturned.left, hreturned.gone, hreturned.started, hw⟩
      exact ⟨.worker, .run, s', trivial, hs'⟩
  · intro hnot hdefined s' hs'
    have hI : Returned (fun l => ¬ Pending n l ∧ l ≠ .undefined) s' := by
      induction hs' with
      | init => exact ⟨hleft, h.1, hstarted, hnot, hdefined⟩
      | step _ _ hst ih =>
        exact (ih.step (fun c g' l' hstep => (hstep.pending ih.gone).2.2.2 ih.worker.1) hst).2
    exact hI.worker.2

/-- `oops` returns when its thread has just begun. -/
def detachedRun : List (Party × Choice) :=
  [(.caller, .run), (.caller, .run), (.worker, .run), (.caller, .run), (.caller, .run),
    (.caller, .run)]

def afterDetachedRun : Config Party Shared Point :=
  (initial.run (program .oops turns) detachedRun).get (by decide)

theorem reachable_afterDetachedRun :
    Reachable (program .oops turns) anyStep initial afterDetachedRun :=
  .of_run_any detachedRun (Option.some_get (by decide)).symm

theorem oops_undefined_detachedRun : Config.Completes (program .oops turns) anyStep
    (fun s => s.locals .worker = .undefined) afterDetachedRun := by
  have hpending : Pending turns (afterDetachedRun.locals .worker) := by
    show 0 < turns
    decide
  exact ((oops_undefined reachable_afterDetachedRun).2 (by decide)).1 hpending

end ConcurrencyInAction.BasicThreadManagement
