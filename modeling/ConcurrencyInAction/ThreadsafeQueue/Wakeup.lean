import ConcurrencyInAction.ThreadsafeQueue.Fifo

/-!
# Wake-ups of `threadsafe_queue`

The elements no woken consumer is on its way to are counted at every program point of the thread
that holds `mut` (`Point.demand`): its own notification is still due, or it is itself a consumer
that takes one away.

* `Coverage`: if a consumer is asleep, the demand is at most the number of woken consumers;
* `coverage_step`: every step keeps it, except a copy that throws inside `wait_and_pop`
  (`Step.waitCopyThrows`), which leaves its element behind and notifies nobody;
* `no_lost_wakeup`: without exceptions no wake-up is lost;
* `failing_wait_and_pop_strands_element`: one exception strands an element;
* `not_stranded`: nothing is stranded as long as no exception meets a sleeper whose element nobody
  else is on its way to (`ThrowsCovered`).
-/

namespace ConcurrencyInAction.ThreadsafeQueue

open Interleaving ExclusiveLock

variable {T V : Type*}

/-! ### The coverage invariant -/

/-- With `n` elements in the container, how many of them woken consumers have to take, when the
thread that holds `mut` is at this point: a `push` about to notify, and a `wait_and_pop` that has
seen the container not empty, each account for one element. -/
def Point.demand (n : ℕ) : Point V → ℕ
  | .pushNotify _ | .waitTest _ | .waitCopy _ | .popContainer _ _ => n - 1
  | _ => n

theorem Point.demand_le (n : ℕ) (p : Point V) : p.demand n ≤ n := by
  cases p <;> simp only [Point.demand] <;> omega

theorem Point.pred_le_demand (n : ℕ) (p : Point V) : n - 1 ≤ p.demand n := by
  cases p <;> simp only [Point.demand] <;> omega

/-- The elements that woken consumers have to take. -/
def demand (g : Shared T V) (locals : T → Thread V) : ℕ :=
  match g.queueMut with
  | none => g.dataQueue.length
  | some u => (locals u).point.demand g.dataQueue.length

/-- If a consumer is asleep, the demand is covered by woken consumers. -/
def Coverage (s : Config T (Shared T V) (Thread V)) : Prop :=
  s.shared.dataCond.Covered (demand s.shared s.locals)

theorem demand_free {g : Shared T V} {locals : T → Thread V} (hfree : g.queueMut = none) :
    demand g locals = g.dataQueue.length := by
  rw [demand, hfree]

theorem demand_held {g : Shared T V} {locals : T → Thread V} {t : T} (hown : g.queueMut = some t) :
    demand g locals = (locals t).point.demand g.dataQueue.length := by
  rw [demand, hown]

/-- At this step no exception leaves an element behind that a sleeper should be woken for: a copy
that throws inside `wait_and_pop` finds nobody asleep, or enough woken consumers for all
elements. -/
def ThrowsCovered (s : Config T (Shared T V) (Thread V)) (t : T) (c : Choice T V) : Prop :=
  c = .throws → ∀ o, (s.locals t).point = .waitCopy o →
    s.shared.dataCond.Covered s.shared.dataQueue.length

/-- No element copy, allocation or container operation throws. -/
def nothingThrows (_ : Config T (Shared T V) (Thread V)) (_ : T) (c : Choice T V) : Prop :=
  c ≠ .throws

/-- The calls are `push` and `wait_and_pop`, and only the copy or allocation inside `wait_and_pop`
throws. -/
def waitingClients (s : Config T (Shared T V) (Thread V)) (t : T) (c : Choice T V) : Prop :=
  (∀ o, c ≠ .call (.tryPop o)) ∧ (c = .throws → ∃ o, (s.locals t).point = .waitCopy o)

/-- `mut` is free, and every thread is outside all operations or asleep and not notified. -/
def Quiescent (s : Config T (Shared T V) (Thread V)) : Prop :=
  s.shared.queueMut = none ∧ ∀ t, (s.locals t).point = .idle ∨ t ∈ s.shared.dataCond.asleep

variable [DecidableEq T]

section Decidable

variable [DecidableEq V] (s : Config T (Shared T V) (Thread V)) (t : T) (c : Choice T V)

instance : Decidable (nothingThrows s t c) := inferInstanceAs (Decidable (c ≠ .throws))

instance : Decidable (ThrowsCovered s t c) :=
  inferInstanceAs (Decidable (c = .throws → ∀ o, (s.locals t).point = .waitCopy o →
    s.shared.dataCond.Covered s.shared.dataQueue.length))

instance : Decidable (waitingClients s t c) :=
  inferInstanceAs (Decidable ((∀ o, c ≠ .call (.tryPop o)) ∧
    (c = .throws → ∃ o, (s.locals t).point = .waitCopy o)))

instance [Fintype T] : Decidable (Quiescent s) :=
  inferInstanceAs (Decidable (s.shared.queueMut = none ∧
    ∀ t, (s.locals t).point = .idle ∨ t ∈ s.shared.dataCond.asleep))

end Decidable

theorem demand_update_self {g : Shared T V} {locals : T → Thread V} {l : Thread V} {t : T}
    (hown : g.queueMut = some t) :
    demand g (Function.update locals t l) = l.point.demand g.dataQueue.length := by
  rw [demand_held hown, Function.update_self]

theorem demand_update_of_not_owner {g : Shared T V} {locals : T → Thread V} {l : Thread V} {t : T}
    (hown : g.queueMut ≠ some t) : demand g (Function.update locals t l) = demand g locals := by
  cases hmut : g.queueMut with
  | none => rw [demand_free hmut, demand_free hmut]
  | some u =>
    have hu : u ≠ t := fun he => hown (he ▸ hmut)
    rw [demand_held hmut, demand_held hmut, Function.update_of_ne hu]

/-- The thread that holds `mut` moves on without raising the demand. -/
theorem Coverage.owner_moves {s : Config T (Shared T V) (Thread V)} {t : T} {g : Shared T V}
    {l : Thread V} (hcov : Coverage s) (hown : s.shared.queueMut = some t)
    (hmut : g.queueMut = s.shared.queueMut) (hcond : g.dataCond = s.shared.dataCond)
    (hle : l.point.demand g.dataQueue.length ≤
      (s.locals t).point.demand s.shared.dataQueue.length) :
    Coverage ⟨g, Function.update s.locals t l⟩ := by
  show g.dataCond.Covered (demand g (Function.update s.locals t l))
  rw [demand_update_self (hmut.trans hown), hcond]
  have h : s.shared.dataCond.Covered (demand s.shared s.locals) := hcov
  rw [demand_held hown] at h
  exact h.mono hle

/-- **The step lemma.** -/
theorem coverage_step {s : Config T (Shared T V) (Thread V)} {t : T} {c : Choice T V}
    {g : Shared T V} {l : Thread V} (hS : SharedAssertion s.shared)
    (h : Assertion t s.shared (s.locals t)) (hcov : Coverage s) (hok : ThrowsCovered s t c)
    (hstep : Step t s.shared (s.locals t) c g l) :
    Coverage ⟨g, Function.update s.locals t l⟩ := by
  have hcov' : s.shared.dataCond.Covered (demand s.shared s.locals) := hcov
  cases hstep with
  | call hp =>
    have hown : s.shared.queueMut ≠ some t :=
      fun ho => outside_of_point hp id (h.inRegion.owns.mp ho)
    show s.shared.dataCond.Covered (demand s.shared (Function.update s.locals t _))
    rw [demand_update_of_not_owner hown]
    exact hcov'
  | locks _ hfree =>
    rw [demand_free hfree] at hcov'
    show s.shared.dataCond.Covered (demand _ (Function.update s.locals t _))
    rw [demand_update_self rfl]
    exact hcov'.mono (Point.demand_le _ _)
  | @pushes v hp =>
    have hown : s.shared.queueMut = some t := owns_at h.inRegion hp trivial
    refine hcov.owner_moves hown rfl rfl ?_
    rw [hp]
    show (s.shared.dataQueue ++ [v]).length - 1 ≤ s.shared.dataQueue.length
    rw [List.length_append]
    exact le_refl _
  | @notifies v u hp hu =>
    have hown : s.shared.queueMut = some t := owns_at h.inRegion hp trivial
    rw [demand_held hown, hp] at hcov'
    show (s.shared.dataCond.wake u).Covered (demand _ (Function.update s.locals t _))
    rw [demand_update_self (g := { s.shared with dataCond := s.shared.dataCond.wake u }) hown]
    refine (hcov'.notify hS.disjoint hu).mono ?_
    show s.shared.dataQueue.length ≤ s.shared.dataQueue.length - 1 + 1
    omega
  | notifiesNobody _ hnone => exact ConditionVariable.covered_of_asleep_eq_empty hnone
  | pushThrows hp | tryFindsEmpty hp _ | tryFindsValue hp _ | waitFindsValue hp _
  | tryCopyThrows hp =>
    -- neither the elements nor what the thread owes them changes
    have hown : s.shared.queueMut = some t := owns_at h.inRegion hp trivial
    refine hcov.owner_moves hown rfl rfl ?_
    rw [hp]
    exact le_refl _
  | waitFindsEmpty hp he =>
    have hown : s.shared.queueMut = some t := owns_at h.inRegion hp trivial
    refine hcov.owner_moves hown rfl rfl ?_
    rw [he]
    exact Nat.zero_le _
  | @sleeps o hp =>
    have hempty : s.shared.dataQueue = [] := (known_at h.inRegion hp trivial).2
    show (s.shared.dataCond.sleep t).Covered (demand _ (Function.update s.locals t _))
    rw [demand_free rfl]
    show (s.shared.dataCond.sleep t).Covered s.shared.dataQueue.length
    rw [hempty]
    exact ConditionVariable.covered_zero
  | wakesSpuriously hp hasleep =>
    have hown : s.shared.queueMut ≠ some t :=
      fun ho => outside_of_point hp id (h.inRegion.owns.mp ho)
    show (s.shared.dataCond.wake t).Covered (demand _ (Function.update s.locals t _))
    rw [Function.update_eq_self]
    exact hcov'.wake hS.disjoint hasleep
  | relocks hp hwoken hfree =>
    rw [demand_free hfree] at hcov'
    show (s.shared.dataCond.leave t).Covered (demand _ (Function.update s.locals t _))
    rw [demand_update_self rfl]
    exact hcov'.leave hwoken
  | copies hp _ =>
    have hown : s.shared.queueMut = some t := by
      rcases hp with hp | hp <;> exact owns_at h.inRegion hp trivial
    refine hcov.owner_moves hown rfl rfl ?_
    exact Point.pred_le_demand _ _
  | waitCopyThrows hp =>
    -- the demand rises by one: the element stays, and its consumer leaves
    have hown : s.shared.queueMut = some t := owns_at h.inRegion hp trivial
    show s.shared.dataCond.Covered (demand _ (Function.update s.locals t _))
    rw [demand_update_self hown]
    exact hok rfl _ hp
  | pops hp hq =>
    have hown : s.shared.queueMut = some t := owns_at h.inRegion hp trivial
    refine hcov.owner_moves hown rfl rfl ?_
    rw [hp, hq]
    exact le_refl _
  | unlocks hp =>
    have hown : s.shared.queueMut = some t := owns_at h.inRegion hp trivial
    rw [demand_held hown, hp] at hcov'
    show s.shared.dataCond.Covered (demand _ (Function.update s.locals t _))
    rw [demand_free rfl]
    exact hcov'
  | undefined hp he => exact absurd he (ne_nil_at h.inRegion hp)

/-- **The coverage invariant** holds along every run whose exceptions are covered. -/
theorem reachable_coverage {ok : Config T (Shared T V) (Thread V) → T → Choice T V → Prop}
    (hok : ∀ s t c, ok s t c → ThrowsCovered s t c) {s : Config T (Shared T V) (Thread V)}
    (hs : Reachable program ok initial s) : Coverage s := by
  refine hs.invariant ?_ fun s t c g l hr hcov hc hp => ?_
  · exact ConditionVariable.covered_of_asleep_eq_empty rfl
  · obtain ⟨hS, hP⟩ := reachable_assertion hr
    exact coverage_step hS (hP t) hcov (hok s t c hc) (step_of_program hp)

/-! ### Without exceptions -/

/-- **No lost wake-up.**  The threads inside `data_cond.wait` are either asleep, or woken and have
not yet re-acquired `mut`.  While `mut` is free and a consumer is asleep, there are at least as many
woken consumers as queued elements; so there is no queued element next to a sleeping consumer and no
woken one. -/
theorem no_lost_wakeup {s : Config T (Shared T V) (Thread V)}
    (hs : Reachable program nothingThrows initial s) :
    (∀ t, (∃ o, (s.locals t).point = .waiting o) ↔
      t ∈ s.shared.dataCond.asleep ∨ t ∈ s.shared.dataCond.woken) ∧
    Disjoint s.shared.dataCond.asleep s.shared.dataCond.woken ∧
    (s.shared.queueMut = none →
      (s.shared.dataCond.asleep.Nonempty →
        s.shared.dataQueue.length ≤ s.shared.dataCond.woken.card) ∧
      ¬ (s.shared.dataQueue ≠ [] ∧ s.shared.dataCond.asleep.Nonempty ∧
        s.shared.dataCond.woken = ∅)) := by
  obtain ⟨hS, hP⟩ := reachable_assertion hs
  have hcov : Coverage s := reachable_coverage (fun _ _ _ hn hc => absurd hc hn) hs
  refine ⟨fun t => ?_, hS.disjoint, fun hfree => ?_⟩
  · rw [← Point.inWait_iff]
    exact (hP t).waits.symm
  · rw [Coverage, demand_free hfree] at hcov
    refine ⟨hcov, fun ⟨hne, hasleep, hwoken⟩ => ?_⟩
    have hle := hcov hasleep
    rw [hwoken, Finset.card_empty, Nat.le_zero, List.length_eq_zero_iff] at hle
    exact hne hle

/-- A consumer goes to sleep, an element is pushed for it, and a second one goes to sleep before the
first runs. -/
def sleepersRun : List (Fin 3 × Choice (Fin 3) Nat) :=
  [(0, .call (.waitAndPop .byReference)), (0, .run), (0, .run), (0, .run),
   (1, .call (.waitAndPop .byPointer)), (1, .run), (1, .run), (1, .run),
   (2, .call (.push 7)), (2, .run), (2, .run), (2, .notify (some 0)), (2, .run)]

theorem no_lost_wakeup_sleepers :
    ∃ s, initial.run program sleepersRun = some s ∧ s.shared.queueMut = none ∧
      s.shared.dataCond.asleep = {1} ∧
      (s.shared.dataCond.asleep.Nonempty →
        s.shared.dataQueue.length ≤ s.shared.dataCond.woken.card) := by
  have hr : Reachable program nothingThrows initial
      ((initial.run program sleepersRun).get (by decide)) :=
    Reachable.of_run sleepersRun _ _ .init (by decide) (Option.some_get _).symm
  exact ⟨_, (Option.some_get (by decide)).symm, by decide, by decide,
    ((no_lost_wakeup hr).2.2 (by decide)).1⟩

/-! ### With exceptions -/

/-- An exception that is not covered breaks the coverage at once: a consumer is asleep, and there
are more elements than woken consumers. -/
theorem not_coverage_of_throws {s : Config T (Shared T V) (Thread V)} {t : T} {c : Choice T V}
    {g : Shared T V} {l : Thread V} (h : Assertion t s.shared (s.locals t))
    (hbad : ¬ ThrowsCovered s t c) (hstep : Step t s.shared (s.locals t) c g l) :
    ¬ Coverage ⟨g, Function.update s.locals t l⟩ := by
  intro hcov
  apply hbad
  rintro rfl o hp
  cases hstep with
  | pushThrows hp' => rw [hp] at hp'; cases hp'
  | tryCopyThrows hp' => rw [hp] at hp'; cases hp'
  | waitCopyThrows hp' =>
    have hcov' : s.shared.dataCond.Covered (demand s.shared (Function.update s.locals t _)) := hcov
    rw [demand_update_self (owns_at h.inRegion hp trivial)] at hcov'
    exact hcov'

/-- Along every run, the coverage is kept exactly as long as every exception is covered. -/
theorem coverage_iff_throwsCovered (as : List (T × Choice T V))
    (hrun : ((initial : Config T (Shared T V) (Thread V)).run program as).isSome) :
    Config.AllStates program Coverage initial as ↔
      Config.AllSteps program ThrowsCovered initial as := by
  refine Config.allStates_iff_allSteps
    (I := fun s => (SharedAssertion s.shared ∧ ∀ t, Assertion t s.shared (s.locals t)) ∧ Coverage s)
    (fun s h => h.2) ?_ ?_ as initial ⟨initial_assertion, ?_⟩ hrun
  · intro s t c s' hs hok hstep
    refine ⟨(relyGuarantee anyStep).keeps hs.1 trivial hstep, ?_⟩
    obtain ⟨g, l, hp, rfl⟩ := Config.step_eq_some.mp hstep
    exact coverage_step hs.1.1 (hs.1.2 t) hs.2 hok (step_of_program hp)
  · intro s t c s' hs hbad hstep
    obtain ⟨g, l, hp, rfl⟩ := Config.step_eq_some.mp hstep
    exact not_coverage_of_throws (hs.1.2 t) hbad (step_of_program hp)
  · exact ConditionVariable.covered_of_asleep_eq_empty rfl

/-- Two consumers are asleep, one element is pushed, and the copy of the notified consumer
throws. -/
def strandedRun : List (Fin 3 × Choice (Fin 3) Nat) :=
  [(0, .call (.waitAndPop .byReference)), (0, .run), (0, .run), (0, .run),
   (1, .call (.waitAndPop .byReference)), (1, .run), (1, .run), (1, .run),
   (2, .call (.push 7)), (2, .run), (2, .run), (2, .notify (some 0)), (2, .run),
   (0, .run), (0, .run), (0, .throws), (0, .run)]

/-- The element stays queued, everyone is outside the queue or asleep, and the second consumer
sleeps on. -/
theorem failing_wait_and_pop_strands_element :
    ¬ ∀ s : Config (Fin 3) (Shared (Fin 3) Nat) (Thread Nat),
      Reachable program waitingClients initial s → Quiescent s →
        s.shared.dataQueue = [] ∨ s.shared.dataCond.asleep = ∅ := by
  intro hall
  have hr : Reachable program waitingClients initial
      ((initial.run program strandedRun).get (by decide)) :=
    Reachable.of_run strandedRun _ _ .init (by decide) (Option.some_get _).symm
  exact absurd (hall _ hr (by decide)) (by decide)

/-- **Nothing is stranded** as long as no exception leaves an element behind that a sleeper should
have been woken for. -/
theorem not_stranded {s : Config T (Shared T V) (Thread V)}
    (hs : Reachable program (fun s t c => waitingClients s t c ∧ ThrowsCovered s t c) initial s)
    (hquiet : Quiescent s) : s.shared.dataQueue = [] ∨ s.shared.dataCond.asleep = ∅ := by
  obtain ⟨hS, hP⟩ := reachable_assertion hs
  have hcov : Coverage s := reachable_coverage (fun _ _ _ h => h.2) hs
  rw [Coverage, demand_free hquiet.1] at hcov
  -- a woken thread would be inside `wait`, hence neither idle nor asleep
  have hwoken : s.shared.dataCond.woken = ∅ := by
    rw [Finset.eq_empty_iff_forall_notMem]
    intro t ht
    rcases hquiet.2 t with hidle | hasleep
    · have hin := (hP t).waits.mp (.inr ht)
      rw [hidle] at hin
      exact hin
    · exact Finset.disjoint_left.mp hS.disjoint hasleep ht
  rcases Finset.eq_empty_or_nonempty s.shared.dataCond.asleep with hnone | hsome
  · exact .inr hnone
  · have hle := hcov hsome
    rw [hwoken, Finset.card_empty, Nat.le_zero, List.length_eq_zero_iff] at hle
    exact .inl hle

/-- Two consumers are asleep, an element is pushed, and the first one is notified.  A third consumer
finds the element before it, and its copy throws; the first one takes the element. -/
def overtakingRun : List (Fin 4 × Choice (Fin 4) Nat) :=
  [(0, .call (.waitAndPop .byReference)), (0, .run), (0, .run), (0, .run),
   (1, .call (.waitAndPop .byPointer)), (1, .run), (1, .run), (1, .run),
   (2, .call (.push 7)), (2, .run), (2, .run), (2, .notify (some 0)), (2, .run),
   (3, .call (.waitAndPop .byPointer)), (3, .run), (3, .run), (3, .throws), (3, .run),
   (0, .run), (0, .run), (0, .run), (0, .run), (0, .run)]

theorem not_stranded_overtakingRun :
    ∃ s, initial.run program overtakingRun = some s ∧ s.shared.dataCond.asleep = {1} ∧
      (s.shared.dataQueue = [] ∨ s.shared.dataCond.asleep = ∅) := by
  have hr : Reachable program (fun s t c => waitingClients s t c ∧ ThrowsCovered s t c) initial
      ((initial.run program overtakingRun).get (by decide)) :=
    Reachable.of_run overtakingRun _ _ .init (by decide) (Option.some_get _).symm
  exact ⟨_, (Option.some_get (by decide)).symm, by decide, not_stranded hr (by decide)⟩

end ConcurrencyInAction.ThreadsafeQueue
