import ConcurrencyInAction.Lib.Accounting
import ConcurrencyInAction.Lib.Completion
import ConcurrencyInAction.Pipeline.Delivery

/-!
# The pipeline drains

When there is no more data to prepare, everything that has been pushed is processed, and nobody is
left behind.

* `CopiesSucceed`: the copy inside `wait_and_pop` does not throw, while `push` may;
* `Thread.Prepares`, `Thread.Processes`: a thread runs its own function, and a processing thread has
  not thrown;
* `Settling`: no more data is prepared, and nobody wakes spuriously any more;
  `Step.work_lt`: every such step brings down the work that is left;
* `Drained`: the queue is empty, the preparation threads have left and the processing threads sleep;
  `exists_step_of_not_drained`: before that some thread can take a step;
* `pipeline_drains`: **every run settles in a drained state**, in which every chunk that was pushed
  has been processed once.
-/

namespace ConcurrencyInAction.Pipeline

open Interleaving

variable {T V : Type*} [DecidableEq T]

/-- The copy inside `wait_and_pop` does not throw. -/
def CopiesSucceed (s : Config T (Shared T V) (Thread V)) (t : T) (c : Choice T V) : Prop :=
  c = .queue .throws → ∀ o, (s.locals t).call.point ≠ .waitCopy o

/-- Moreover no more data is prepared, and nobody wakes spuriously. -/
structure Settling (s : Config T (Shared T V) (Thread V)) (t : T) (c : Choice T V) : Prop where
  copies : CopiesSucceed s t c
  noMoreData : c ≠ .moreDataToPrepare true
  notSpurious : c ≠ .queue .spurious

/-! ### What is left to do -/

/-- The steps a thread still needs, inside the queue as counted there. -/
def Thread.work (l : Thread V) : ℕ :=
  match l.point with
  | .moreDataToPrepare => 1
  | .prepareData => 22
  | .push _ | .popping => l.call.point.work
  | .ended | .threw => 0
  | .waitAndPop => 4
  | .process _ => 5

theorem afterPush_work (l : Thread V) (r : Option (ThreadsafeQueue.Result V)) :
    (l.goto (afterPush r)).work < 6 := by
  unfold afterPush
  split
  · exact Nat.lt_of_sub_eq_succ rfl
  · exact Nat.zero_lt_succ 5

theorem afterPop_work (l : Thread V) (r : Option (ThreadsafeQueue.Result V)) :
    (l.goto (afterPop r)).work < 6 := by
  unfold afterPop
  split
  · exact Nat.lt_succ_self 5
  · exact Nat.zero_lt_succ 5

/-- A thread inside the queue has the work that the queue counts. -/
theorem Thread.work_of_calling {l : Thread V} (hp : (∃ data, l.point = .push data) ∨
    l.point = .popping) : l.work = l.call.point.work := by
  rcases hp with ⟨data, hp⟩ | hp
  · rw [Thread.work, hp]
  · rw [Thread.work, hp]

variable {t : T} {c : Choice T V} {g' : Shared T V} {l' : Thread V}
  {s : Config T (Shared T V) (Thread V)}

/-- **The work goes down.** -/
theorem Step.work_lt (hd : Disjoint s.shared.safeQueue.dataCond.asleep
      s.shared.safeQueue.dataCond.woken)
    (hq : ThreadsafeQueue.Assertion t s.shared.safeQueue (s.locals t).call) (hok : Settling s t c)
    (hstep : Step t s.shared (s.locals t) c g' l') :
    l'.work + g'.safeQueue.work < (s.locals t).work + s.shared.safeQueue.work := by
  cases hstep with
  | moreData _ => exact absurd rfl hok.noMoreData
  | noMoreData hp =>
    refine Nat.add_lt_add_right ?_ _
    rw [Thread.work, Thread.work, hp]
    exact Nat.zero_lt_one
  | prepares data hp =>
    refine Nat.add_lt_add_right ?_ _
    rw [Thread.work, Thread.work, hp]
    exact Nat.lt_succ_self 21
  | callsPop hp =>
    refine Nat.add_lt_add_right ?_ _
    rw [Thread.work, Thread.work, hp]
    exact Nat.lt_succ_self 3
  | @queue d q k hp hidle hqueue =>
    have hwork : Thread.work { s.locals t with call := k } = k.point.work :=
      Thread.work_of_calling hp
    rw [hwork, Thread.work_of_calling hp]
    refine (ThreadsafeQueue.step_of_program hqueue).work_lt hd hq.inRegion ⟨hidle, ?_, ?_⟩
    · intro hc
      exact hok.notSpurious (congrArg Choice.queue hc)
    · intro hc
      exact hok.copies (congrArg Choice.queue hc)
  | pushReturns hp hidle =>
    refine Nat.add_lt_add_right ?_ _
    rw [Thread.work_of_calling (.inl ⟨_, hp⟩), hidle]
    exact afterPush_work _ _
  | popReturns hp hidle =>
    refine Nat.add_lt_add_right ?_ _
    rw [Thread.work_of_calling (.inr hp), hidle]
    exact afterPop_work _ _
  | processes data hp =>
    refine Nat.add_lt_add_right ?_ _
    rw [Thread.work, Thread.work, hp]
    exact Nat.lt_succ_self 4

/-! ### Who runs what -/

/-- The points of `data_preparation_thread`. -/
def Thread.Prepares (l : Thread V) : Prop :=
  match l.point with
  | .moreDataToPrepare | .prepareData | .push _ | .ended | .threw => True
  | _ => False

/-- The points of `data_processing_thread`, no exception having left it. -/
def Thread.Processes (l : Thread V) : Prop :=
  match l.point with
  | .waitAndPop | .process _ => True
  | .popping => l.call.NotThrew
  | _ => False

theorem prepares_at {l : Thread V} {p : Point V} (h : l.Prepares) (hp : l.point = p) :
    Thread.Prepares { l with point := p } := by
  subst hp
  exact h

theorem processes_at {l : Thread V} {p : Point V} (h : l.Processes) (hp : l.point = p) :
    Thread.Processes { l with point := p } := by
  subst hp
  exact h

theorem Step.keepsPreparing {g : Shared T V} {l : Thread V} (h : l.Prepares)
    (hstep : Step t g l c g' l') : l'.Prepares := by
  cases hstep with
  | moreData _ | noMoreData _ | prepares _ _ => exact trivial
  | callsPop hp | popReturns hp _ | processes _ hp => exact (prepares_at h hp).elim
  | queue _ _ _ => exact h
  | pushReturns hp _ =>
    show Thread.Prepares { l with point := afterPush l.call.result }
    unfold afterPush
    split <;> exact trivial

theorem Step.keepsProcessing {g : Shared T V} {l : Thread V} (h : l.Processes)
    (hl : Assertion t g l)
    (hok : c = .queue .throws → ∀ o, l.call.point ≠ .waitCopy o)
    (hstep : Step t g l c g' l') : l'.Processes := by
  obtain ⟨rest, -, hunprocessed⟩ := hl.received
  cases hstep with
  | moreData hp | noMoreData hp | prepares _ hp | pushReturns hp _ => exact (processes_at h hp).elim
  | callsPop _ => exact ⟨nofun, nofun⟩
  | processes _ _ => exact trivial
  | popReturns hp hidle =>
    have hno : l.call.NotThrew := processes_at h hp
    rcases (Thread.unprocessed_popping hp rest).mp hunprocessed with
      ⟨hbusy, -⟩ | ⟨o, data, -, hresult, -⟩ | ⟨-, hresult, -⟩
    · exact absurd hidle hbusy
    · rw [hresult]
      exact trivial
    · exact absurd hresult hno.2
  | queue hp hidle hqueue =>
    rcases hp with ⟨data, hp⟩ | hp
    · exact (processes_at h hp).elim
    · have hno : l.call.NotThrew := processes_at h hp
      rcases (Thread.unprocessed_popping hp rest).mp hunprocessed with
        ⟨-, hin, -⟩ | ⟨_, _, hno', -⟩ | ⟨hno', -⟩
      · have hno' := hin.notThrew (fun hc => hok (congrArg Choice.queue hc)) hno
          (ThreadsafeQueue.step_of_program hqueue)
        unfold Thread.Processes
        rw [hp]
        exact hno'
      · exact absurd hno' hidle
      · exact absurd hno' hidle

variable {role : T → Role}

theorem reachable_prepares {ok : Config T (Shared T V) (Thread V) → T → Choice T V → Prop}
    (hs : Reachable program ok (initial role) s) (hrole : role t = .dataPreparationThread) :
    (s.locals t).Prepares := by
  revert hrole
  refine hs.local_invariant (P := fun t l => role t = .dataPreparationThread → l.Prepares)
    (fun t hrole => ?_) (fun s t c g l _ hP _ hp hrole => ?_) t
  · show Thread.Prepares ⟨(role t).entry, ⟨.idle, none⟩, [], []⟩
    rw [hrole]
    exact trivial
  · exact (step_of_program hp).keepsPreparing (hP hrole)

theorem reachable_processes (hs : Reachable program CopiesSucceed (initial role) s)
    (hrole : role t = .dataProcessingThread) : (s.locals t).Processes := by
  revert hrole
  refine hs.local_invariant (P := fun t l => role t = .dataProcessingThread → l.Processes)
    (fun t hrole => ?_) (fun s t c g l hr hP hok hp hrole => ?_) t
  · show Thread.Processes ⟨(role t).entry, ⟨.idle, none⟩, [], []⟩
    rw [hrole]
    exact trivial
  · exact (step_of_program hp).keepsProcessing (hP hrole) ((reachable_assertion hr).2 t) hok

/-! ### Who can go on -/

/-- The queue is empty, the preparation threads have left, and the processing threads sleep. -/
structure Drained (role : T → Role) (s : Config T (Shared T V) (Thread V)) : Prop where
  free : s.shared.safeQueue.queueMut = none
  empty : s.shared.safeQueue.dataQueue = []
  left : ∀ t, role t = .dataPreparationThread →
    (s.locals t).point = .ended ∨ (s.locals t).point = .threw
  asleep : ∀ t, role t = .dataProcessingThread → t ∈ s.shared.safeQueue.dataCond.asleep

/-- Thread `t` can take a step that the pipeline may still take. -/
def CanSettle (s : Config T (Shared T V) (Thread V)) (t : T) : Prop :=
  ∃ c s', Settling s t c ∧ s.step program t c = some s'

theorem canSettle_of_isSome (hok : Settling s t c)
    (h : (program t c s.shared (s.locals t)).isSome) : CanSettle s t := by
  obtain ⟨⟨g, l⟩, hr⟩ := Option.isSome_iff_exists.mp h
  exact ⟨c, _, hok, Config.step_eq_some.mpr ⟨g, l, hr, rfl⟩⟩

omit [DecidableEq T] in
theorem settling_run : Settling s t .run := ⟨nofun, nofun, nofun⟩

omit [DecidableEq T] in
theorem settling_noMoreData : Settling s t (.moreDataToPrepare false) := ⟨nofun, nofun, nofun⟩

omit [DecidableEq T] in
theorem settling_prepareData (data : V) : Settling s t (.prepareData data) :=
  ⟨nofun, nofun, nofun⟩

/-- Whom the queue lets go on can go on. -/
theorem canSettle_of_canGoOn
    (hp : (∃ data, (s.locals t).point = .push data) ∨ (s.locals t).point = .popping)
    (h : ThreadsafeQueue.CanGoOn t s.shared.safeQueue (s.locals t).call) : CanSettle s t := by
  obtain ⟨d, r, hd, hthrows, hr⟩ := h
  have hok : Settling s t (.queue d) := by
    refine ⟨fun hc => ?_, nofun, fun hc => ?_⟩
    · exact absurd (Choice.queue.inj hc) hthrows
    · exact hd.notSpurious (Choice.queue.inj hc)
  refine canSettle_of_isSome hok ?_
  rcases hp with ⟨data, hp⟩ | hp
  · simp only [program, hp, calling_of_queue hd.inside hr, Option.isSome_some]
  · simp only [program, hp, calling_of_queue hd.inside hr, Option.isSome_some]

/-- Outside the queue a thread can go on until it has left. -/
theorem canSettle_of_idle [Nonempty V] (hidle : (s.locals t).call.point = .idle)
    (hended : (s.locals t).point ≠ .ended) (hthrew : (s.locals t).point ≠ .threw) :
    CanSettle s t := by
  cases hp : (s.locals t).point with
  | moreDataToPrepare =>
    refine canSettle_of_isSome settling_noMoreData ?_
    simp only [program, hp, Option.isSome_some]
  | prepareData =>
    obtain ⟨data⟩ := ‹Nonempty V›
    refine canSettle_of_isSome (settling_prepareData data) ?_
    simp only [program, hp, Option.isSome_some]
  | waitAndPop | process =>
    refine canSettle_of_isSome settling_run ?_
    simp only [program, hp, Option.isSome_some]
  | push | popping =>
    refine canSettle_of_isSome settling_run ?_
    simp only [program, hp, calling, hidle, Option.isSome_some]
  | ended => exact absurd hp hended
  | threw => exact absurd hp hthrew

/-- A thread inside the queue is at one of the two calls. -/
theorem calling_of_busy {ok : Config T (Shared T V) (Thread V) → T → Choice T V → Prop}
    (hs : Reachable program ok (initial role) s) (hbusy : (s.locals t).call.point ≠ .idle) :
    (∃ data, (s.locals t).point = .push data) ∨ (s.locals t).point = .popping := by
  have hcalling : (s.locals t).point.Calling := by
    by_contra hno
    exact hbusy (idle_of_not_calling hs t hno)
  cases hp : (s.locals t).point with
  | push data => exact .inl ⟨data, rfl⟩
  | popping => exact .inr rfl
  | moreDataToPrepare | prepareData | ended | waitAndPop | process | threw =>
    rw [hp] at hcalling
    exact hcalling.elim

theorem reachable_coverage (hs : Reachable program CopiesSucceed (initial role) s) :
    ThreadsafeQueue.Coverage (s.map Shared.safeQueue Thread.call) := by
  have h : Component program CopiesSucceed (initial role) ThreadsafeQueue.program
      (fun s t c => c = .throws → ∀ o, (s.locals t).point ≠ .waitCopy o)
      (Shared.safeQueue : Shared T V → _) Thread.call := by
    refine component (fun _ _ _ => nofun) fun s t d hok hd => ?_
    exact hok (congrArg Choice.queue hd)
  refine ThreadsafeQueue.reachable_coverage (fun s t c hok hc o hp => ?_) (h.reachable hs)
  exact absurd hp (hok hc o)

/-- Whoever is asleep is inside `wait_and_pop` of the queue. -/
theorem waiting_of_asleep (hs : Reachable program CopiesSucceed (initial role) s)
    (hasleep : t ∈ s.shared.safeQueue.dataCond.asleep) :
    ∃ o, (s.locals t).call.point = .waiting o ∧ (s.locals t).call.point ≠ .idle := by
  obtain ⟨o, hwaiting⟩ :=
    ThreadsafeQueue.Point.inWait_iff.mp (((queue_assertion hs).2 t).waits.mp (.inl hasleep))
  refine ⟨o, hwaiting, ?_⟩
  rw [hwaiting]
  exact nofun

/-- A preparation thread does not sleep. -/
theorem not_asleep_of_prepares (hs : Reachable program CopiesSucceed (initial role) s)
    (hrole : role t = .dataPreparationThread) :
    t ∉ s.shared.safeQueue.dataCond.asleep := by
  intro hasleep
  obtain ⟨o, hwaiting, hbusy⟩ := waiting_of_asleep hs hasleep
  obtain ⟨rest, -, hunsent⟩ := ((reachable_assertion hs).2 t).sent
  rcases calling_of_busy hs hbusy with ⟨data, hp⟩ | hp
  · rcases (Thread.unsent_push hp rest).mp hunsent with ⟨-, hin, -⟩ | ⟨hno, -⟩ | ⟨hno, -⟩
    · rw [hwaiting] at hin
      exact nomatch hin
    · exact hbusy hno
    · exact hbusy hno
  · exact prepares_at (reachable_prepares hs hrole) hp

/-- **Nobody is stuck before the pipeline is drained.** -/
theorem exists_step_of_not_drained [Nonempty V] (hsome : ∃ t, role t = .dataProcessingThread)
    (hs : Reachable program CopiesSucceed (initial role) s) (hnot : ¬ Drained role s) :
    ∃ t, CanSettle s t := by
  by_contra hno
  rw [not_exists] at hno
  apply hnot
  obtain ⟨hS, hP⟩ := queue_assertion hs
  have hbusy : ∀ t, (s.locals t).call.point ≠ .idle →
      ¬ ThreadsafeQueue.CanGoOn t s.shared.safeQueue (s.locals t).call :=
    fun t hidle hgo => hno t (canSettle_of_canGoOn (calling_of_busy hs hidle) hgo)
  have hfree : s.shared.safeQueue.queueMut = none := by
    by_contra hheld
    obtain ⟨t, ht⟩ := Option.ne_none_iff_exists'.mp hheld
    have hgo := ThreadsafeQueue.exists_step_of_owner (hP t).inRegion ht
    obtain ⟨_, _, hc, -⟩ := id hgo
    exact hbusy t hc.inside hgo
  -- everybody is outside the queue, or asleep
  have hasleep : ∀ t, (s.locals t).call.point ≠ .idle →
      t ∈ s.shared.safeQueue.dataCond.asleep := by
    intro t hidle
    by_contra hawake
    exact hbusy t hidle (ThreadsafeQueue.exists_step_of_free (hP t) hfree hidle hawake)
  have houtside : ∀ t, (s.locals t).call.point = .idle →
      (s.locals t).point = .ended ∨ (s.locals t).point = .threw := by
    intro t hidle
    by_contra hin
    rw [not_or] at hin
    exact hno t (canSettle_of_idle hidle hin.1 hin.2)
  have hsleepers : ∀ t, role t = .dataProcessingThread →
      t ∈ s.shared.safeQueue.dataCond.asleep := by
    intro t hrole
    refine hasleep t fun hidle => ?_
    have hprocesses := reachable_processes hs hrole
    rcases houtside t hidle with hp | hp
    · exact processes_at hprocesses hp
    · exact processes_at hprocesses hp
  have hwoken : s.shared.safeQueue.dataCond.woken = ∅ := by
    rw [Finset.eq_empty_iff_forall_notMem]
    intro t ht
    have hin := (hP t).waits.mp (.inr ht)
    refine Finset.disjoint_left.mp hS.disjoint (hasleep t fun hidle => ?_) ht
    rw [hidle] at hin
    exact hin
  refine ⟨hfree, ?_, fun t hrole => houtside t ?_, hsleepers⟩
  · have hcov : s.shared.safeQueue.dataCond.Covered
        (ThreadsafeQueue.demand s.shared.safeQueue fun t => (s.locals t).call) :=
      reachable_coverage hs
    rw [ThreadsafeQueue.demand_free hfree] at hcov
    obtain ⟨t, hrole⟩ := hsome
    have hle := hcov ⟨t, hsleepers t hrole⟩
    rw [hwoken, Finset.card_empty, Nat.le_zero] at hle
    exact List.length_eq_zero_iff.mp hle
  · by_contra hidle
    exact not_asleep_of_prepares hs hrole (hasleep t hidle)

/-! ### Every run -/

/-- A thread that has left, or sleeps, has processed what it has popped. -/
theorem Drained.poppedBy_eq (h : Drained role s)
    (hs : Reachable program CopiesSucceed (initial role) s) (t : T) :
    poppedBy t s.shared.returned = (s.locals t).processed := by
  obtain ⟨rest, hreceived, hunprocessed⟩ := ((reachable_assertion hs).2 t).received
  have hrest : rest = [] := by
    cases hrole : role t with
    | dataPreparationThread =>
      rcases h.left t hrole with hp | hp
      · rw [Thread.Unprocessed, hp] at hunprocessed
        exact hunprocessed
      · rw [Thread.Unprocessed, hp] at hunprocessed
        exact hunprocessed
    | dataProcessingThread =>
      obtain ⟨o, hwaiting, hbusy⟩ := waiting_of_asleep hs (h.asleep t hrole)
      rcases calling_of_busy hs hbusy with ⟨data, hp⟩ | hp
      · exact (processes_at (reachable_processes hs hrole) hp).elim
      · rcases (Thread.unprocessed_popping hp rest).mp hunprocessed with
          ⟨-, -, hrest⟩ | ⟨_, _, hno, -⟩ | ⟨hno, -⟩
        · exact hrest
        · exact absurd hno hbusy
        · exact absurd hno hbusy
  rw [hreceived, hrest, List.append_nil]

/-- **The pipeline drains.**  With at least one processing thread, and from any state that is
reached without a failing copy in `wait_and_pop`: when no more data is prepared and nobody wakes
spuriously any more, every run comes to an end, and only in a drained state.  In a drained state a
preparation thread that has ended has pushed all it has prepared, and every chunk has been processed
as often as it was pushed. -/
theorem pipeline_drains [Fintype T] [Nonempty V] [DecidableEq V]
    (hsome : ∃ t, role t = .dataProcessingThread)
    (hs : Reachable program CopiesSucceed (initial role) s) :
    Config.Completes program Settling (Drained role) s ∧
    (Drained role s →
      (∀ t, (s.locals t).point = .ended →
        (s.locals t).prepared = pushedBy t s.shared.returned) ∧
      ∀ v, ∑ t, (s.locals t).processed.count v = ∑ t, (pushedBy t s.shared.returned).count v) := by
  refine ⟨?_, fun hdrained => ⟨fun t hp => ?_, fun v => ?_⟩⟩
  · refine Config.completes_of_potential (I := Reachable program CopiesSucceed (initial role))
      Thread.work (fun g => g.safeQueue.work) (fun s t c g l hs hok hp => ?_)
      (fun s hs hnot => ?_) hs
    · obtain ⟨hS, hP⟩ := queue_assertion hs
      exact ⟨hs.step hok.copies (Config.step_eq_some.mpr ⟨g, l, hp, rfl⟩),
        (step_of_program hp).work_lt hS.disjoint (hP t) hok⟩
    · obtain ⟨t, c, s', hok, hst⟩ := exists_step_of_not_drained hsome hs hnot
      exact ⟨t, c, s', hok, hst⟩
  · obtain ⟨rest, hsent, hunsent⟩ := ((reachable_assertion hs).2 t).sent
    rw [Thread.Unsent, hp] at hunsent
    rw [hsent, show rest = [] from hunsent, List.append_nil]
  · obtain ⟨q, hq, hfree⟩ := exists_pushed_eq hs
    have hall : pushed s.shared.returned = popped s.shared.returned := by
      rw [hq, hfree hdrained.free, hdrained.empty, List.append_nil]
    calc ∑ t, (s.locals t).processed.count v
        = ∑ t, (poppedBy t s.shared.returned).count v :=
          Finset.sum_congr rfl fun t _ => by rw [hdrained.poppedBy_eq hs t]
      _ = (popped s.shared.returned).count v :=
          sum_count_filterMap ThreadsafeQueue.Result.deliveredValue v _
      _ = (pushed s.shared.returned).count v := by rw [hall]
      _ = ∑ t, (pushedBy t s.shared.returned).count v :=
          (sum_count_filterMap ThreadsafeQueue.Result.pushedValue v _).symm

/-- The second chunk is pushed, and the preparation thread has no more data; the processing thread
takes the chunk, and sleeps again. -/
def relayEnd : List (Bool × Choice Bool ℕ) :=
  [(false, .queue .run), (false, .queue .run), (false, .queue (.notify none)), (false, .queue .run),
    (false, .run), (false, .moreDataToPrepare false), (true, .run)] ++
  List.replicate 5 (true, .queue .run) ++ [(true, .run), (true, .run), (true, .run)] ++
  List.replicate 3 (true, .queue .run)

theorem copiesSucceed_of_ne {as : List (Bool × Choice Bool ℕ)}
    {s : Config Bool (Shared Bool ℕ) (Thread ℕ)} (h : ∀ a ∈ as, a.2 ≠ .queue .throws) :
    s.AllSteps program CopiesSucceed as :=
  .of_forall fun a ha _ hthrows => absurd hthrows (h a ha)

theorem pipeline_drains_relayRun :
    ∃ s s', (initial oneOfEach).run program relayRun = some s ∧ s.run program relayEnd = some s' ∧
      Config.Completes program Settling (Drained oneOfEach) s ∧
      Drained oneOfEach s' ∧ (s'.locals true).processed = [7, 8] ∧
      (s'.locals false).prepared = pushedBy false s'.shared.returned ∧
      ∀ v, ∑ t, (s'.locals t).processed.count v =
        ∑ t, (pushedBy t s'.shared.returned).count v := by
  have hrun : ((initial oneOfEach).run program relayRun).isSome := by decide
  have hlast : ((((initial oneOfEach).run program relayRun).get hrun).run program
      relayEnd).isSome := by rfl
  have hs : Reachable program CopiesSucceed (initial oneOfEach)
      (((initial oneOfEach).run program relayRun).get hrun) :=
    .of_run relayRun _ _ .init (copiesSucceed_of_ne (by decide)) (Option.some_get hrun).symm
  have hs' := Reachable.of_run relayEnd _ _ hs (copiesSucceed_of_ne (by decide))
    (Option.some_get hlast).symm
  have hdrained : Drained oneOfEach (((((initial oneOfEach).run program relayRun).get hrun).run
      program relayEnd).get hlast) := by
    refine ⟨rfl, rfl, fun t ht => ?_, fun t ht => ?_⟩
    · cases t with
      | false => exact .inl rfl
      | true => exact nomatch ht
    · cases t with
      | false => exact nomatch ht
      | true => exact Finset.mem_singleton_self true
  have hsome : ∃ t, oneOfEach t = .dataProcessingThread := ⟨true, rfl⟩
  obtain ⟨hprepared, hprocessed⟩ := (pipeline_drains hsome hs').2 hdrained
  exact ⟨_, _, (Option.some_get hrun).symm, (Option.some_get hlast).symm,
    (pipeline_drains hsome hs).1, hdrained, rfl, hprepared false rfl, hprocessed⟩

end ConcurrencyInAction.Pipeline
