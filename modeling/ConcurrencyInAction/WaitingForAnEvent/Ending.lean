import ConcurrencyInAction.Lib.Completion
import ConcurrencyInAction.WaitingForAnEvent.Delivery

/-!
# Waiting for an event: notifications that come late, and how the threads end

The notification comes after `mut` has been given up, so an element may be in the queue with nobody
woken for it yet.

* `Point.credit`: the threads that are about to notify, or to take an element;
* `Coverage`: while someone sleeps, every element has a woken thread or one with a credit;
* `late_notify`: **no wake-up is lost**;
* `Ended`: the preparation threads have left, and the processing threads have left or sleep;
* `threads_end`: **every run ends so**.  Every chunk that has left the queue has been processed, and
  chunks stay behind only if all processing threads have met a last chunk.
-/

namespace ConcurrencyInAction.WaitingForAnEvent

open Interleaving ExclusiveLock

variable {T V : Type*}

/-! ### The elements in the queue -/

/-- The thread is on its way to notify for an element that it has pushed, or to take one. -/
def Point.credit : Point V → ℕ
  | .pushUnlock | .notifyOne | .waitTest | .front | .pop _ => 1
  | _ => 0

variable [Fintype T]

/-- The elements beyond those that some thread is on its way for. -/
def demand (g : Shared T V) (locals : T → Thread V) : ℕ :=
  g.dataQueue.length - ∑ t, (locals t).point.credit

/-- **Coverage.** -/
def Coverage (s : Config T (Shared T V) (Thread V)) : Prop :=
  s.shared.dataCond.Covered (demand s.shared s.locals)

variable [DecidableEq T] {lastChunk : V → Bool} {role : T → Role} {t : T} {c : Choice T V}
  {g : Shared T V} {l : Thread V} {s : Config T (Shared T V) (Thread V)}

/-- What the demand loses or gains when one thread moves. -/
theorem sum_credit_update (locals : T → Thread V) (t : T) (l : Thread V) :
    ∑ u, (Function.update locals t l u).point.credit + (locals t).point.credit =
      ∑ u, (locals u).point.credit + l.point.credit :=
  Config.sum_work_update (fun l : Thread V => l.point.credit) locals t l

/-- A step that adds no more to the queue than to the credits. -/
theorem demand_update_le {n k : ℕ} (hn : (s.locals t).point.credit = n) (hk : l.point.credit = k)
    (hle : g.dataQueue.length + n ≤ s.shared.dataQueue.length + k) :
    demand g (Function.update s.locals t l) ≤ demand s.shared s.locals := by
  have hsum := sum_credit_update s.locals t l
  unfold demand
  omega

/-- One that gives a credit up. -/
theorem demand_update_le_succ (hn : (s.locals t).point.credit = 1) (hk : l.point.credit = 0)
    (hle : g.dataQueue.length ≤ s.shared.dataQueue.length) :
    demand g (Function.update s.locals t l) ≤ demand s.shared s.locals + 1 := by
  have hsum := sum_credit_update s.locals t l
  unfold demand
  omega

/-- One that gains a credit. -/
theorem demand_update_le_pred (hn : (s.locals t).point.credit = 0) (hk : l.point.credit = 1)
    (hle : g.dataQueue.length ≤ s.shared.dataQueue.length) :
    demand g (Function.update s.locals t l) ≤ demand s.shared s.locals - 1 := by
  have hsum := sum_credit_update s.locals t l
  unfold demand
  omega

/-- **The step lemma.** -/
theorem Step.coverage (hS : SharedAssertion s.shared)
    (h : Assertion lastChunk role t s.shared (s.locals t)) (hcov : Coverage s)
    (hstep : Step lastChunk t s.shared (s.locals t) c g l) :
    Coverage ⟨g, Function.update s.locals t l⟩ := by
  have hcov' : s.shared.dataCond.Covered (demand s.shared s.locals) := hcov
  have hcredit : ∀ {p : Point V}, (s.locals t).point = p → (s.locals t).point.credit = p.credit :=
    fun hp => congrArg Point.credit hp
  cases hstep with
  | moreData hp | noMoreData hp | prepares _ hp | findsChunk hp _ | copies _ _ hp _
  | processes _ hp | breaks _ hp _ | goesOn _ hp _ =>
    exact hcov'.mono (demand_update_le (hcredit hp) rfl (Nat.le_refl _))
  | locks hp _ =>
    obtain ⟨data, hp, rfl⟩ | ⟨hp, rfl⟩ := hp
    · exact hcov'.mono (demand_update_le (hcredit hp) rfl (Nat.le_refl _))
    · exact hcov'.mono (demand_update_le (hcredit hp) rfl (Nat.le_succ _))
  | unlocks hp =>
    obtain ⟨hp, rfl⟩ | ⟨data, hp, rfl⟩ := hp
    · exact hcov'.mono (demand_update_le (hcredit hp) rfl (Nat.le_refl _))
    · exact hcov'.mono (demand_update_le (hcredit hp) rfl (Nat.le_refl _))
  | pushes data hp =>
    -- who has pushed is about to notify
    refine hcov'.mono (demand_update_le (hcredit hp) rfl ?_)
    show (s.shared.dataQueue ++ [data]).length + 0 ≤ s.shared.dataQueue.length + 1
    rw [List.length_append]
    exact Nat.le_refl _
  | notifies hp hu =>
    exact (hcov'.notify hS.disjoint hu).mono
      (demand_update_le_succ (hcredit hp) rfl (Nat.le_refl _))
  | notifiesNobody hp hnone => exact ConditionVariable.covered_of_asleep_eq_empty hnone
  | findsEmpty hp hq =>
    refine hcov'.mono ?_
    show demand s.shared _ ≤ _
    rw [demand, hq, List.length_nil, Nat.zero_sub]
    exact Nat.zero_le _
  | sleeps hp =>
    have hq : s.shared.dataQueue = [] := known_at h.inRegion hp trivial
    show (s.shared.dataCond.sleep t).Covered (s.shared.dataQueue.length - _)
    rw [hq, List.length_nil, Nat.zero_sub]
    exact ConditionVariable.covered_zero
  | wakesSpuriously hp hasleep =>
    refine (hcov'.wake hS.disjoint hasleep).mono ?_
    rw [Function.update_eq_self]
    exact Nat.le_refl _
  | relocks hp hwoken _ =>
    exact (hcov'.leave hwoken).mono (demand_update_le_pred (hcredit hp) rfl (Nat.le_refl _))
  | pops data first rest hp hq =>
    refine hcov'.mono (demand_update_le (hcredit hp) rfl ?_)
    rw [hq]
    exact Nat.le_refl _
  | undefined hp he => exact absurd he (ne_nil_at h.inRegion hp)

/-- **The coverage** holds in every reachable state. -/
theorem reachable_coverage {ok : Config T (Shared T V) (Thread V) → T → Choice T V → Prop}
    (hs : Reachable (program lastChunk) ok (initial role) s) : Coverage s := by
  refine hs.invariant ?_ fun s t c g l hr hcov _ hp => ?_
  · exact ConditionVariable.covered_of_asleep_eq_empty rfl
  · obtain ⟨hS, hP⟩ := reachable_assertion hr
    exact (step_of_program hp).coverage hS (hP t) hcov

/-- **No wake-up is lost**, though the notification comes after `mut` has been given up.  Nothing is
taken from an empty queue; the chunks that went into the queue are those that were taken out, in
order, and those in it; each thread has processed what it has taken out, but for the one chunk in
its hands; and while someone sleeps, there is a thread on its way for every chunk in the queue:
woken, about to notify, or about to take one. -/
theorem late_notify {ok : Config T (Shared T V) (Thread V) → T → Choice T V → Prop}
    (hs : Reachable (program lastChunk) ok (initial role) s) :
    (∀ t, (s.locals t).point ≠ .undefined) ∧
    s.shared.pushed = s.shared.popped.map Prod.snd ++ s.shared.dataQueue ∧
    (∀ t, poppedBy t s.shared = (s.locals t).processed ++ (s.locals t).point.inHand) ∧
    (s.shared.dataCond.asleep.Nonempty → s.shared.dataQueue.length ≤
      s.shared.dataCond.woken.card + ∑ t, (s.locals t).point.credit) := by
  obtain ⟨hS, hP⟩ := reachable_assertion hs
  refine ⟨fun t hp => known_at (hP t).inRegion hp trivial, hS.ledger, fun t => (hP t).received,
    fun hasleep => ?_⟩
  have hle := reachable_coverage hs hasleep
  unfold demand at hle
  omega

/-- A preparation thread and a processing thread. -/
def oneOfEach : Bool → Role
  | false => .dataPreparationThread
  | true => .dataProcessingThread

/-- The processing thread sleeps, and a chunk is in the queue that nobody has been notified of. -/
def lateRun : List (Bool × Choice Bool ℕ) :=
  [(true, .run), (true, .run), (true, .run), (false, .moreDataToPrepare true),
   (false, .prepareData 7), (false, .run), (false, .run), (false, .run)]

theorem late_notify_lateRun :
    ∃ s, (initial oneOfEach).run (program (· = 7)) lateRun = some s ∧ s.shared.dataQueue = [7] ∧
      s.shared.dataCond.asleep = {true} ∧
      (s.shared.dataCond.asleep.Nonempty → s.shared.dataQueue.length ≤
        s.shared.dataCond.woken.card + ∑ t, (s.locals t).point.credit) := by
  have hr : Reachable (program (· = 7)) anyStep (initial oneOfEach)
      (((initial oneOfEach).run (program (· = 7)) lateRun).get (by decide)) :=
    Reachable.of_run_any lateRun (Option.some_get _).symm
  exact ⟨_, (Option.some_get (by decide)).symm, by decide, by decide, (late_notify hr).2.2.2⟩

/-! ### What is left to do -/

/-- No more data is prepared, and nobody wakes spuriously. -/
structure Settling (s : Config T (Shared T V) (Thread V)) (t : T) (c : Choice T V) : Prop where
  noMoreData : c ≠ .moreDataToPrepare true
  notSpurious : c ≠ .spurious

/-- The steps a thread still needs when it is left alone. -/
def Point.work : Point V → ℕ
  | .moreDataToPrepare => 1
  | .prepareData => 16
  | .pushLock _ => 15
  | .push _ => 14
  | .pushUnlock => 6
  | .notifyOne => 5
  | .popLock => 3
  | .waitTest => 2
  | .waitSleep => 1
  | .front => 1
  | .popUnlock _ => 6
  | .process _ => 5
  | .isLastChunk _ => 4
  | .prepared | .waiting | .pop _ | .ended | .undefined => 0

/-- A chunk is worth what is done with it, and a woken thread its next test. -/
def Shared.work (g : Shared T V) : ℕ := 7 * g.dataQueue.length + 3 * g.dataCond.woken.card

omit [Fintype T] in
/-- **The work goes down.** -/
theorem Step.work_lt (hd : Disjoint s.shared.dataCond.asleep s.shared.dataCond.woken)
    (h : region.Assertion t s.shared (s.locals t)) (hok : Settling s t c)
    (hstep : Step lastChunk t s.shared (s.locals t) c g l) :
    l.point.work + g.work < (s.locals t).point.work + s.shared.work := by
  cases hstep with
  | moreData _ => exact absurd rfl hok.noMoreData
  | noMoreData hp | prepares _ hp | findsEmpty hp _ | findsChunk hp _ | sleeps hp
  | notifiesNobody hp _ | copies _ _ hp _ | processes _ hp | breaks _ hp _ | goesOn _ hp _ =>
    rw [hp]
    refine Nat.add_lt_add_right ?_ _
    simp [Point.work, Thread.goto]
  | locks hp _ =>
    refine Nat.add_lt_add_right ?_ _
    obtain ⟨data, hp, rfl⟩ | ⟨hp, rfl⟩ := hp <;> rw [hp] <;> exact Nat.lt_succ_self _
  | unlocks hp =>
    refine Nat.add_lt_add_right ?_ _
    obtain ⟨hp, rfl⟩ | ⟨data, hp, rfl⟩ := hp <;> rw [hp] <;> exact Nat.lt_succ_self _
  | pushes data hp =>
    rw [hp]
    show 6 + (7 * (s.shared.dataQueue ++ [data]).length + 3 * s.shared.dataCond.woken.card) <
      14 + (7 * s.shared.dataQueue.length + 3 * s.shared.dataCond.woken.card)
    rw [List.length_append, List.length_singleton]
    omega
  | @notifies u hp hu =>
    have hcard := ConditionVariable.card_woken_wake hd hu
    rw [hp]
    show 1 + (7 * s.shared.dataQueue.length + 3 * (s.shared.dataCond.wake u).woken.card) <
      5 + (7 * s.shared.dataQueue.length + 3 * s.shared.dataCond.woken.card)
    omega
  | wakesSpuriously hp _ => exact absurd rfl hok.notSpurious
  | relocks hp hwoken _ =>
    have hcard := Finset.card_erase_of_mem hwoken
    have hpos := Finset.card_pos.mpr ⟨t, hwoken⟩
    rw [hp]
    show 2 + (7 * s.shared.dataQueue.length + 3 * (s.shared.dataCond.woken.erase t).card) <
      0 + (7 * s.shared.dataQueue.length + 3 * s.shared.dataCond.woken.card)
    omega
  | pops data first rest hp hq =>
    rw [hp]
    show 6 + (7 * rest.length + 3 * s.shared.dataCond.woken.card) <
      0 + (7 * s.shared.dataQueue.length + 3 * s.shared.dataCond.woken.card)
    rw [hq, List.length_cons]
    omega
  | undefined hp he => exact absurd he (ne_nil_at h hp)

/-! ### Who can go on -/

/-- The thread can take a step of those. -/
def CanSettle (lastChunk : V → Bool) (s : Config T (Shared T V) (Thread V)) (t : T) : Prop :=
  ∃ c s', Settling s t c ∧ s.step (program lastChunk) t c = some s'

omit [Fintype T] in
theorem canSettle_of_isSome (hok : Settling s t c)
    (h : (program lastChunk t c s.shared (s.locals t)).isSome) : CanSettle lastChunk s t := by
  obtain ⟨⟨g, l⟩, hr⟩ := Option.isSome_iff_exists.mp h
  exact ⟨c, _, hok, Config.step_eq_some.mpr ⟨g, l, hr, rfl⟩⟩

omit [Fintype T] [DecidableEq T] in
theorem settling_run : Settling s t .run := ⟨nofun, nofun⟩

omit [Fintype T] [DecidableEq T] in
theorem settling_noMoreData : Settling s t (.moreDataToPrepare false) := ⟨nofun, nofun⟩

omit [Fintype T] [DecidableEq T] in
theorem settling_prepareData (data : V) : Settling s t (.prepareData data) := ⟨nofun, nofun⟩

omit [Fintype T] [DecidableEq T] in
theorem settling_notify (sleeper : Option T) : Settling s t (.notify sleeper) := ⟨nofun, nofun⟩

omit [Fintype T] in
theorem canSettle_of_run (h : (program lastChunk t .run s.shared (s.locals t)).isSome) :
    CanSettle lastChunk s t :=
  canSettle_of_isSome settling_run h

omit [Fintype T] in
/-- Whoever holds `mut` can go on. -/
theorem canSettle_of_owner (h : region.Assertion t s.shared (s.locals t))
    (hown : s.shared.dataMut = some t) : CanSettle lastChunk s t := by
  have hin : (s.locals t).point.HoldsMut := h.owns.mp hown
  cases hp : (s.locals t).point with
  | undefined => exact (known_at h hp trivial).elim
  | push | pushUnlock | waitTest | waitSleep | popUnlock =>
    refine canSettle_of_run ?_
    simp only [program, hp, Option.isSome_some]
  | front | pop =>
    refine canSettle_of_run ?_
    simp only [program, hp]
    split <;> rfl
  | moreDataToPrepare | prepareData | pushLock | notifyOne | prepared | popLock | waiting | process
  | isLastChunk | ended =>
    rw [hp] at hin
    exact hin.elim

omit [Fintype T] in
/-- While `mut` is free, a thread can go on unless it sleeps or has left. -/
theorem canSettle_of_free [Nonempty V] (h : region.Assertion t s.shared (s.locals t))
    (hwaits : s.shared.dataCond.Waiting t ↔ (s.locals t).point.InWait)
    (hfree : s.shared.dataMut = none) (hawake : t ∉ s.shared.dataCond.asleep)
    (hprepared : (s.locals t).point ≠ .prepared) (hended : (s.locals t).point ≠ .ended) :
    CanSettle lastChunk s t := by
  have hout : ¬ (s.locals t).point.HoldsMut := by
    intro hin
    have hown : s.shared.dataMut = some t := h.owns.mpr hin
    rw [hfree] at hown
    exact nomatch hown
  cases hp : (s.locals t).point with
  | moreDataToPrepare =>
    refine canSettle_of_isSome settling_noMoreData ?_
    simp only [program, hp, Option.isSome_some]
  | prepareData =>
    obtain ⟨data⟩ := ‹Nonempty V›
    refine canSettle_of_isSome (settling_prepareData data) ?_
    simp only [program, hp, Option.isSome_some]
  | notifyOne =>
    rcases Finset.eq_empty_or_nonempty s.shared.dataCond.asleep with hnone | ⟨u, hu⟩
    · refine canSettle_of_isSome (settling_notify none) ?_
      simp only [program, hp, hnone, if_pos, Option.isSome_some]
    · refine canSettle_of_isSome (settling_notify (some u)) ?_
      simp only [program, hp, if_pos hu, Option.isSome_some]
  | pushLock | popLock =>
    refine canSettle_of_run ?_
    simp only [program, hp, lockMut, if_pos hfree, Option.isSome_some]
  | waiting =>
    have hwoken : t ∈ s.shared.dataCond.woken :=
      (hwaits.mpr (by rw [hp]; exact trivial)).resolve_left hawake
    refine canSettle_of_run ?_
    simp only [program, hp, lockMut, if_pos hwoken, if_pos hfree, Option.isSome_some]
  | process | isLastChunk =>
    refine canSettle_of_run ?_
    simp only [program, hp, Option.isSome_some]
  | prepared => exact absurd hp hprepared
  | ended => exact absurd hp hended
  | push | pushUnlock | waitTest | waitSleep | front | pop | popUnlock | undefined =>
    rw [hp] at hout
    exact absurd trivial hout

/-! ### Every run -/

/-- `mut` is free, the preparation threads have left, and every processing thread has left its loop
or sleeps; a chunk is left behind only when all of them have left. -/
structure Ended (role : T → Role) (s : Config T (Shared T V) (Thread V)) : Prop where
  free : s.shared.dataMut = none
  prepared : ∀ t, role t = .dataPreparationThread → (s.locals t).point = .prepared
  stopped : ∀ t, role t = .dataProcessingThread →
    (s.locals t).point = .ended ∨ t ∈ s.shared.dataCond.asleep
  rest : s.shared.dataQueue = [] ∨
    ∀ t, role t = .dataProcessingThread → (s.locals t).point = .ended

/-- **Nobody is stuck before.** -/
theorem exists_step_of_not_ended [Nonempty V]
    (hs : Reachable (program lastChunk) anyStep (initial role) s) (hnot : ¬ Ended role s) :
    ∃ t, CanSettle lastChunk s t := by
  by_contra hno
  rw [not_exists] at hno
  apply hnot
  obtain ⟨hS, hP⟩ := reachable_assertion hs
  have hfree : s.shared.dataMut = none := by
    by_contra hheld
    obtain ⟨t, ht⟩ := Option.ne_none_iff_exists'.mp hheld
    exact hno t (canSettle_of_owner (hP t).inRegion ht)
  have hstopped : ∀ t, t ∈ s.shared.dataCond.asleep ∨ (s.locals t).point = .prepared ∨
      (s.locals t).point = .ended := by
    intro t
    by_contra h
    rw [not_or, not_or] at h
    exact hno t (canSettle_of_free (hP t).inRegion (hP t).waits hfree h.1 h.2.1 h.2.2)
  have hwaiting : ∀ t, s.shared.dataCond.Waiting t → (s.locals t).point = .waiting :=
    fun t ht => Point.eq_waiting_of_inWait ((hP t).waits.mp ht)
  have hruns := fun t => (hP t).runs
  refine ⟨hfree, fun t hrole => ?_, fun t hrole => ?_, ?_⟩
  · have hrun := hruns t
    rw [hrole] at hrun
    rcases hstopped t with h | h | h
    · rw [hwaiting t (.inl h)] at hrun
      exact hrun.elim
    · exact h
    · rw [h] at hrun
      exact hrun.elim
  · have hrun := hruns t
    rw [hrole] at hrun
    rcases hstopped t with h | h | h
    · exact .inr h
    · rw [h] at hrun
      exact hrun.elim
    · exact .inl h
  · by_cases hasleep : s.shared.dataCond.asleep.Nonempty
    · -- nobody is on its way any more, so the queue is empty
      left
      have hle := (late_notify hs).2.2.2 hasleep
      have hcredit : ∑ t, (s.locals t).point.credit = 0 := by
        refine Finset.sum_eq_zero fun t _ => ?_
        rcases hstopped t with h | h | h
        · rw [hwaiting t (.inl h)]
          rfl
        · rw [h]
          rfl
        · rw [h]
          rfl
      have hwoken : s.shared.dataCond.woken = ∅ := by
        rw [Finset.eq_empty_iff_forall_notMem]
        intro t ht
        rcases hstopped t with h | h | h
        · exact Finset.disjoint_left.mp hS.disjoint h ht
        · exact nomatch h.symm.trans (hwaiting t (.inr ht))
        · exact nomatch h.symm.trans (hwaiting t (.inr ht))
      rw [hcredit, hwoken, Finset.card_empty] at hle
      exact List.length_eq_zero_iff.mp (Nat.le_zero.mp hle)
    · right
      intro t hrole
      have hrun := hruns t
      rw [hrole] at hrun
      rcases hstopped t with h | h | h
      · exact absurd ⟨t, h⟩ hasleep
      · rw [h] at hrun
        exact hrun.elim
      · exact h

/-- **How the threads end.**  From every reachable state, once no more data is prepared and nobody
wakes spuriously, every run comes to an end, and only in a state where all threads have ended or
sleep.  There, every chunk that was taken out has been processed by the thread that took it; a
thread that has left its loop has processed one last chunk, at the end, and one that sleeps has
processed none. -/
theorem threads_end [Nonempty V] (hs : Reachable (program lastChunk) anyStep (initial role) s) :
    Config.Completes (program lastChunk) Settling (Ended role) s ∧
    (Ended role s →
      (∀ t, poppedBy t s.shared = (s.locals t).processed) ∧
      ∀ t, role t = .dataProcessingThread →
        ((s.locals t).point = .ended ∧ ∃ before data, (s.locals t).processed = before ++ [data] ∧
          lastChunk data = true ∧ ∀ v ∈ before, lastChunk v = false) ∨
        (t ∈ s.shared.dataCond.asleep ∧ ∀ v ∈ (s.locals t).processed, lastChunk v = false)) := by
  refine ⟨?_, fun hended => ?_⟩
  · refine Config.completes_of_potential
      (I := Reachable (program lastChunk) anyStep (initial role)) (fun l => l.point.work)
      Shared.work (fun s t c g l hs hok hp => ?_) (fun s hs hnot => ?_) hs
    · obtain ⟨hS, hP⟩ := reachable_assertion hs
      exact ⟨hs.step trivial (Config.step_eq_some.mpr ⟨g, l, hp, rfl⟩),
        (step_of_program hp).work_lt hS.disjoint (hP t).inRegion hok⟩
    · obtain ⟨t, c, s', hok, hst⟩ := exists_step_of_not_ended hs hnot
      exact ⟨t, c, s', hok, hst⟩
  · obtain ⟨-, hP⟩ := reachable_assertion hs
    have hpoint : ∀ t, t ∈ s.shared.dataCond.asleep → (s.locals t).point = .waiting :=
      fun t ht => Point.eq_waiting_of_inWait ((hP t).waits.mp (.inl ht))
    have hhand : ∀ t, (s.locals t).point.inHand = [] := by
      intro t
      cases hrole : role t with
      | dataPreparationThread =>
        rw [hended.prepared t hrole]
        rfl
      | dataProcessingThread =>
        rcases hended.stopped t hrole with h | h
        · rw [h]
          rfl
        · rw [hpoint t h]
          rfl
    refine ⟨fun t => ?_, fun t hrole => ?_⟩
    · rw [(hP t).received, hhand t, List.append_nil]
    · have hinspected := (hP t).inspected
      rcases hended.stopped t hrole with h | h
      · rw [Inspected, h] at hinspected
        exact .inl ⟨h, hinspected⟩
      · rw [Inspected, hpoint t h] at hinspected
        exact .inr ⟨h, hinspected⟩

/-- The notification comes, the processing thread takes the chunk, which is the last one, and the
preparation thread has no more data. -/
def lateEnd : List (Bool × Choice Bool ℕ) :=
  (false, .notify (some true)) :: List.replicate 7 (true, .run) ++
    [(false, .moreDataToPrepare false)]

theorem threads_end_lateRun :
    ∃ s s', (initial oneOfEach).run (program (· = 7)) lateRun = some s ∧
      s.run (program (· = 7)) lateEnd = some s' ∧
      Config.Completes (program (· = 7)) Settling (Ended oneOfEach) s ∧
      Ended oneOfEach s' ∧ (s'.locals true).processed = [7] ∧
      (∀ t, poppedBy t s'.shared = (s'.locals t).processed) := by
  have hrun : ((initial oneOfEach).run (program (· = 7)) lateRun).isSome := by decide
  have hlast : ((((initial oneOfEach).run (program (· = 7)) lateRun).get hrun).run
      (program (· = 7)) lateEnd).isSome := by rfl
  have hs : Reachable (program (· = 7)) anyStep (initial oneOfEach)
      (((initial oneOfEach).run (program (· = 7)) lateRun).get hrun) :=
    .of_run_any lateRun (Option.some_get hrun).symm
  have hs' := hs.trans (.of_run_any lateEnd (Option.some_get hlast).symm)
  refine ⟨_, _, (Option.some_get hrun).symm, (Option.some_get hlast).symm, (threads_end hs).1, ?_⟩
  have hended : Ended oneOfEach (((((initial oneOfEach).run (program (· = 7)) lateRun).get hrun).run
      (program (· = 7)) lateEnd).get hlast) := by
    refine ⟨rfl, fun t ht => ?_, fun t ht => .inl ?_, .inl rfl⟩
    · cases t with
      | false => rfl
      | true => exact nomatch ht
    · cases t with
      | false => exact nomatch ht
      | true => rfl
  exact ⟨hended, rfl, ((threads_end hs').2 hended).1⟩

end ConcurrencyInAction.WaitingForAnEvent
