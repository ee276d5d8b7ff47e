import ConcurrencyInAction.ThreadsafeQueue.Model
import ConcurrencyInAction.Lib.CriticalRegion
import ConcurrencyInAction.Lib.SequentialSpec

/-!
# `threadsafe_queue` is a FIFO queue, exceptions included

* `FifoStep`: the sequential queue the class is a thread-safe version of; an operation that reports
  failure finds the queue empty, and one that throws leaves it alone;
* `region`: `mut` guards the container and the history; what a thread inside knows at each point;
* `Step.move`, `Step.waits`: what a step does to `mut` and the data it guards, and to `data_cond`;
* `fifo_delivery`: the history is a legal history of the sequential queue that leads to the present
  contents, and nothing is lost, duplicated or reordered.
-/

namespace ConcurrencyInAction.ThreadsafeQueue

open Interleaving ExclusiveLock SequentialSpec

variable {T V : Type*}

/-! ### The sequential queue -/

/-- One operation on a sequential queue, by how it ends. -/
inductive FifoStep : List V → Result V → List V → Prop
  | pushed (q : List V) (v : V) : FifoStep q (.pushed v) (q ++ [v])
  | popped (o : Overload) (v : V) (q : List V) : FifoStep (v :: q) (.popped o v) q
  | failed (o : Overload) : FifoStep [] (.failed o) []
  | threw (q : List V) : FifoStep q .threw q

/-- The value of a push that succeeded. -/
def Result.pushedValue : Result V → Option V
  | .pushed v => some v
  | _ => none

/-- The value delivered by a pop that neither threw nor reported failure. -/
def Result.deliveredValue : Result V → Option V
  | .popped _ v => some v
  | _ => none

/-- One operation neither loses nor duplicates a value. -/
theorem FifoStep.ledger {q q' : List V} {r : Result V} (h : FifoStep q r q') :
    q ++ r.pushedValue.toList = r.deliveredValue.toList ++ q' := by
  cases h with
  | pushed v => rfl
  | popped o v => simp [Result.pushedValue, Result.deliveredValue]
  | failed o => rfl
  | threw => simp [Result.pushedValue, Result.deliveredValue]

/-- The results in `history` lead a sequential queue from empty to `q`. -/
abbrev FifoHistory (history : List (Result V)) (q : List V) : Prop := Legal FifoStep [] history q

/-! ### The critical region -/

/-- The points at which a thread holds `mut`. -/
def Point.HoldsMut : Point V → Prop
  | .idle | .pushLock _ | .tryLock _ | .waitLock _ | .waiting _ => False
  | _ => True

/-- The point of a thread inside `data_cond.wait`, asleep or on its way back to `mut`. -/
def Point.InWait : Point V → Prop
  | .waiting _ => True
  | _ => False

theorem Point.inWait_iff {p : Point V} : p.InWait ↔ ∃ o, p = .waiting o := by
  cases p <;> simp [Point.InWait]

/-- What a thread that holds `mut` knows of the history and the contents: the contents follow from
the history by nothing, or by the operation in progress. -/
def Known : Point V → List (Result V) × List V → Prop
  | .pushContainer _, r | .tryTest _, r | .waitTest _, r => FifoHistory r.1 r.2
  | .pushNotify v, r => ∃ q, FifoHistory r.1 q ∧ FifoStep q (.pushed v) r.2
  | .tryCopy _, r | .waitCopy _, r => FifoHistory r.1 r.2 ∧ r.2 ≠ []
  | .waitSleep _, r => FifoHistory r.1 r.2 ∧ r.2 = []
  | .popContainer _ v, r => FifoHistory r.1 r.2 ∧ ∃ rest, r.2 = v :: rest
  | .unlock res, r => ∃ q, FifoHistory r.1 q ∧ FifoStep q res r.2
  | _, _ => False

/-- `mut` guards the container and the history. -/
def region : CriticalRegion T (Shared T V) (Thread V) (List (Result V) × List V) where
  owner g := g.queueMut
  resource g := (g.history, g.dataQueue)
  Inside l := l.point.HoldsMut
  Invariant r := FifoHistory r.1 r.2
  Known l := Known l.point

variable {t : T} {g g' : Shared T V} {l l' : Thread V}

theorem inside_of_point {p : Point V} (hp : l.point = p) (hin : p.HoldsMut) :
    (region (T := T)).Inside l := by
  show l.point.HoldsMut
  rw [hp]
  exact hin

theorem outside_of_point {p : Point V} (hp : l.point = p) (hout : ¬ p.HoldsMut) :
    ¬ (region (T := T)).Inside l := by
  show ¬ l.point.HoldsMut
  rw [hp]
  exact hout

/-- A thread inside the critical region knows what belongs to its point. -/
theorem known_at (h : region.Assertion t g l) {p : Point V} (hp : l.point = p) (hin : p.HoldsMut) :
    Known p (g.history, g.dataQueue) := by
  have hk : Known l.point (g.history, g.dataQueue) := h.known (inside_of_point hp hin)
  rw [hp] at hk
  exact hk

theorem owns_at (h : region.Assertion t g l) {p : Point V} (hp : l.point = p) (hin : p.HoldsMut) :
    g.queueMut = some t :=
  h.owns.mpr (inside_of_point hp hin)

/-- The container is not empty where its front is copied or removed. -/
theorem ne_nil_at (h : region.Assertion t g l)
    (hp : ∃ o, l.point = .tryCopy o ∨ l.point = .waitCopy o ∨ ∃ v, l.point = .popContainer o v) :
    g.dataQueue ≠ [] := by
  obtain ⟨o, hp | hp | ⟨v, hp⟩⟩ := hp
  · exact (known_at h hp trivial).2
  · exact (known_at h hp trivial).2
  · obtain ⟨-, rest, hfront⟩ := known_at h hp trivial
    rw [show g.dataQueue = v :: rest from hfront]
    exact List.cons_ne_nil v rest

variable [DecidableEq T]

/-- **The step lemma for `mut`.**  Every step is a move of the critical region. -/
theorem Step.move {c : Choice T V} (h : region.Assertion t g l) (hstep : Step t g l c g' l') :
    region.Move t g l g' l' := by
  cases hstep with
  | @call f hp => exact .outside rfl rfl (outside_of_point hp id) (by cases f <;> exact id)
  | @locks p hp hfree =>
    obtain ⟨_, _, rfl⟩ | ⟨_, _, rfl⟩ | ⟨_, _, rfl⟩ := hp <;>
      exact .enter hfree rfl rfl trivial id
  | @pushes v hp =>
    have hk := known_at h hp trivial
    exact .inside rfl (inside_of_point hp trivial) trivial fun _ => ⟨g.dataQueue, hk, .pushed _ v⟩
  | pushThrows hp =>
    have hk := known_at h hp trivial
    exact .inside rfl (inside_of_point hp trivial) trivial fun _ => ⟨g.dataQueue, hk, .threw _⟩
  | notifies hp _ | notifiesNobody hp _ =>
    have hk := known_at h hp trivial
    exact .inside rfl (inside_of_point hp trivial) trivial fun _ => hk
  | @tryFindsEmpty o hp he =>
    have hk := known_at h hp trivial
    refine .inside rfl (inside_of_point hp trivial) trivial fun _ => ⟨g.dataQueue, hk, ?_⟩
    show FifoStep g.dataQueue (.failed o) g.dataQueue
    rw [he]
    exact .failed o
  | tryFindsValue hp hq | waitFindsValue hp hq | waitFindsEmpty hp hq =>
    have hk := known_at h hp trivial
    exact .inside rfl (inside_of_point hp trivial) trivial fun _ => ⟨hk, hq⟩
  | sleeps hp =>
    have hk := known_at h hp trivial
    exact .leave rfl (inside_of_point hp trivial) id fun _ => hk.1
  | wakesSpuriously hp _ =>
    exact .outside rfl rfl (outside_of_point hp id) (outside_of_point hp id)
  | relocks _ _ hfree => exact .enter hfree rfl rfl trivial id
  | copies hp hq =>
    rcases hp with hp | hp <;> have hk := known_at h hp trivial <;>
      exact .inside rfl (inside_of_point hp trivial) trivial fun _ => ⟨hk.1, _, hq⟩
  | tryCopyThrows hp | waitCopyThrows hp =>
    have hk := known_at h hp trivial
    exact .inside rfl (inside_of_point hp trivial) trivial fun _ => ⟨g.dataQueue, hk.1, .threw _⟩
  | @pops o v w rest hp hq =>
    obtain ⟨hlegal, rest', hfront⟩ := known_at h hp trivial
    -- the copy handed out is the element removed, as nobody else changed the queue in between
    obtain ⟨rfl, rfl⟩ := List.cons.inj (hq.symm.trans hfront)
    refine .inside rfl (inside_of_point hp trivial) trivial
      fun _ => ⟨w :: rest, ?_, .popped o w rest⟩
    show FifoHistory g.history (w :: rest)
    rw [← hq]
    exact hlegal
  | unlocks hp =>
    obtain ⟨q, hlegal, hone⟩ := known_at h hp trivial
    exact .leave rfl (inside_of_point hp trivial) id fun _ => hlegal.snoc hone
  | undefined hp he => exact absurd he (ne_nil_at h hp)

/-- **The step lemma for `data_cond`.**  A thread is inside `wait` exactly at that point, nobody
sleeps and is woken at once, and a step moves no other thread into or out of `wait`. -/
theorem Step.waits {c : Choice T V} (hd : Disjoint g.dataCond.asleep g.dataCond.woken)
    (hw : g.dataCond.Waiting t ↔ l.point.InWait) (hstep : Step t g l c g' l') :
    Disjoint g'.dataCond.asleep g'.dataCond.woken ∧
      (g'.dataCond.Waiting t ↔ l'.point.InWait) ∧
      ∀ u, u ≠ t → (g'.dataCond.Waiting u ↔ g.dataCond.Waiting u) := by
  cases hstep with
  | @call f hp =>
    rw [hp] at hw
    exact ⟨hd, by cases f <;> exact hw, fun _ _ => Iff.rfl⟩
  | @locks p hp _ =>
    refine ⟨hd, ?_, fun _ _ => Iff.rfl⟩
    obtain ⟨_, hp, rfl⟩ | ⟨_, hp, rfl⟩ | ⟨_, hp, rfl⟩ := hp <;> rw [hp] at hw <;> exact hw
  | pushes hp | pushThrows hp | notifiesNobody hp _ | tryFindsEmpty hp _ | tryFindsValue hp _
  | waitFindsEmpty hp _ | waitFindsValue hp _ | tryCopyThrows hp | waitCopyThrows hp | pops hp _
  | unlocks hp =>
    rw [hp] at hw
    exact ⟨hd, hw, fun _ _ => Iff.rfl⟩
  | copies hp _ =>
    rcases hp with hp | hp <;> rw [hp] at hw <;> exact ⟨hd, hw, fun _ _ => Iff.rfl⟩
  | undefined hp _ =>
    obtain ⟨o, hp | hp | ⟨v, hp⟩⟩ := hp <;> rw [hp] at hw <;> exact ⟨hd, hw, fun _ _ => Iff.rfl⟩
  | notifies hp hu =>
    rw [hp] at hw
    exact ⟨ConditionVariable.disjoint_wake hd, (ConditionVariable.waiting_wake hu).trans hw,
      fun _ _ => ConditionVariable.waiting_wake hu⟩
  | sleeps hp =>
    have hawake : ¬ g.dataCond.Waiting t := by
      rw [hw, hp]
      exact id
    exact ⟨ConditionVariable.disjoint_sleep hd hawake,
      iff_of_true (ConditionVariable.waiting_sleep.mpr (.inl rfl)) trivial,
      fun _ hu => ConditionVariable.waiting_sleep_of_ne hu⟩
  | wakesSpuriously hp hasleep =>
    exact ⟨ConditionVariable.disjoint_wake hd, (ConditionVariable.waiting_wake hasleep).trans hw,
      fun _ _ => ConditionVariable.waiting_wake hasleep⟩
  | relocks hp hwoken _ =>
    exact ⟨ConditionVariable.disjoint_leave hd,
      iff_of_false (ConditionVariable.not_waiting_leave hd hwoken) id,
      fun _ hu => ConditionVariable.waiting_leave_of_ne hu⟩

/-! ### Every run -/

/-- The assertion about the queue itself. -/
structure SharedAssertion (g : Shared T V) : Prop where
  free : region.Free g
  disjoint : Disjoint g.dataCond.asleep g.dataCond.woken

/-- The assertion of thread `t`. -/
structure Assertion (t : T) (g : Shared T V) (l : Thread V) : Prop where
  inRegion : region.Assertion t g l
  waits : g.dataCond.Waiting t ↔ l.point.InWait

/-- What thread `u` relies on. -/
structure Rely (u : T) (g g' : Shared T V) : Prop where
  inRegion : region.Rely u g g'
  waits : g'.dataCond.Waiting u ↔ g.dataCond.Waiting u

theorem relyGuarantee (ok : Config T (Shared T V) (Thread V) → T → Choice T V → Prop) :
    RelyGuarantee program ok SharedAssertion Assertion Rely where
  stable _ _ _ _ hr h := ⟨h.inRegion.stable hr.inRegion, hr.waits.trans h.waits⟩
  step s t c g' l' hS hP _ hp := by
    have hstep := step_of_program hp
    obtain ⟨hfree, hown, hrely⟩ := (hstep.move (hP t).inRegion).keeps hS.free (hP t).inRegion
    obtain ⟨hd, hw, hother⟩ := hstep.waits hS.disjoint (hP t).waits
    exact ⟨⟨hfree, hd⟩, ⟨hown, hw⟩, fun u hu => ⟨hrely u hu, hother u hu⟩⟩

omit [DecidableEq T] in
theorem initial_assertion :
    SharedAssertion (initial (T := T) (V := V)).shared ∧
      ∀ t, Assertion t (initial (T := T) (V := V)).shared (initial.locals t) := by
  refine ⟨⟨fun _ => .nil, Finset.disjoint_empty_left ∅⟩, fun t => ⟨⟨?_, fun hin => hin.elim⟩, ?_⟩⟩
  · exact iff_of_false nofun id
  · refine iff_of_false ?_ id
    rintro (h | h) <;> exact Finset.notMem_empty t h

/-- **The invariant.**  In every reachable state the queue and every thread satisfy their
assertions, whatever the operations, their order and the exceptions. -/
theorem reachable_assertion {ok : Config T (Shared T V) (Thread V) → T → Choice T V → Prop}
    {s : Config T (Shared T V) (Thread V)} (hs : Reachable program ok initial s) :
    SharedAssertion s.shared ∧ ∀ t, Assertion t s.shared (s.locals t) :=
  hs.rely_guarantee (relyGuarantee ok) initial_assertion

/-- **FIFO delivery.**  In every reachable state `front()` and `pop()` have not been executed on an
empty container, and while `mut` is free the values pushed, in the order of the critical sections,
are the values delivered, in that order, followed by the contents front to back; more than that, the
history is one of the sequential queue. -/
theorem fifo_delivery {s : Config T (Shared T V) (Thread V)}
    (hs : Reachable program anyStep initial s) :
    (∀ t, (s.locals t).point ≠ .undefined) ∧
      (s.shared.queueMut = none →
        s.shared.history.filterMap Result.pushedValue =
          s.shared.history.filterMap Result.deliveredValue ++ s.shared.dataQueue ∧
        FifoHistory s.shared.history s.shared.dataQueue) := by
  obtain ⟨hS, hP⟩ := reachable_assertion hs
  constructor
  · intro t hp
    exact known_at (hP t).inRegion hp trivial
  · intro hfree
    have hlegal : FifoHistory s.shared.history s.shared.dataQueue := hS.free hfree
    have hledger := hlegal.fifo Result.pushedValue Result.deliveredValue
      fun _ _ _ hone => FifoStep.ledger hone
    rw [List.nil_append] at hledger
    exact ⟨hledger, hlegal⟩

/-- Two values are pushed; the copy of the first throws in a `try_pop`, and a `wait_and_pop` by
another thread then delivers it. -/
def copyThrowsRun : List (Bool × Choice Bool Nat) :=
  [(false, .call (.push 1)), (false, .run), (false, .run), (false, .notify none), (false, .run),
   (false, .call (.push 2)), (false, .run), (false, .run), (false, .notify none), (false, .run),
   (false, .call (.tryPop .byReference)), (true, .call (.waitAndPop .byPointer)), (false, .run),
   (false, .run), (false, .throws), (false, .run),
   (true, .run), (true, .run), (true, .run), (true, .run), (true, .run)]

theorem fifo_delivery_copyThrows :
    ∃ s, initial.run program copyThrowsRun = some s ∧
      s.shared.history = [.pushed 1, .pushed 2, .threw, .popped .byPointer 1] ∧
      s.shared.dataQueue = [2] ∧
      s.shared.history.filterMap Result.pushedValue =
        s.shared.history.filterMap Result.deliveredValue ++ s.shared.dataQueue := by
  have hr : Reachable program anyStep initial
      ((initial.run program copyThrowsRun).get (by decide)) :=
    Reachable.of_run_any copyThrowsRun (Option.some_get _).symm
  exact ⟨_, (Option.some_get (by decide)).symm, by decide, by decide,
    ((fifo_delivery hr).2 (by decide)).1⟩

end ConcurrencyInAction.ThreadsafeQueue
