import ConcurrencyInAction.Lib.CriticalRegion
import ConcurrencyInAction.WaitingForAnEvent.Model

/-!
# Waiting for an event: what is delivered

* `region`: `mut` guards `data_queue`; what a thread that holds it knows at each point;
* `Step.waits`: who is inside `wait`;
* `Step.chunks`: what a processing thread has taken out of the queue it has processed, but for the
  chunk in its hands; `Inspected`: it goes on until it has met a last chunk;
* `Role.Runs`: a thread runs its own function;
* `reachable_assertion`: all that holds in every reachable state.
-/

namespace ConcurrencyInAction.WaitingForAnEvent

open Interleaving ExclusiveLock

variable {T V : Type*}

/-! ### The critical region -/

/-- The points at which a thread holds `mut`. -/
def Point.HoldsMut : Point V → Prop
  | .push _ | .pushUnlock | .waitTest | .waitSleep | .front | .pop _ | .popUnlock _ |
    .undefined => True
  | _ => False

/-- What a thread that holds `mut` knows of the queue. -/
def Known : Point V → List V → Prop
  | .waitSleep, q => q = []
  | .front, q => q ≠ []
  | .pop data, q => ∃ rest, q = data :: rest
  | .undefined, _ => False
  | _, _ => True

/-- `mut` guards `data_queue`. -/
def region : CriticalRegion T (Shared T V) (Thread V) (List V) where
  owner g := g.dataMut
  resource g := g.dataQueue
  Inside l := l.point.HoldsMut
  Invariant _ := True
  Known l := Known l.point

variable {lastChunk : V → Bool} {t u : T} {c : Choice T V} {g g' : Shared T V} {l l' : Thread V}

theorem inside_of_point {p : Point V} (hp : l.point = p) (hin : p.HoldsMut) :
    (region (T := T)).Inside l := by
  show l.point.HoldsMut
  rw [hp]
  exact hin

theorem outside_of_point {p : Point V} (hp : l.point = p) (hout : ¬ p.HoldsMut) :
    ¬ (region (T := T)).Inside l := by
  show ¬ l.point.HoldsMut
  rw [hp]
  exact hout

theorem known_at (h : region.Assertion t g l) {p : Point V} (hp : l.point = p) (hin : p.HoldsMut) :
    Known p g.dataQueue := by
  have hk : Known l.point g.dataQueue := h.known (inside_of_point hp hin)
  rw [hp] at hk
  exact hk

/-- The queue is not empty where its front is copied or removed. -/
theorem ne_nil_at (h : region.Assertion t g l)
    (hp : l.point = .front ∨ ∃ data, l.point = .pop data) :
    g.dataQueue ≠ [] := by
  rcases hp with hp | ⟨data, hp⟩
  · exact known_at h hp trivial
  · obtain ⟨rest, hq⟩ := known_at h hp trivial
    rw [hq]
    exact List.cons_ne_nil data rest

section Steps

variable [DecidableEq T]

/-- **The step lemma for `mut`.** -/
theorem Step.move (h : region.Assertion t g l) (hstep : Step lastChunk t g l c g' l') :
    region.Move t g l g' l' := by
  cases hstep with
  | moreData hp | noMoreData hp | prepares _ hp | notifies hp _ | notifiesNobody hp _
  | processes _ hp | breaks _ hp _ | goesOn _ hp _ =>
    exact .outside rfl rfl (outside_of_point hp id) id
  | locks hp hfree =>
    refine .enter hfree rfl rfl ?_ fun _ => ?_
    · obtain ⟨data, -, rfl⟩ | ⟨-, rfl⟩ := hp <;> exact trivial
    · obtain ⟨data, -, rfl⟩ | ⟨-, rfl⟩ := hp <;> exact trivial
  | pushes data hp => exact .inside rfl (inside_of_point hp trivial) trivial fun _ => trivial
  | unlocks hp =>
    obtain ⟨hp, rfl⟩ | ⟨data, hp, rfl⟩ := hp
    · exact .leave rfl (inside_of_point hp trivial) id fun _ => trivial
    · exact .leave rfl (inside_of_point hp trivial) id fun _ => trivial
  | findsEmpty hp hq | findsChunk hp hq =>
    exact .inside rfl (inside_of_point hp trivial) trivial fun _ => hq
  | sleeps hp => exact .leave rfl (inside_of_point hp trivial) id fun _ => trivial
  | wakesSpuriously hp _ => exact .outside rfl rfl (outside_of_point hp id) (outside_of_point hp id)
  | relocks hp _ hfree => exact .enter hfree rfl rfl trivial fun _ => trivial
  | copies data rest hp hq =>
    exact .inside rfl (inside_of_point hp trivial) trivial fun _ => ⟨rest, hq⟩
  | pops data first rest hp _ =>
    exact .inside rfl (inside_of_point hp trivial) trivial fun _ => trivial
  | undefined hp he => exact absurd he (ne_nil_at h hp)

/-- The point of a thread inside `data_cond.wait`. -/
def Point.InWait : Point V → Prop
  | .waiting => True
  | _ => False

/-- **The step lemma for `data_cond`.** -/
theorem Step.waits (hd : Disjoint g.dataCond.asleep g.dataCond.woken)
    (hw : g.dataCond.Waiting t ↔ l.point.InWait) (hstep : Step lastChunk t g l c g' l') :
    Disjoint g'.dataCond.asleep g'.dataCond.woken ∧
      (g'.dataCond.Waiting t ↔ l'.point.InWait) ∧
      ∀ u, u ≠ t → (g'.dataCond.Waiting u ↔ g.dataCond.Waiting u) := by
  cases hstep with
  | moreData hp | noMoreData hp | prepares _ hp | pushes _ hp | notifiesNobody hp _
  | findsEmpty hp _ | findsChunk hp _ | copies _ _ hp _ | pops _ _ _ hp _ | processes _ hp
  | breaks _ hp _ | goesOn _ hp _ =>
    rw [hp] at hw
    exact ⟨hd, hw, fun _ _ => Iff.rfl⟩
  | locks hp _ =>
    refine ⟨hd, ?_, fun _ _ => Iff.rfl⟩
    obtain ⟨data, hp, rfl⟩ | ⟨hp, rfl⟩ := hp <;> rw [hp] at hw <;> exact hw
  | unlocks hp =>
    refine ⟨hd, ?_, fun _ _ => Iff.rfl⟩
    obtain ⟨hp, rfl⟩ | ⟨data, hp, rfl⟩ := hp <;> rw [hp] at hw <;> exact hw
  | notifies hp hu =>
    rw [hp] at hw
    exact ⟨ConditionVariable.disjoint_wake hd, (ConditionVariable.waiting_wake hu).trans hw,
      fun _ _ => ConditionVariable.waiting_wake hu⟩
  | sleeps hp =>
    have hawake : ¬ g.dataCond.Waiting t := by
      rw [hw, hp]
      exact id
    exact ⟨ConditionVariable.disjoint_sleep hd hawake,
      iff_of_true (ConditionVariable.waiting_sleep.mpr (.inl rfl)) trivial,
      fun _ hu => ConditionVariable.waiting_sleep_of_ne hu⟩
  | wakesSpuriously hp hasleep =>
    exact ⟨ConditionVariable.disjoint_wake hd, (ConditionVariable.waiting_wake hasleep).trans hw,
      fun _ _ => ConditionVariable.waiting_wake hasleep⟩
  | relocks hp hwoken _ =>
    exact ⟨ConditionVariable.disjoint_leave hd,
      iff_of_false (ConditionVariable.not_waiting_leave hd hwoken) id,
      fun _ hu => ConditionVariable.waiting_leave_of_ne hu⟩
  | undefined hp _ =>
    rcases hp with hp | ⟨data, hp⟩ <;> rw [hp] at hw <;> exact ⟨hd, hw, fun _ _ => Iff.rfl⟩

end Steps

/-! ### Chunks -/

/-- What the thread has taken out of the queue and has not processed yet. -/
def Point.inHand : Point V → List V
  | .popUnlock data | .process data => [data]
  | _ => []

/-- The chunks that the thread has taken out, in order. -/
def poppedBy [DecidableEq T] (t : T) (g : Shared T V) : List V :=
  (g.popped.filter (·.1 = t)).map Prod.snd

/-- The last chunk that a thread has processed is what it inspects, or has left its loop with; the
other ones were not last chunks. -/
def Inspected (lastChunk : V → Bool) (l : Thread V) : Prop :=
  match l.point with
  | .isLastChunk data =>
      ∃ before, l.processed = before ++ [data] ∧ ∀ v ∈ before, lastChunk v = false
  | .ended => ∃ before data, l.processed = before ++ [data] ∧ lastChunk data = true ∧
      ∀ v ∈ before, lastChunk v = false
  | _ => ∀ v ∈ l.processed, lastChunk v = false

/-- The points of the function that the thread runs. -/
def Role.Runs : Role → Point V → Prop
  | .dataPreparationThread, .moreDataToPrepare | .dataPreparationThread, .prepareData
  | .dataPreparationThread, .pushLock _ | .dataPreparationThread, .push _
  | .dataPreparationThread, .pushUnlock | .dataPreparationThread, .notifyOne
  | .dataPreparationThread, .prepared => True
  | .dataProcessingThread, .popLock | .dataProcessingThread, .waitTest
  | .dataProcessingThread, .waitSleep | .dataProcessingThread, .waiting
  | .dataProcessingThread, .front | .dataProcessingThread, .pop _
  | .dataProcessingThread, .popUnlock _ | .dataProcessingThread, .process _
  | .dataProcessingThread, .isLastChunk _ | .dataProcessingThread, .ended => True
  | _, _ => False

section Chunks

variable [DecidableEq T] {role : Role}

/-- **The step lemma for the chunks.** -/
theorem Step.chunks (h : region.Assertion t g l)
    (hledger : g.pushed = g.popped.map Prod.snd ++ g.dataQueue)
    (hreceived : poppedBy t g = l.processed ++ l.point.inHand)
    (hstep : Step lastChunk t g l c g' l') :
    g'.pushed = g'.popped.map Prod.snd ++ g'.dataQueue ∧
      poppedBy t g' = l'.processed ++ l'.point.inHand ∧
      ∀ u, u ≠ t → poppedBy u g' = poppedBy u g := by
  cases hstep with
  | moreData hp | noMoreData hp | prepares _ hp | notifies hp _ | notifiesNobody hp _
  | findsEmpty hp _ | findsChunk hp _ | sleeps hp | relocks hp _ _ | copies _ _ hp _
  | breaks _ hp _ | goesOn _ hp _ =>
    rw [hp] at hreceived
    exact ⟨hledger, hreceived, fun _ _ => rfl⟩
  | wakesSpuriously hp _ => exact ⟨hledger, hreceived, fun _ _ => rfl⟩
  | locks hp _ =>
    refine ⟨hledger, ?_, fun _ _ => rfl⟩
    obtain ⟨data, hp, rfl⟩ | ⟨hp, rfl⟩ := hp <;> rw [hp] at hreceived <;> exact hreceived
  | unlocks hp =>
    refine ⟨hledger, ?_, fun _ _ => rfl⟩
    obtain ⟨hp, rfl⟩ | ⟨data, hp, rfl⟩ := hp <;> rw [hp] at hreceived <;> exact hreceived
  | pushes data hp =>
    rw [hp] at hreceived
    refine ⟨?_, hreceived, fun _ _ => rfl⟩
    show g.pushed ++ [data] = g.popped.map Prod.snd ++ (g.dataQueue ++ [data])
    rw [hledger, List.append_assoc]
  | pops data first rest hp hq =>
    obtain ⟨rest', hfront⟩ := known_at h hp trivial
    -- nobody else has changed the queue since the chunk was copied
    obtain ⟨rfl, rfl⟩ := List.cons.inj (hq.symm.trans hfront)
    rw [hp] at hreceived
    refine ⟨?_, ?_, fun u hu => ?_⟩
    · show g.pushed = (g.popped ++ [(t, first)]).map Prod.snd ++ rest
      rw [hledger, hq, List.map_append, List.append_assoc]
      rfl
    · show ((g.popped ++ [(t, first)]).filter (·.1 = t)).map Prod.snd = l.processed ++ [first]
      rw [List.filter_append, List.map_append]
      refine congrArg₂ (· ++ ·) (hreceived.trans (List.append_nil _)) ?_
      simp
    · show ((g.popped ++ [(t, first)]).filter (·.1 = u)).map Prod.snd = poppedBy u g
      rw [List.filter_append, List.map_append, poppedBy]
      simp [Ne.symm hu]
  | processes data hp =>
    rw [hp] at hreceived
    exact ⟨hledger, hreceived.trans (List.append_nil _).symm, fun _ _ => rfl⟩
  | undefined hp he => exact absurd he (ne_nil_at h hp)

omit [DecidableEq T] in
/-- A chunk that is not the last one. -/
theorem not_last_of_inspected {data : V} (h : Inspected lastChunk l)
    (hp : l.point = .isLastChunk data) :
    ∃ before, l.processed = before ++ [data] ∧ ∀ v ∈ before, lastChunk v = false := by
  rw [Inspected, hp] at h
  exact h

/-- **The step lemma for the last chunks.** -/
theorem Step.inspected (h : Inspected lastChunk l) (hstep : Step lastChunk t g l c g' l') :
    Inspected lastChunk l' := by
  cases hstep with
  | moreData hp | noMoreData hp | prepares _ hp | pushes _ hp | notifies hp _
  | notifiesNobody hp _ | findsEmpty hp _ | findsChunk hp _ | sleeps hp | relocks hp _ _
  | copies _ _ hp _ | pops _ _ _ hp _ =>
    rw [Inspected, hp] at h
    exact h
  | wakesSpuriously hp _ => exact h
  | locks hp _ =>
    obtain ⟨data, hp, rfl⟩ | ⟨hp, rfl⟩ := hp <;> rw [Inspected, hp] at h <;> exact h
  | unlocks hp =>
    obtain ⟨hp, rfl⟩ | ⟨data, hp, rfl⟩ := hp <;> rw [Inspected, hp] at h <;> exact h
  | processes data hp =>
    rw [Inspected, hp] at h
    exact ⟨l.processed, rfl, h⟩
  | breaks data hp hlast =>
    obtain ⟨before, hprocessed, hbefore⟩ := not_last_of_inspected h hp
    exact ⟨before, data, hprocessed, hlast, hbefore⟩
  | goesOn data hp hlast =>
    obtain ⟨before, hprocessed, hbefore⟩ := not_last_of_inspected h hp
    show ∀ v ∈ l.processed, lastChunk v = false
    intro v hv
    rw [hprocessed] at hv
    rcases List.mem_append.mp hv with hv | hv
    · exact hbefore v hv
    · rw [List.mem_singleton.mp hv]
      exact hlast
  | undefined hp _ =>
    rcases hp with hp | ⟨data, hp⟩ <;> rw [Inspected, hp] at h <;> exact h

/-- A thread remains in its function. -/
theorem Step.runs (h : region.Assertion t g l) (hruns : role.Runs l.point)
    (hstep : Step lastChunk t g l c g' l') : role.Runs l'.point := by
  cases hstep with
  | moreData hp | noMoreData hp | prepares _ hp | pushes _ hp | notifies hp _
  | notifiesNobody hp _ | findsEmpty hp _ | findsChunk hp _ | sleeps hp | relocks hp _ _
  | copies _ _ hp _ | pops _ _ _ hp _ | processes _ hp | breaks _ hp _ | goesOn _ hp _ =>
    rw [hp] at hruns
    cases role <;> exact hruns
  | wakesSpuriously _ _ => exact hruns
  | locks hp _ =>
    obtain ⟨data, hp, rfl⟩ | ⟨hp, rfl⟩ := hp <;> rw [hp] at hruns <;> cases role <;> exact hruns
  | unlocks hp =>
    obtain ⟨hp, rfl⟩ | ⟨data, hp, rfl⟩ := hp <;> rw [hp] at hruns <;> cases role <;> exact hruns
  | undefined hp he => exact absurd he (ne_nil_at h hp)

end Chunks

/-! ### Every run -/

/-- The assertion about what is shared. -/
structure SharedAssertion (g : Shared T V) : Prop where
  free : region.Free g
  disjoint : Disjoint g.dataCond.asleep g.dataCond.woken
  ledger : g.pushed = g.popped.map Prod.snd ++ g.dataQueue

variable [DecidableEq T] {role : T → Role}

/-- The assertion of thread `t`. -/
structure Assertion (lastChunk : V → Bool) (role : T → Role) (t : T) (g : Shared T V)
    (l : Thread V) : Prop where
  inRegion : region.Assertion t g l
  waits : g.dataCond.Waiting t ↔ l.point.InWait
  received : poppedBy t g = l.processed ++ l.point.inHand
  inspected : Inspected lastChunk l
  runs : (role t).Runs l.point

theorem Point.eq_waiting_of_inWait {p : Point V} (h : p.InWait) : p = .waiting := by
  cases p with
  | waiting => rfl
  | _ => exact h.elim

/-- What thread `u` relies on. -/
structure Rely (u : T) (g g' : Shared T V) : Prop where
  inRegion : region.Rely u g g'
  waits : g'.dataCond.Waiting u ↔ g.dataCond.Waiting u
  popped : poppedBy u g' = poppedBy u g

theorem relyGuarantee (ok : Config T (Shared T V) (Thread V) → T → Choice T V → Prop) :
    RelyGuarantee (program lastChunk) ok SharedAssertion (Assertion lastChunk role) Rely where
  stable _ _ _ _ hr h :=
    { inRegion := h.inRegion.stable hr.inRegion
      waits := hr.waits.trans h.waits
      received := hr.popped.trans h.received
      inspected := h.inspected
      runs := h.runs }
  step s t c g' l' hS hP _ hp := by
    have hstep := step_of_program hp
    obtain ⟨hin, hw, hreceived, hinspected, hruns⟩ := hP t
    obtain ⟨hfree, hown, hrely⟩ := (hstep.move hin).keeps hS.free hin
    obtain ⟨hd, hw', hother⟩ := hstep.waits hS.disjoint hw
    obtain ⟨hledger, hreceived', hpopped⟩ := hstep.chunks hin hS.ledger hreceived
    exact ⟨⟨hfree, hd, hledger⟩,
      ⟨hown, hw', hreceived', hstep.inspected hinspected, hstep.runs hin hruns⟩,
      fun u hu => ⟨hrely u hu, hother u hu, hpopped u hu⟩⟩

theorem initial_assertion :
    SharedAssertion (initial role : Config T (Shared T V) (Thread V)).shared ∧
      ∀ t, Assertion lastChunk role t (initial role : Config T (Shared T V) (Thread V)).shared
        ((initial role).locals t) := by
  refine ⟨⟨fun _ => trivial, Finset.disjoint_empty_left ∅, rfl⟩, fun t => ?_⟩
  have hawake : ¬ (ConditionVariable.empty : ConditionVariable T).Waiting t := by
    intro h
    rcases h with h | h
    · exact Finset.notMem_empty t h
    · exact Finset.notMem_empty t h
  cases hrole : role t with
  | dataPreparationThread =>
    have hl : (initial role : Config T (Shared T V) (Thread V)).locals t =
        ⟨.moreDataToPrepare, []⟩ := by
      show Thread.mk (role t).entry [] = _
      rw [hrole]
      rfl
    rw [hl]
    refine ⟨⟨iff_of_false nofun id, fun hin => hin.elim⟩, iff_of_false hawake id, rfl, nofun, ?_⟩
    rw [hrole]
    trivial
  | dataProcessingThread =>
    have hl : (initial role : Config T (Shared T V) (Thread V)).locals t = ⟨.popLock, []⟩ := by
      show Thread.mk (role t).entry [] = _
      rw [hrole]
      rfl
    rw [hl]
    refine ⟨⟨iff_of_false nofun id, fun hin => hin.elim⟩, iff_of_false hawake id, rfl, nofun, ?_⟩
    rw [hrole]
    trivial

/-- **The invariant.** -/
theorem reachable_assertion {ok : Config T (Shared T V) (Thread V) → T → Choice T V → Prop}
    {s : Config T (Shared T V) (Thread V)}
    (hs : Reachable (program lastChunk) ok (initial role) s) :
    SharedAssertion s.shared ∧ ∀ t, Assertion lastChunk role t s.shared (s.locals t) :=
  hs.rely_guarantee (relyGuarantee ok) initial_assertion

end ConcurrencyInAction.WaitingForAnEvent
