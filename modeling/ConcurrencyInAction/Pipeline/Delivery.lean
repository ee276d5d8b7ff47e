import ConcurrencyInAction.Lib.Component
import ConcurrencyInAction.Pipeline.Model
import ConcurrencyInAction.ThreadsafeQueue.Client

/-!
# What the pipeline delivers

* `component`: `safe_queue` is a component of the pipeline, so all that is known of
  `threadsafe_queue` holds here; `queue_assertion`;
* `pushedBy`, `poppedBy`: the chunks that one thread has put in and taken out;
* `Assertion`: a thread has put in what it has prepared, and has processed what it has taken out,
  but for the chunk it has in hand; `Assertion.step`, `Assertion.of_returned`: the step lemmas;
* `delivery`: **in every run** what is taken out, by whatever threads, is what was put in, by
  whatever threads, in the same order and without a gap.
-/

namespace ConcurrencyInAction.Pipeline

open Interleaving

variable {T V : Type*} [DecidableEq T]

/-! ### The queue as a component -/

/-- The thread is at a call of the queue. -/
def Point.Calling : Point V → Prop
  | .push _ | .popping => True
  | _ => False

section Queue

variable {role : T → Role} {ok : Config T (Shared T V) (Thread V) → T → Choice T V → Prop}
  {ok' : Config T (ThreadsafeQueue.Shared T V) (ThreadsafeQueue.Thread V) → T →
    ThreadsafeQueue.Choice T V → Prop}
  {s : Config T (Shared T V) (Thread V)}

/-- Between its calls a thread is outside the queue. -/
theorem idle_of_not_calling (hs : Reachable program ok (initial role) s) (t : T) :
    ¬ (s.locals t).point.Calling → (s.locals t).call.point = .idle := by
  refine hs.local_invariant (P := fun _ l => ¬ l.point.Calling → l.call.point = .idle)
    (fun _ _ => rfl) ?_ t
  intro s t c g l _ hP _ hp hout
  cases step_of_program hp with
  | moreData hp' | noMoreData hp' | processes _ hp' =>
    refine hP ?_
    rw [hp']
    exact id
  | prepares _ _ | callsPop _ => exact absurd trivial hout
  | queue hp' _ _ =>
    exfalso
    apply hout
    rcases hp' with ⟨data, hp'⟩ | hp'
    · show (s.locals t).point.Calling
      rw [hp']
      exact trivial
    · show (s.locals t).point.Calling
      rw [hp']
      exact trivial
  | pushReturns _ hidle | popReturns _ hidle => exact hidle

/-- **The queue is a component.** -/
theorem component (hcall : ∀ s t f, ok' s t (.call f))
    (hqueue : ∀ s t d, ok s t (.queue d) → ok' (s.map Shared.safeQueue Thread.call) t d) :
    Component program ok (initial role) ThreadsafeQueue.program ok'
      Shared.safeQueue Thread.call where
  step s t c g l hr hok hp := by
    have hidle := idle_of_not_calling hr t
    have hcalls : ∀ f, (s.locals t).call.point = .idle →
        ThreadsafeQueue.program t (.call f) s.shared.safeQueue (s.locals t).call =
          some (s.shared.safeQueue, ⟨f.entry, none⟩) := by
      intro f hf
      simp only [ThreadsafeQueue.program, hf]
    cases step_of_program hp with
    | moreData _ | noMoreData _ | pushReturns _ _ | popReturns _ _ | processes _ _ =>
      exact .inl ⟨rfl, rfl⟩
    | prepares data hp' =>
      refine .inr ⟨.call (.push data), hcall _ _ _, hcalls _ (hidle ?_)⟩
      rw [hp']
      exact id
    | callsPop hp' =>
      refine .inr ⟨.call (.waitAndPop .byReference), hcall _ _ _, hcalls _ (hidle ?_)⟩
      rw [hp']
      exact id
    | queue _ _ hq => exact .inr ⟨_, hqueue _ _ _ hok, hq⟩

/-- What is known of the queue. -/
theorem queue_assertion (hs : Reachable program ok (initial role) s) :
    ThreadsafeQueue.SharedAssertion s.shared.safeQueue ∧
      ∀ t, ThreadsafeQueue.Assertion t s.shared.safeQueue (s.locals t).call := by
  have h : Component program ok (initial role) ThreadsafeQueue.program anyStep Shared.safeQueue
      Thread.call := component (fun _ _ _ => trivial) (fun _ _ _ _ => trivial)
  exact ThreadsafeQueue.reachable_assertion (h.reachable hs)

end Queue

/-! ### In and out -/

/-- The chunks that thread `t` has pushed, by the calls that have returned. -/
def pushedBy (t : T) (returned : List (T × ThreadsafeQueue.Result V)) : List V :=
  returned.filterMap fun r => if r.1 = t then r.2.pushedValue else none

/-- The chunks that thread `t` has popped. -/
def poppedBy (t : T) (returned : List (T × ThreadsafeQueue.Result V)) : List V :=
  returned.filterMap fun r => if r.1 = t then r.2.deliveredValue else none

/-- The chunks that all threads have pushed. -/
def pushed (returned : List (T × ThreadsafeQueue.Result V)) : List V :=
  returned.filterMap fun r => r.2.pushedValue

/-- The chunks that all threads have popped. -/
def popped (returned : List (T × ThreadsafeQueue.Result V)) : List V :=
  returned.filterMap fun r => r.2.deliveredValue

/-- The chunks that have been prepared and not pushed: the one that is being pushed, or the one that
an exception has lost. -/
def Thread.Unsent (l : Thread V) (rest : List V) : Prop :=
  match l.point with
  | .push data =>
      (l.call.point ≠ .idle ∧ (ThreadsafeQueue.Call.push data).Inside l.call.point ∧
        rest = [data]) ∨
      (l.call.point = .idle ∧ l.call.result = some (.pushed data) ∧ rest = []) ∨
      (l.call.point = .idle ∧ l.call.result = some .threw ∧ rest = [data])
  | .threw => rest.length ≤ 1
  | _ => rest = []

/-- The chunks that have been popped and not processed. -/
def Thread.Unprocessed (l : Thread V) (rest : List V) : Prop :=
  match l.point with
  | .popping =>
      (l.call.point ≠ .idle ∧
        (ThreadsafeQueue.Call.waitAndPop .byReference).Inside l.call.point ∧ rest = []) ∨
      (∃ o data, l.call.point = .idle ∧ l.call.result = some (.popped o data) ∧ rest = [data]) ∨
      (l.call.point = .idle ∧ l.call.result = some .threw ∧ rest = [])
  | .process data => rest = [data]
  | _ => rest = []

theorem Thread.unsent_push {l : Thread V} {data : V} (hp : l.point = .push data) (rest : List V) :
    l.Unsent rest ↔
      (l.call.point ≠ .idle ∧ (ThreadsafeQueue.Call.push data).Inside l.call.point ∧
        rest = [data]) ∨
      (l.call.point = .idle ∧ l.call.result = some (.pushed data) ∧ rest = []) ∨
      (l.call.point = .idle ∧ l.call.result = some .threw ∧ rest = [data]) := by
  unfold Thread.Unsent
  rw [hp]

theorem Thread.unprocessed_popping {l : Thread V} (hp : l.point = .popping) (rest : List V) :
    l.Unprocessed rest ↔
      (l.call.point ≠ .idle ∧
        (ThreadsafeQueue.Call.waitAndPop .byReference).Inside l.call.point ∧ rest = []) ∨
      (∃ o data, l.call.point = .idle ∧ l.call.result = some (.popped o data) ∧ rest = [data]) ∨
      (l.call.point = .idle ∧ l.call.result = some .threw ∧ rest = []) := by
  unfold Thread.Unprocessed
  rw [hp]

/-- What a thread has put in and taken out. -/
structure Assertion (t : T) (g : Shared T V) (l : Thread V) : Prop where
  sent : ∃ rest, l.prepared = pushedBy t g.returned ++ rest ∧ l.Unsent rest
  received : ∃ rest, poppedBy t g.returned = l.processed ++ rest ∧ l.Unprocessed rest

variable {t u : T} {c : Choice T V} {g g' : Shared T V} {l l' : Thread V}

/-! ### What one step does -/

theorem filterMap_snoc {E : Type*} (f : E → Option V) (es : List E) (e : E) :
    (es ++ [e]).filterMap f = es.filterMap f ++ (f e).toList := by
  rw [List.filterMap_append]
  cases hf : f e <;> simp [hf]

theorem pushedBy_snoc (t : T) (returned : List (T × ThreadsafeQueue.Result V))
    (r : T × ThreadsafeQueue.Result V) :
    pushedBy t (returned ++ [r]) =
      pushedBy t returned ++ (if r.1 = t then r.2.pushedValue else none).toList :=
  filterMap_snoc _ returned r

theorem poppedBy_snoc (t : T) (returned : List (T × ThreadsafeQueue.Result V))
    (r : T × ThreadsafeQueue.Result V) :
    poppedBy t (returned ++ [r]) =
      poppedBy t returned ++ (if r.1 = t then r.2.deliveredValue else none).toList :=
  filterMap_snoc _ returned r

/-- What the other threads return does not concern a thread. -/
theorem Assertion.of_returned (h : Assertion u g l) (hut : u ≠ t)
    (hg : g'.returned = g.returned ∨ ∃ r, g'.returned = g.returned ++ [(t, r)]) :
    Assertion u g' l := by
  have hsame : pushedBy u g'.returned = pushedBy u g.returned ∧
      poppedBy u g'.returned = poppedBy u g.returned := by
    rcases hg with hg | ⟨r, hg⟩
    · rw [hg]
      exact ⟨rfl, rfl⟩
    · rw [hg, pushedBy_snoc, poppedBy_snoc, if_neg (Ne.symm hut), if_neg (Ne.symm hut)]
      exact ⟨List.append_nil _, List.append_nil _⟩
  refine ⟨?_, ?_⟩
  · rw [hsame.1]
    exact h.sent
  · rw [hsame.2]
    exact h.received

omit [DecidableEq T] in
/-- A call that goes on has not returned. -/
theorem add_of_inside {f : ThreadsafeQueue.Call V} {k : ThreadsafeQueue.Thread V}
    (hk : f.Inside k.point) : g.add t k = g.returned := by
  unfold Shared.add
  split
  · rename_i hidle _
    exact absurd hidle hk.ne_idle
  · rfl

/-- What a call of the queue has done: it goes on, or has returned. -/
theorem returned_of_queue {f : ThreadsafeQueue.Call V} {d : ThreadsafeQueue.Choice T V}
    {q : ThreadsafeQueue.Shared T V} {k : ThreadsafeQueue.Thread V}
    (hq : ThreadsafeQueue.Assertion t g.safeQueue l.call) (hin : f.Inside l.call.point)
    (hstep : ThreadsafeQueue.Step t g.safeQueue l.call d q k) :
    (f.Inside k.point ∧ g.add t k = g.returned ∧ q.history = g.safeQueue.history) ∨
      ∃ r, f.Ends r ∧ k = ⟨.idle, some r⟩ ∧ g.add t k = g.returned ++ [(t, r)] ∧
        q.history = g.safeQueue.history ++ [r] := by
  rcases hin.step hq.inRegion hstep with ⟨hin', hsame⟩ | ⟨r, hends, hk, hadd⟩
  · exact .inl ⟨hin', add_of_inside hin', hsame⟩
  · subst hk
    exact .inr ⟨r, hends, rfl, rfl, hadd⟩

/-- A thread inside the queue is inside a call. -/
theorem Assertion.inside (h : Assertion t g l)
    (hp : (∃ data, l.point = .push data) ∨ l.point = .popping) (hidle : l.call.point ≠ .idle) :
    ∃ f : ThreadsafeQueue.Call V, f.Inside l.call.point := by
  obtain ⟨⟨rest, -, hunsent⟩, ⟨rest', -, hunprocessed⟩⟩ := h
  rcases hp with ⟨data, hp⟩ | hp
  · rcases (Thread.unsent_push hp rest).mp hunsent with ⟨-, hin, -⟩ | ⟨hno, -⟩ | ⟨hno, -⟩
    · exact ⟨_, hin⟩
    · exact absurd hno hidle
    · exact absurd hno hidle
  · rcases (Thread.unprocessed_popping hp rest').mp hunprocessed with
      ⟨-, hin, -⟩ | ⟨_, _, hno, -⟩ | ⟨hno, -⟩
    · exact ⟨_, hin⟩
    · exact absurd hno hidle
    · exact absurd hno hidle

/-- A step inside `push`. -/
theorem Assertion.push_step {data : V} {d : ThreadsafeQueue.Choice T V}
    {q : ThreadsafeQueue.Shared T V} {k : ThreadsafeQueue.Thread V} (h : Assertion t g l)
    (hp : l.point = .push data) (hq : ThreadsafeQueue.Assertion t g.safeQueue l.call)
    (hidle : l.call.point ≠ .idle) (hstep : ThreadsafeQueue.Step t g.safeQueue l.call d q k) :
    Assertion t ⟨q, g.add t k⟩ { l with call := k } := by
  obtain ⟨⟨rest, hsent, hunsent⟩, ⟨rest', hreceived, hunprocessed⟩⟩ := h
  have hunprocessed' : Thread.Unprocessed { l with call := k } rest' := by
    simp only [Thread.Unprocessed, hp] at hunprocessed ⊢
    exact hunprocessed
  have hunsent' := fun rest => (Thread.unsent_push (l := { l with call := k }) hp rest).mpr
  rcases (Thread.unsent_push hp rest).mp hunsent with ⟨-, hin, rfl⟩ | ⟨hno, -⟩ | ⟨hno, -⟩
  · rcases returned_of_queue hq hin hstep with
      ⟨hin', hadd, -⟩ | ⟨r, hends, rfl, hadd, -⟩
    · refine ⟨⟨[data], ?_, hunsent' _ (.inl ⟨hin'.ne_idle, hin', rfl⟩)⟩,
        ⟨rest', ?_, hunprocessed'⟩⟩
      · rw [hadd]
        exact hsent
      · rw [hadd]
        exact hreceived
    · have hpushed := pushedBy_snoc t g.returned (t, r)
      have hpopped := poppedBy_snoc t g.returned (t, r)
      rw [if_pos rfl, ← hadd] at hpushed hpopped
      cases r with
      | pushed v =>
        cases hends
        refine ⟨⟨[], ?_, hunsent' _ (.inr (.inl ⟨rfl, rfl, rfl⟩))⟩, ⟨rest', ?_, hunprocessed'⟩⟩
        · rw [hpushed, List.append_nil]
          exact hsent
        · rw [hpopped]
          exact (List.append_nil _).trans hreceived
      | threw =>
        refine ⟨⟨[data], ?_, hunsent' _ (.inr (.inr ⟨rfl, rfl, rfl⟩))⟩,
          ⟨rest', ?_, hunprocessed'⟩⟩
        · rw [hpushed]
          exact hsent.trans (congrArg (· ++ [data]) (List.append_nil _).symm)
        · rw [hpopped]
          exact (List.append_nil _).trans hreceived
      | popped o v => exact absurd hends (fun he => he.elim nofun nofun)
      | failed o => exact nomatch hends
  · exact absurd hno hidle
  · exact absurd hno hidle

/-- A step inside `wait_and_pop`. -/
theorem Assertion.pop_step {d : ThreadsafeQueue.Choice T V} {q : ThreadsafeQueue.Shared T V}
    {k : ThreadsafeQueue.Thread V} (h : Assertion t g l) (hp : l.point = .popping)
    (hq : ThreadsafeQueue.Assertion t g.safeQueue l.call) (hidle : l.call.point ≠ .idle)
    (hstep : ThreadsafeQueue.Step t g.safeQueue l.call d q k) :
    Assertion t ⟨q, g.add t k⟩ { l with call := k } := by
  obtain ⟨⟨rest, hsent, hunsent⟩, ⟨rest', hreceived, hunprocessed⟩⟩ := h
  have hunsent' : Thread.Unsent { l with call := k } rest := by
    simp only [Thread.Unsent, hp] at hunsent ⊢
    exact hunsent
  have hunprocessed' := fun rest =>
    (Thread.unprocessed_popping (l := { l with call := k }) hp rest).mpr
  rcases (Thread.unprocessed_popping hp rest').mp hunprocessed with
    ⟨-, hin, rfl⟩ | ⟨_, _, hno, -⟩ | ⟨hno, -⟩
  · rcases returned_of_queue hq hin hstep with
      ⟨hin', hadd, -⟩ | ⟨r, hends, rfl, hadd, -⟩
    · refine ⟨⟨rest, ?_, hunsent'⟩,
        ⟨[], ?_, hunprocessed' _ (.inl ⟨hin'.ne_idle, hin', rfl⟩)⟩⟩
      · rw [hadd]
        exact hsent
      · rw [hadd]
        exact hreceived
    · have hpushed := pushedBy_snoc t g.returned (t, r)
      have hpopped := poppedBy_snoc t g.returned (t, r)
      rw [if_pos rfl, ← hadd] at hpushed hpopped
      cases r with
      | popped o v =>
        refine ⟨⟨rest, ?_, hunsent'⟩,
          ⟨[v], ?_, hunprocessed' _ (.inr (.inl ⟨o, v, rfl, rfl, rfl⟩))⟩⟩
        · rw [hpushed]
          exact hsent.trans (congrArg (· ++ rest) (List.append_nil _).symm)
        · rw [hpopped, hreceived, List.append_nil]
          rfl
      | threw =>
        refine ⟨⟨rest, ?_, hunsent'⟩, ⟨[], ?_, hunprocessed' _ (.inr (.inr ⟨rfl, rfl, rfl⟩))⟩⟩
        · rw [hpushed]
          exact hsent.trans (congrArg (· ++ rest) (List.append_nil _).symm)
        · rw [hpopped]
          exact (List.append_nil _).trans hreceived
      | pushed v => exact nomatch hends
      | failed o => exact nomatch hends
  · exact absurd hno hidle
  · exact absurd hno hidle

/-- **The step lemma.** -/
theorem Assertion.step (hq : ThreadsafeQueue.Assertion t g.safeQueue l.call) (h : Assertion t g l)
    (hstep : Step t g l c g' l') : Assertion t g' l' := by
  obtain ⟨⟨rest, hsent, hunsent⟩, ⟨rest', hreceived, hunprocessed⟩⟩ := h
  unfold Thread.Unsent at hunsent
  unfold Thread.Unprocessed at hunprocessed
  cases hstep with
  | moreData hp | noMoreData hp =>
    rw [hp] at hunsent hunprocessed
    exact ⟨⟨rest, hsent, hunsent⟩, ⟨rest', hreceived, hunprocessed⟩⟩
  | prepares data hp =>
    rw [hp] at hunsent hunprocessed
    subst hunsent
    refine ⟨⟨[data], ?_, .inl ⟨nofun, ThreadsafeQueue.Call.inside_entry _, rfl⟩⟩,
      ⟨rest', hreceived, hunprocessed⟩⟩
    show l.prepared ++ [data] = _
    rw [hsent, List.append_nil]
  | callsPop hp =>
    rw [hp] at hunsent hunprocessed
    exact ⟨⟨rest, hsent, hunsent⟩, ⟨rest', hreceived,
      .inl ⟨nofun, ThreadsafeQueue.Call.inside_entry _, hunprocessed⟩⟩⟩
  | processes data hp =>
    rw [hp] at hunsent hunprocessed
    subst hunprocessed
    exact ⟨⟨rest, hsent, hunsent⟩, ⟨[], hreceived.trans (List.append_nil _).symm, rfl⟩⟩
  | pushReturns hp hidle =>
    rw [hp] at hunsent hunprocessed
    rcases hunsent with ⟨hbusy, -⟩ | ⟨-, hresult, rfl⟩ | ⟨-, hresult, rfl⟩
    · exact absurd hidle hbusy
    · rw [hresult]
      exact ⟨⟨[], hsent, rfl⟩, ⟨rest', hreceived, hunprocessed⟩⟩
    · rw [hresult]
      exact ⟨⟨_, hsent, Nat.le_refl 1⟩, ⟨rest', hreceived, hunprocessed⟩⟩
  | popReturns hp hidle =>
    rw [hp] at hunsent hunprocessed
    rcases hunprocessed with ⟨hbusy, -⟩ | ⟨o, data, -, hresult, rfl⟩ | ⟨-, hresult, rfl⟩
    · exact absurd hidle hbusy
    · rw [hresult]
      exact ⟨⟨rest, hsent, hunsent⟩, ⟨_, hreceived, rfl⟩⟩
    · rw [hresult]
      subst hunsent
      exact ⟨⟨[], hsent, Nat.zero_le 1⟩, ⟨[], hreceived, rfl⟩⟩
  | queue hp hidle hqueue =>
    have h : Assertion t g l := ⟨⟨rest, hsent, hunsent⟩, ⟨rest', hreceived, hunprocessed⟩⟩
    have hqstep := ThreadsafeQueue.step_of_program hqueue
    rcases hp with ⟨data, hp⟩ | hp
    · exact h.push_step hp hq hidle hqstep
    · exact h.pop_step hp hq hidle hqstep

/-- The calls that have ended are those in the history of the queue. -/
theorem Step.history (hq : ThreadsafeQueue.Assertion t g.safeQueue l.call) (h : Assertion t g l)
    (heq : g.returned.map Prod.snd = g.safeQueue.history) (hstep : Step t g l c g' l') :
    g'.returned.map Prod.snd = g'.safeQueue.history ∧
      (g'.returned = g.returned ∨ ∃ r, g'.returned = g.returned ++ [(t, r)]) := by
  cases hstep with
  | moreData _ | noMoreData _ | prepares _ _ | callsPop _ | pushReturns _ _ | popReturns _ _
  | processes _ _ => exact ⟨heq, .inl rfl⟩
  | queue hp hidle hqueue =>
    obtain ⟨f, hin⟩ := h.inside hp hidle
    rcases returned_of_queue hq hin (ThreadsafeQueue.step_of_program hqueue) with
      ⟨-, hadd, hhistory⟩ | ⟨r, -, -, hadd, hhistory⟩
    · refine ⟨?_, .inl hadd⟩
      show (g.add t _).map Prod.snd = _
      rw [hadd, hhistory, heq]
    · refine ⟨?_, .inr ⟨r, hadd⟩⟩
      show (g.add t _).map Prod.snd = _
      rw [hadd, hhistory, List.map_append, heq]
      rfl

/-! ### Every run -/

variable {role : T → Role} {ok : Config T (Shared T V) (Thread V) → T → Choice T V → Prop}
  {s : Config T (Shared T V) (Thread V)}

theorem reachable_assertion (hs : Reachable program ok (initial role) s) :
    s.shared.returned.map Prod.snd = s.shared.safeQueue.history ∧
      ∀ t, Assertion t s.shared (s.locals t) := by
  refine hs.invariant (I := fun s => s.shared.returned.map Prod.snd = s.shared.safeQueue.history ∧
    ∀ t, Assertion t s.shared (s.locals t)) ⟨rfl, fun t => ?_⟩ ?_
  · cases hrole : role t with
    | dataPreparationThread =>
      refine ⟨⟨[], rfl, ?_⟩, ⟨[], rfl, ?_⟩⟩ <;> simp [initial, hrole, Role.entry, Thread.Unsent,
        Thread.Unprocessed]
    | dataProcessingThread =>
      refine ⟨⟨[], rfl, ?_⟩, ⟨[], rfl, ?_⟩⟩ <;> simp [initial, hrole, Role.entry, Thread.Unsent,
        Thread.Unprocessed]
  · intro s t c g l hr hI _ hp
    obtain ⟨heq, hall⟩ := hI
    have hstep := step_of_program hp
    have hq := (queue_assertion hr).2 t
    obtain ⟨heq', hreturned⟩ := hstep.history hq (hall t) heq
    refine ⟨heq', fun u => ?_⟩
    show Assertion u g (Function.update s.locals t l u)
    by_cases hut : u = t
    · subst hut
      rw [Function.update_self]
      exact (hall u).step hq hstep
    · rw [Function.update_of_ne hut]
      exact (hall u).of_returned hut hreturned

omit [DecidableEq T] in
theorem Thread.Unsent.length_le {rest : List V} (h : l.Unsent rest) : rest.length ≤ 1 := by
  cases hp : l.point with
  | push data =>
    rcases (Thread.unsent_push hp rest).mp h with ⟨-, -, rfl⟩ | ⟨-, -, rfl⟩ | ⟨-, -, rfl⟩
    · exact Nat.le_refl 1
    · exact Nat.zero_le 1
    · exact Nat.le_refl 1
  | threw =>
    rw [Thread.Unsent, hp] at h
    exact h
  | moreDataToPrepare | prepareData | ended | waitAndPop | popping | process =>
    rw [Thread.Unsent, hp] at h
    rw [show rest = [] from h]
    exact Nat.zero_le 1

omit [DecidableEq T] in
theorem Thread.Unprocessed.length_le {rest : List V} (h : l.Unprocessed rest) :
    rest.length ≤ 1 := by
  cases hp : l.point with
  | popping =>
    rcases (Thread.unprocessed_popping hp rest).mp h with
      ⟨-, -, rfl⟩ | ⟨o, data, -, -, rfl⟩ | ⟨-, -, rfl⟩
    · exact Nat.zero_le 1
    · exact Nat.le_refl 1
    · exact Nat.zero_le 1
  | process data =>
    rw [Thread.Unprocessed, hp] at h
    rw [show rest = [data] from h]
    exact Nat.le_refl 1
  | moreDataToPrepare | prepareData | push | ended | waitAndPop | threw =>
    rw [Thread.Unprocessed, hp] at h
    rw [show rest = [] from h]
    exact Nat.zero_le 1

/-- What one thread pops is part of what all threads pop. -/
theorem poppedBy_sublist (t : T) (returned : List (T × ThreadsafeQueue.Result V)) :
    (poppedBy t returned).Sublist (popped returned) := by
  induction returned with
  | nil => exact .slnil
  | cons r returned ih =>
    unfold poppedBy popped at ih ⊢
    rw [List.filterMap_cons, List.filterMap_cons]
    by_cases hr : r.1 = t
    · rw [if_pos hr]
      cases r.2.deliveredValue with
      | none => exact ih
      | some v => exact ih.cons_cons v
    · rw [if_neg hr]
      cases r.2.deliveredValue with
      | none => exact ih
      | some v => exact ih.cons v

/-- What is popped was pushed, in the same order and without a gap. -/
theorem exists_pushed_eq (hs : Reachable program ok (initial role) s) :
    ∃ q, pushed s.shared.returned = popped s.shared.returned ++ q ∧
      (s.shared.safeQueue.queueMut = none → q = s.shared.safeQueue.dataQueue) := by
  obtain ⟨heq, -⟩ := reachable_assertion hs
  obtain ⟨hS, hP⟩ := queue_assertion hs
  have hledger : ∀ q, ThreadsafeQueue.FifoHistory s.shared.safeQueue.history q →
      pushed s.shared.returned = popped s.shared.returned ++ q := by
    intro q hlegal
    have h := hlegal.fifo ThreadsafeQueue.Result.pushedValue ThreadsafeQueue.Result.deliveredValue
      fun _ _ _ hone => hone.ledger
    rw [List.nil_append, ← heq, List.filterMap_map, List.filterMap_map] at h
    exact h
  obtain ⟨q, hq⟩ := ThreadsafeQueue.exists_fifoHistory hS hP
  refine ⟨q, hledger q hq, fun hfree => ?_⟩
  exact List.append_cancel_left ((hledger q hq).symm.trans (hledger _ (hS.free hfree)))

/-- **Delivery.**  What the threads have popped is a prefix of what the threads have pushed, and
while `mut` is free the rest is in the queue.  A thread has pushed what it has prepared, and has
processed what it has popped, but for one chunk at most; and what it processes it processes in the
order of the pushes. -/
theorem delivery (hs : Reachable program anyStep (initial role) s) :
    (∃ q, pushed s.shared.returned = popped s.shared.returned ++ q ∧
      (s.shared.safeQueue.queueMut = none → q = s.shared.safeQueue.dataQueue)) ∧
    (∀ t, ∃ rest, (s.locals t).prepared = pushedBy t s.shared.returned ++ rest ∧
      rest.length ≤ 1) ∧
    (∀ t, ∃ rest, poppedBy t s.shared.returned = (s.locals t).processed ++ rest ∧
      rest.length ≤ 1) ∧
    ∀ t, (s.locals t).processed.Sublist (pushed s.shared.returned) := by
  obtain ⟨-, hall⟩ := reachable_assertion hs
  obtain ⟨q, hq, hfree⟩ := exists_pushed_eq hs
  refine ⟨⟨q, hq, hfree⟩, fun t => ?_, fun t => ?_, fun t => ?_⟩
  · obtain ⟨rest, hsent, hunsent⟩ := (hall t).sent
    exact ⟨rest, hsent, hunsent.length_le⟩
  · obtain ⟨rest, hreceived, hunprocessed⟩ := (hall t).received
    exact ⟨rest, hreceived, hunprocessed.length_le⟩
  · obtain ⟨rest, hreceived, -⟩ := (hall t).received
    have hprocessed : (s.locals t).processed.Sublist (poppedBy t s.shared.returned) := by
      rw [hreceived]
      exact List.sublist_append_left _ _
    have hpopped : (popped s.shared.returned).Sublist (pushed s.shared.returned) := by
      rw [hq]
      exact List.sublist_append_left _ _
    exact (hprocessed.trans (poppedBy_sublist t _)).trans hpopped

/-- One thread of each kind. -/
def oneOfEach : Bool → Role
  | false => .dataPreparationThread
  | true => .dataProcessingThread

/-- The processing thread sleeps until the first chunk has been pushed, and processes it while the
second one is on its way. -/
def relayRun : List (Bool × Choice Bool ℕ) :=
  [(true, .run), (true, .queue .run), (true, .queue .run), (true, .queue .run),
    (false, .moreDataToPrepare true), (false, .prepareData 7), (false, .queue .run),
    (false, .queue .run), (false, .queue (.notify (some true))), (false, .queue .run),
    (true, .queue .run), (false, .run), (false, .moreDataToPrepare true), (false, .prepareData 8),
    (true, .queue .run), (true, .queue .run), (true, .queue .run), (true, .queue .run),
    (true, .run), (true, .run)]

theorem delivery_relayRun :
    ∃ s, (initial oneOfEach).run program relayRun = some s ∧
      pushed s.shared.returned = [7] ∧ (s.locals true).processed = [7] ∧
      (s.locals true).processed.Sublist (pushed s.shared.returned) := by
  have hs : Reachable program anyStep (initial oneOfEach)
      (((initial oneOfEach).run program relayRun).get (by decide)) :=
    Reachable.of_run_any relayRun (Option.some_get _).symm
  exact ⟨_, (Option.some_get (by decide)).symm, by decide, by decide, (delivery hs).2.2.2 true⟩

end ConcurrencyInAction.Pipeline
