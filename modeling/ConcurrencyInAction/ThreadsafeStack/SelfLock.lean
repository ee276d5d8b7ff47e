import ConcurrencyInAction.ThreadsafeStack.Model
import ConcurrencyInAction.Lib.CriticalRegion
import ConcurrencyInAction.Lib.SequentialSpec

/-!
# `pop` of `threadsafe_stack` blocks on itself

* `LifoStep`: the sequential stack the class is a thread-safe version of;
* `region`: `m` guards the container and the history, and what a thread inside knows at each point;
  a `pop` that has acquired `m` never gets further than the lock inside `empty()`;
* `Sound`: no thread waits for `m` while it holds it, some operation in progress can take a step,
  and the operations that ended are a history of the sequential stack;
* `sound_iff_no_pop_acquires`: along every run, `Sound` holds in every state exactly as long as no
  `pop` acquires `m`.
-/

namespace ConcurrencyInAction.ThreadsafeStack

open Interleaving ExclusiveLock SequentialSpec

variable {T V : Type*}

/-! ### The sequential stack -/

/-- One operation on a sequential stack, by how it ends: a `pop` delivers the most recent value not
yet popped, and ends with `empty_stack` on the empty stack only. -/
inductive LifoStep : List V → Result V → List V → Prop
  | pushed (q : List V) (v : V) : LifoStep q (.pushed v) (v :: q)
  | popped (o : Overload) (v : V) (q : List V) : LifoStep (v :: q) (.popped o v) q
  | emptyStack (o : Overload) : LifoStep [] (.emptyStack o) []
  | isEmpty (q : List V) : LifoStep q (.isEmpty q.isEmpty) q
  | threw (q : List V) : LifoStep q .threw q

/-- The results in `history` lead a sequential stack from empty to `q`. -/
abbrev LifoHistory (history : List (Result V)) (q : List V) : Prop := Legal LifoStep [] history q

/-- The value or the `empty_stack` with which a `pop` ends. -/
def Result.OfPop : Result V → Prop
  | .popped _ _ | .emptyStack _ => True
  | _ => False

/-- A history of the sequential stack in which no `pop` has ended. -/
structure PopFree (history : List (Result V)) (q : List V) : Prop where
  lifo : LifoHistory history q
  none : ∀ r ∈ history, ¬ r.OfPop

theorem PopFree.snoc {history : List (Result V)} {q q' : List V} {r : Result V}
    (h : PopFree history q) (hone : LifoStep q r q') (hr : ¬ r.OfPop) :
    PopFree (history ++ [r]) q' where
  lifo := h.lifo.snoc hone
  none x hx := by
    rcases List.mem_append.mp hx with hx | hx
    · exact h.none x hx
    · rw [List.mem_singleton.mp hx]
      exact hr

/-! ### The critical region -/

/-- The points between the acquisition of `m` and its release.  The points of `pop` past the call of
`empty()` are among them. -/
def Point.HoldsM : Point V → Prop
  | .idle | .pushLock _ | .popLock _ | .emptyLock none => False
  | _ => True

/-- What a thread that holds `m` knows of the history and the container.  Nobody is past the lock
inside a nested `empty()`. -/
def Known : Point V → List (Result V) × List V → Prop
  | .pushContainer _, r | .emptyLock (some _), r | .emptyTest none, r => PopFree r.1 r.2
  | .emptyUnlock none b, r => PopFree r.1 r.2 ∧ b = r.2.isEmpty
  | .unlock res, r => ¬ res.OfPop ∧ ∃ q, PopFree r.1 q ∧ LifoStep q res r.2
  | _, _ => False

/-- `m` guards the container and the history. -/
def region : CriticalRegion T (Shared T V) (Thread V) (List (Result V) × List V) where
  owner g := g.m
  resource g := (g.history, g.data)
  Inside l := l.point.HoldsM
  Invariant r := PopFree r.1 r.2
  Known l := Known l.point

/-- A thread that holds `m` knows of a legal history. -/
theorem Known.exists_popFree {p : Point V} {r : List (Result V) × List V} (h : Known p r) :
    ∃ q, PopFree r.1 q := by
  unfold Known at h
  split at h
  · exact ⟨_, h⟩
  · exact ⟨_, h⟩
  · exact ⟨_, h⟩
  · exact ⟨_, h.1⟩
  · obtain ⟨-, q, hq, -⟩ := h
    exact ⟨q, hq⟩
  · exact h.elim

variable {t : T} {g g' : Shared T V} {l l' : Thread V}

theorem inside_of_point {p : Point V} (hp : l.point = p) (hin : p.HoldsM) :
    (region (T := T)).Inside l := by
  show l.point.HoldsM
  rw [hp]
  exact hin

/-- **The step lemma.**  Every step is a move of the critical region. -/
theorem Step.move {c : Choice V} (h : region.Assertion t g l) (hstep : Step t g l c g' l') :
    region.Move t g l g' l' := by
  have hknown : l.point.HoldsM → Known l.point (g.history, g.data) := h.known
  cases hstep with
  | @call f hp =>
    refine .outside rfl rfl ?_ ?_
    · show ¬ l.point.HoldsM
      rw [hp]
      exact id
    · cases f <;> exact id
  | @locks p hp hfree =>
    have hout : ¬ l.point.HoldsM := by
      intro hin
      have hown : g.m = some t := h.owns.mpr hin
      rw [hfree] at hown
      exact nomatch hown
    -- a nested `empty()` holds `m` already, and does not get it again
    cases hl : l.point with
    | pushLock v =>
      rw [hl] at hp
      cases hp
      exact .enter hfree rfl rfl trivial id
    | popLock o =>
      rw [hl] at hp
      cases hp
      exact .enter hfree rfl rfl trivial id
    | emptyLock caller =>
      rw [hl] at hp hout
      cases hp
      cases caller with
      | none => exact .enter hfree rfl rfl trivial id
      | some o => exact absurd trivial hout
    | _ => rw [hl] at hp; exact nomatch hp
  | @pushes v hp =>
    rw [hp] at hknown
    refine .inside rfl (inside_of_point hp trivial) trivial fun _ => ?_
    exact ⟨id, g.data, hknown trivial, .pushed _ v⟩
  | pushThrows hp =>
    rw [hp] at hknown
    refine .inside rfl (inside_of_point hp trivial) trivial fun _ => ?_
    exact ⟨id, g.data, hknown trivial, .threw _⟩
  | @tests caller hp =>
    rw [hp] at hknown
    cases caller with
    | none =>
      exact .inside rfl (inside_of_point hp trivial) trivial fun _ => ⟨hknown trivial, rfl⟩
    | some o => exact (hknown trivial).elim
  | @returnsEmpty b hp hown =>
    rw [hp] at hknown
    obtain ⟨hlegal, rfl⟩ := hknown trivial
    refine .leave rfl (h.owns.mp hown) id fun _ => ?_
    exact hlegal.snoc (.isEmpty g.data) id
  | unlocks hp hown =>
    rw [hp] at hknown
    obtain ⟨hr, q, hlegal, hone⟩ := hknown trivial
    refine .leave rfl (h.owns.mp hown) id fun _ => ?_
    exact hlegal.snoc hone hr
  | returnsEmptyToPop hp _ | popTests hp | copies hp _ | copyThrows hp | pops hp _ =>
    rw [hp] at hknown
    exact (hknown trivial).elim
  | undefinedAccess hp _ =>
    obtain ⟨o, hp | ⟨v, hp⟩⟩ := hp <;> rw [hp] at hknown <;> exact (hknown trivial).elim
  | undefinedRelease hp hown =>
    have hin : l.point.HoldsM := by
      obtain ⟨caller, b, hp⟩ | ⟨r, hp⟩ := hp <;> rw [hp] <;> trivial
    exact absurd (h.owns.mpr hin) hown

/-- Only a `pop` that acquires `m` gets to the lock inside a nested `empty()`. -/
theorem Step.nested {c : Choice V} (hstep : Step t g l c g' l') {o : Overload}
    (hl' : l'.point = .emptyLock (some o)) : l.point = .popLock o ∧ c = .run := by
  cases hstep with
  | @call f _ => cases f <;> exact nomatch hl'
  | @locks p hp _ =>
    have hp' : p = .emptyLock (some o) := hl'
    subst hp'
    cases hl : l.point with
    | popLock o' =>
      rw [hl] at hp
      cases hp
      exact ⟨rfl, rfl⟩
    | pushLock _ | emptyLock _ => rw [hl] at hp; cases hp
    | _ => rw [hl] at hp; exact nomatch hp
  | @popTests _ b _ => cases b <;> exact nomatch hl'
  | _ => exact nomatch hl'

/-! ### Every run -/

variable [DecidableEq T]

/-- The assertions of all threads. -/
def Invariant (s : Config T (Shared T V) (Thread V)) : Prop :=
  region.Free s.shared ∧ ∀ t, region.Assertion t s.shared (s.locals t)

omit [DecidableEq T] in
theorem initial_invariant : Invariant (initial : Config T (Shared T V) (Thread V)) :=
  ⟨fun _ => ⟨.nil, nofun⟩, fun _ => ⟨iff_of_false nofun id, fun hin => hin.elim⟩⟩

theorem relyGuarantee (ok : Config T (Shared T V) (Thread V) → T → Choice V → Prop) :
    RelyGuarantee program ok (region (V := V)).Free region.Assertion region.Rely :=
  CriticalRegion.relyGuarantee fun _ _ _ _ _ _ h hp => (step_of_program hp).move h

omit [DecidableEq T] in
/-- Whoever holds `m`, the operations that ended are a history of the sequential stack. -/
theorem Invariant.exists_popFree {s : Config T (Shared T V) (Thread V)} (hs : Invariant s) :
    ∃ q, PopFree s.shared.history q ∧ (s.shared.m = none → q = s.shared.data) := by
  cases hm : s.shared.m with
  | none => exact ⟨s.shared.data, hs.1 hm, fun _ => rfl⟩
  | some u =>
    obtain ⟨q, hq⟩ := Known.exists_popFree ((hs.2 u).known ((hs.2 u).owns.mp hm))
    exact ⟨q, hq, nofun⟩

/-- **No `pop` ever ends**, neither with a value nor with `empty_stack`. -/
theorem pop_never_ends {s : Config T (Shared T V) (Thread V)}
    (hs : Reachable program anyStep initial s) : ∀ r ∈ s.shared.history, ¬ r.OfPop := by
  have hinv : Invariant s := hs.rely_guarantee (relyGuarantee anyStep) initial_invariant
  obtain ⟨q, hq, -⟩ := hinv.exists_popFree
  exact hq.none

/-! ### When the stack is sound -/

/-- What the stack promises: nobody waits for `m` while holding it; some operation in progress can
take a step, if there is one; and the operations that ended are a history of the sequential stack,
which has led to the present contents if `m` is free. -/
structure Sound (s : Config T (Shared T V) (Thread V)) : Prop where
  noSelfWait : ∀ t, (s.locals t).point.WaitsForM → s.shared.m ≠ some t
  progress : (∃ t, (s.locals t).point ≠ .idle) →
    ∃ t, (s.locals t).point ≠ .idle ∧ ∃ c, (s.step program t c).isSome
  lifo : ∃ q, LifoHistory s.shared.history q ∧ (s.shared.m = none → q = s.shared.data)

/-- The step is not a `pop` that acquires `m`. -/
def noPopAcquires (s : Config T (Shared T V) (Thread V)) (t : T) (c : Choice V) : Prop :=
  ∀ o, (s.locals t).point = .popLock o → c ≠ .run

instance [DecidableEq V] (s : Config T (Shared T V) (Thread V)) (t : T) (c : Choice V) :
    Decidable (noPopAcquires s t c) :=
  inferInstanceAs (Decidable (∀ o, (s.locals t).point = .popLock o → c ≠ .run))

/-- No thread is at the lock inside a nested `empty()`. -/
def NoneNested (s : Config T (Shared T V) (Thread V)) : Prop :=
  ∀ t o, (s.locals t).point ≠ .emptyLock (some o)

/-- The thread that holds `m` can go on, unless it is nested. -/
theorem enabled_of_holds {s : Config T (Shared T V) (Thread V)} {t : T} (hs : Invariant s)
    (hn : NoneNested s) (hown : s.shared.m = some t) :
    (s.locals t).point ≠ .idle ∧ ∃ c, (s.step program t c).isSome := by
  have h := hs.2 t
  have hin : (s.locals t).point.HoldsM := h.owns.mp hown
  have hk : Known (s.locals t).point (s.shared.history, s.shared.data) := h.known hin
  have hnt := hn t
  have hne : (s.locals t).point ≠ .idle := by
    intro hp
    rw [hp] at hin
    exact hin.elim
  refine ⟨hne, ?_⟩
  simp only [Config.step, Option.isSome_map]
  cases hp : (s.locals t).point with
  | idle => exact absurd hp hne
  | pushContainer v => exact ⟨.run, by simp [program, hp]⟩
  | emptyTest caller => exact ⟨.run, by simp [program, hp]⟩
  | emptyUnlock caller b => exact ⟨.run, by cases caller <;> simp [program, hp]⟩
  | unlock r => exact ⟨.run, by simp [program, hp]⟩
  | emptyLock caller =>
    cases caller with
    | none => rw [hp] at hin; exact hin.elim
    | some o => exact absurd hp (hnt o)
  | pushLock _ | popLock _ => rw [hp] at hin; exact hin.elim
  | popTest _ _ | popTop _ | popContainer _ _ | undefined => rw [hp] at hk; exact hk.elim

/-- While `m` is free, every operation in progress can go on. -/
theorem enabled_of_free {s : Config T (Shared T V) (Thread V)} {t : T} (hs : Invariant s)
    (hfree : s.shared.m = none) (hp : (s.locals t).point ≠ .idle) :
    ∃ c, (s.step program t c).isSome := by
  have hout : ¬ (s.locals t).point.HoldsM := by
    intro hin
    have hown : s.shared.m = some t := (hs.2 t).owns.mpr hin
    rw [hfree] at hown
    exact nomatch hown
  simp only [Config.step, Option.isSome_map]
  cases hl : (s.locals t).point with
  | idle => exact absurd hl hp
  | pushLock _ | popLock _ | emptyLock _ => exact ⟨.run, by simp [program, hl, lockM, hfree]⟩
  | _ => rw [hl] at hout; exact absurd trivial hout

theorem sound_of_noneNested {s : Config T (Shared T V) (Thread V)} (hs : Invariant s)
    (hn : NoneNested s) : Sound s where
  noSelfWait t hw hown := by
    have hin : (s.locals t).point.HoldsM := (hs.2 t).owns.mp hown
    cases hp : (s.locals t).point with
    | emptyLock caller =>
      cases caller with
      | none => rw [hp] at hin; exact hin
      | some o => exact hn t o hp
    | idle | pushLock _ | popLock _ => rw [hp] at hin; exact hin
    | _ => rw [hp] at hw; exact nomatch hw
  progress := by
    rintro ⟨t, ht⟩
    cases hm : s.shared.m with
    | none => exact ⟨t, ht, enabled_of_free hs hm ht⟩
    | some u => exact ⟨u, enabled_of_holds hs hn hm⟩
  lifo := by
    obtain ⟨q, hq, hfree⟩ := hs.exists_popFree
    exact ⟨q, hq.lifo, hfree⟩

/-- **When the stack is sound.**  Along every run of any number of threads, the stack is sound in
every state exactly as long as no `pop` acquires `m`: one that does waits for ever, inside
`empty()`, for the mutex it holds. -/
theorem sound_iff_no_pop_acquires (as : List (T × Choice V))
    (hrun : ((initial : Config T (Shared T V) (Thread V)).run program as).isSome) :
    Config.AllStates program Sound initial as ↔
      Config.AllSteps program noPopAcquires initial as := by
  refine Config.allStates_iff_allSteps (I := fun s => Invariant s ∧ NoneNested s)
    (fun s h => sound_of_noneNested h.1 h.2) ?_ ?_ as initial ⟨initial_invariant, nofun⟩ hrun
  · intro s t c s' hs hok hstep
    refine ⟨(relyGuarantee anyStep).keeps hs.1 trivial hstep, fun u o hu => ?_⟩
    obtain ⟨l, hp, hself, hother⟩ := Config.step_focus u hstep
    by_cases he : t = u
    · rw [hself he] at hu
      subst he
      obtain ⟨hlock, hc⟩ := (step_of_program hp).nested hu
      exact hok o hlock hc
    · rw [hother he] at hu
      exact hs.2 u o hu
  · intro s t c s' hs hbad hstep hsound
    simp only [noPopAcquires, not_forall, ne_eq, not_not] at hbad
    obtain ⟨o, hlock, rfl⟩ := hbad
    obtain ⟨g, l, hp, rfl⟩ := Config.step_eq_some.mp hstep
    simp only [program, hlock] at hp
    obtain ⟨-, hr⟩ := lockM_eq_some.mp hp
    cases hr
    -- the acquisition itself makes the thread wait for its own mutex
    apply hsound.noSelfWait t
    · simp only [Function.update_self]
      rfl
    · rfl

/-- One thread calls `pop()` and acquires `m`. -/
def popRun : List (Unit × Choice Nat) := [((), .call (.pop .byPointer)), ((), .run)]

/-- The thread waits for `m`, holds it, and nothing can happen any more. -/
theorem pop_blocks_on_itself :
    ¬ ∀ s : Config Unit (Shared Unit Nat) (Thread Nat),
      Reachable program anyStep initial s → Sound s := by
  intro hall
  have hr : Reachable program anyStep initial
      ((initial.run program popRun).get (by decide)) :=
    Reachable.of_run_any popRun (Option.some_get _).symm
  exact (hall _ hr).noSelfWait () (by decide) (by decide)

/-- A push, a call of `empty()`, and a `pop` that is called but gets no turn. -/
def noPopRun : List (Bool × Choice Nat) :=
  [(true, .call (.push 1)), (true, .run), (true, .run), (true, .run), (false, .call .empty),
   (true, .call (.pop .byReference)), (false, .run), (false, .run), (false, .run)]

theorem sound_iff_no_pop_acquires_noPopRun :
    (initial.run program noPopRun).isSome ∧
      Config.AllStates (T := Bool) program Sound initial noPopRun :=
  ⟨by decide, (sound_iff_no_pop_acquires noPopRun (by decide)).mpr (by decide)⟩

end ConcurrencyInAction.ThreadsafeStack
