import ConcurrencyInAction.UserBalance.Balance
import ConcurrencyInAction.Lib.Completion

/-!
# Names that are not in the registry

`registry.find` returns a null pointer for a name that no user has, and `update_user_balance` goes
through the pointer without a check, between the calls of `lock` and `unlock`.

* `knownNames`: the calls that name a user of the registry;
* `Thread.work`: a bound on the steps left of a call; `Assertion.work_lt`: every step brings it
  down;
* `Sound`: no null pointer has been used, calls that find no user change no balance, calls that have
  ended have put everything back, and the calls in progress and the next ones can be completed;
* `reachable_sound`: that is so as long as the names are known;
* `Stuck`: a call with another name, which never ends;
* `sound_iff_known`: **when a call does no harm**.
-/

namespace ConcurrencyInAction.UserBalance

open Interleaving
open HierachicalMutex (Call GlobalMutex globalHierarchyValue ulongMax)

variable {T : Type*}

/-- Every call names a user of the registry. -/
def knownNames (registry : List User) (_ : Config T (Shared T) Thread) (_ : T) (c : Choice) :
    Prop :=
  ∀ userName amount, c = .call userName amount → ∃ user ∈ registry, user.name = userName

/-- The steps of the calls in progress. -/
def inProgress (_ : Config T (Shared T) Thread) (_ : T) (c : Choice) : Prop := c = .run

/-- No thread is inside the function. -/
def AllIdle (s : Config T (Shared T) Thread) : Prop := ∀ t, (s.locals t).point = .idle

/-- What a caller may expect, whoever it calls the function for. -/
structure Sound [DecidableEq T] (registry : List User) (s : Config T (Shared T) Thread) : Prop where
  notNull : ∀ t, (s.locals t).point ≠ .undefined
  unchanged : ∀ t c s', find registry (s.locals t).userName = none →
    s.step program t c = some s' → s'.shared.registry = s.shared.registry
  released : ∀ t, (s.locals t).point = .idle →
    ∀ m, s.shared.mutexes.internalMutex m ≠ some t
  restored : ∀ t, (s.locals t).point = .idle →
    (s.locals t).mutexes.thisThreadHierarchyValue = ulongMax
  callable : ∀ t, (s.locals t).point = .idle →
    ∀ userName amount, ∃ s', s.step program t (.call userName amount) = some s'
  completes : Config.Completes program inProgress AllIdle s

variable {registry : List User} {t : T} {c : Choice} {g g' : Shared T} {l l' : Thread}

/-! ### The length of a call -/

/-- The steps left of a call, at most. -/
def Thread.work (l : Thread) : ℕ :=
  match l.point with
  | .lockHigh => l.mutexes.point.stepsLeft + 18
  | .find => 18
  | .lockLow _ => l.mutexes.point.stepsLeft + 12
  | .readBalance _ => 12
  | .writeBalance _ _ => 11
  | .unlockLow => l.mutexes.point.stepsLeft + 5
  | .unlockHigh => l.mutexes.point.stepsLeft
  | .idle | .undefined => 0

/-- Inside a mutex function the work is that of the function and of what comes after it. -/
theorem Thread.work_lt_of_stepsLeft {f : Call GlobalMutex} {next : Thread → Thread}
    (hm : l.point.Member f next) {k : HierachicalMutex.Thread GlobalMutex}
    (hlt : k.point.stepsLeft < l.mutexes.point.stepsLeft) :
    ({ l with mutexes := k } : Thread).work < l.work := by
  generalize hp : l.point = p at hm
  cases hm <;> simpa [Thread.work, hp] using hlt

/-- After a mutex function there is less work than inside it. -/
theorem Thread.work_next_lt {f : Call GlobalMutex} {next : Thread → Thread}
    (hm : l.point.Member f next) {k : HierachicalMutex.Thread GlobalMutex}
    (hk : k.point = .idle) (hpos : 0 < l.mutexes.point.stepsLeft) :
    (next { l with mutexes := k }).work < l.work := by
  have hfive : k.point.stepsLeft = 5 := by rw [hk]; rfl
  generalize hp : l.point = p at hm
  cases hm with
  | lockHigh | lockLow _ | unlockLow | unlockHigh =>
    simp only [Thread.work, Thread.goto, Thread.finish, hp, hfive]
    omega

/-- **Every step of a call brings its end closer.** -/
theorem Assertion.work_lt (h : Assertion registry t g l) (hstep : Step t g l .run g' l') :
    l'.work < l.work := by
  cases hstep with
  | @member f next m k hm hst =>
    have hcalling := h.atPoint.calling hm
    obtain ⟨hno, ⟨hp, -⟩ | ⟨hp, -⟩⟩ := HierachicalMutex.Calling.step (hm.respects l) h.mutexes
      hcalling h.noLogicError hst
    · rw [Thread.advance_of_idle hp hno]
      exact Thread.work_next_lt hm hp hcalling.stepsLeft_pos
    · rw [Thread.advance_of_ne hp]
      exact Thread.work_lt_of_stepsLeft hm (hst.stepsLeft_lt hp)
  | finds hp =>
    have ha := h.atPoint
    rw [hp] at ha
    simp [Thread.work, Thread.goto, hp, ha.1, HierachicalMutex.Point.stepsLeft]
  | reads hp _ => simp [Thread.work, Thread.goto, hp]
  | readsOutside hp _ => simp [Thread.work, Thread.goto, hp]
  | writes hp =>
    have ha := h.atPoint
    rw [hp] at ha
    simp [Thread.work, Thread.goto, hp, ha.1, HierachicalMutex.Point.stepsLeft]

/-! ### Calls with known names -/

/-- A step that writes the registry has found its user. -/
theorem Assertion.registry_eq (h : Assertion registry t g l)
    (hfind : find registry l.userName = none) (hstep : Step t g l c g' l') :
    g'.registry = g.registry := by
  cases hstep with
  | writes hp =>
    have hd := h.data
    simp only [DataAt, hp] at hd
    exact absurd (hd.1.symm.trans hfind) (Option.some_ne_none _)
  | call _ _ _ | member _ _ | finds _ | reads _ _ | readsOutside _ _ => rfl

/-- Between two calls a thread is at the level where it has started. -/
theorem Assertion.level_eq (h : Assertion registry t g l) (hp : l.point = .idle) :
    l.mutexes.thisThreadHierarchyValue = ulongMax := by
  have ha := h.atPoint
  rw [hp] at ha
  have hlevel := h.mutexes.atPoint
  simp only [HierachicalMutex.AtPoint, ha.1] at hlevel
  rw [hlevel.1, ha.2]
  rfl

section Run

variable [DecidableEq T] {s s₁ s' : Config T (Shared T) Thread}

omit [DecidableEq T] in
/-- Without new calls there are no new names. -/
theorem knownNames_of_inProgress (h : inProgress s t c) : knownNames registry s t c := by
  intro userName amount hc
  exact nomatch h.symm.trans hc

/-- A call in progress names a user. -/
theorem reachable_known (hs : Reachable program (knownNames registry) (initial registry) s)
    (t : T) (ht : (s.locals t).point ≠ .idle) :
    ∃ user ∈ registry, user.name = (s.locals t).userName := by
  revert ht
  apply hs.local_invariant (P := fun _ l => l.point ≠ .idle →
    ∃ user ∈ registry, user.name = l.userName)
  · intro t ht
    exact absurd rfl ht
  · intro s t c g l _ hknown hok hp _
    have hstep := step_of_program hp
    cases c with
    | call userName amount =>
      cases hstep with
      | call _ _ _ => exact hok userName amount rfl
    | run =>
      obtain ⟨hne, hname, -⟩ := hstep.parameters
      rw [hname]
      exact hknown hne

theorem reachable_notNull (hs : Reachable program (knownNames registry) (initial registry) s)
    (t : T) : (s.locals t).point ≠ .undefined := by
  intro hp
  obtain ⟨user, hmem, hname⟩ := reachable_known hs t (by rw [hp]; nofun)
  have hd := ((reachable_assertion hs).2 t).data
  simp only [DataAt, hp] at hd
  exact find_eq_none_iff.mp hd user hmem hname

/-- The calls in progress are completed, whatever the order of their steps. -/
theorem reachable_completes
    (hs : Reachable program (knownNames registry) (initial registry) s) :
    Config.Completes program inProgress AllIdle s := by
  obtain ⟨F, hF⟩ := hs.exists_moved
  have hidle : ∀ t, t ∉ F → (s.locals t).point = .idle := by
    intro t ht
    rw [hF t ht]
    rfl
  refine Config.completes_of_work (I := fun s =>
    Reachable program (knownNames registry) (initial registry) s ∧
      ∀ t, t ∉ F → (s.locals t).point = .idle) Thread.work F ?_ ?_ ⟨hs, hidle⟩
  · intro s t c s' hI hok hstep
    obtain ⟨hr, hout⟩ := hI
    obtain ⟨l, hp, hself, -⟩ := Config.step_focus t hstep
    cases hok
    have hcode := step_of_program hp
    have ht : t ∈ F := by
      by_contra hnot
      exact hcode.parameters.1 (hout t hnot)
    refine ⟨⟨hr.step (knownNames_of_inProgress rfl) hstep, fun u hu => ?_⟩, ht, ?_⟩
    · obtain ⟨l', -, -, hother⟩ := Config.step_focus u hstep
      rw [hother fun he => hu (he ▸ ht)]
      exact hout u hu
    · rw [hself rfl]
      exact ((reachable_assertion hr).2 t).work_lt hcode
  · intro s hI hbusy
    obtain ⟨t, -, s', hstep⟩ := exists_enabled (reachable_assertion hI.1).2
      (reachable_notNull hI.1) (not_forall.mp hbusy)
    exact ⟨t, .run, s', rfl, hstep⟩

/-- **As long as every call names a user, the function does what its callers expect.** -/
theorem reachable_sound (hs : Reachable program (knownNames registry) (initial registry) s) :
    Sound registry s where
  notNull := reachable_notNull hs
  unchanged t c s' hfind hstep := by
    obtain ⟨l, hp, -⟩ := Config.step_focus t hstep
    exact ((reachable_assertion hs).2 t).registry_eq hfind (step_of_program hp)
  released t := ((reachable_assertion hs).2 t).not_owner
  restored t := ((reachable_assertion hs).2 t).level_eq
  callable _ := exists_call
  completes := reachable_completes hs

/-! ### A call with another name -/

/-- A call with that name is on its way to the null pointer, or there. -/
def Stuck (name : String) (l : Thread) : Prop :=
  l.userName = name ∧ (l.point = .lockHigh ∨ l.point = .find ∨ l.point = .lockLow none ∨
    l.point = .readBalance none ∨ l.point = .undefined)

omit [DecidableEq T] in
theorem Stuck.not_idle {name : String} (h : Stuck name l) : l.point ≠ .idle := by
  intro hp
  obtain ⟨-, h | h | h | h | h⟩ := h <;> exact nomatch hp.symm.trans h

omit [DecidableEq T] in
theorem Stuck.of_call {name : String} {amount : ℤ} (hstep : Step t g l (.call name amount) g' l') :
    Stuck name l' := by
  cases hstep with
  | call _ _ _ => exact ⟨rfl, .inl rfl⟩

omit [DecidableEq T] in
/-- A mutex function returns to the way to the null pointer. -/
theorem Stuck.next {name : String} {f : Call GlobalMutex} {next : Thread → Thread}
    (h : Stuck name l) (hm : l.point.Member f next) (k : HierachicalMutex.Thread GlobalMutex) :
    Stuck name (next { l with mutexes := k }) := by
  obtain ⟨hname, h⟩ := h
  generalize l.point = p at h hm
  cases hm with
  | lockHigh => exact ⟨hname, .inr (.inl rfl)⟩
  | lockLow user =>
    obtain h | h | h | h | h := h <;> cases h
    exact ⟨hname, .inr (.inr (.inr (.inl rfl)))⟩
  | unlockLow | unlockHigh => obtain h | h | h | h | h := h <;> cases h

omit [DecidableEq T] in
/-- **A call with a name that no user has does not end.** -/
theorem Stuck.step {name : String} (hfind : find registry name = none)
    (hS : SameNames registry g.registry) (h : Assertion registry t g l) (hstuck : Stuck name l)
    (hstep : Step t g l c g' l') : Stuck name l' := by
  cases hstep with
  | call userName amount hp => exact absurd hp hstuck.not_idle
  | member hm hst =>
    obtain ⟨-, ⟨-, hl⟩ | ⟨-, -, hl⟩⟩ := h.advance hm hst
    · rw [hl]
      exact hstuck
    · rw [hl]
      exact hstuck.next hm _
  | finds hp =>
    refine ⟨hstuck.1, .inr (.inr (.inl ?_))⟩
    show Point.lockLow (find g.registry l.userName) = .lockLow none
    rw [hstuck.1, find_congr hS, hfind]
  | reads hp _ | writes hp =>
    obtain ⟨-, h | h | h | h | h⟩ := hstuck <;> exact nomatch hp.symm.trans h
  | readsOutside hp _ => exact ⟨hstuck.1, .inr (.inr (.inr (.inr rfl)))⟩

theorem reachable_stuck {name : String} {ok : Config T (Shared T) Thread → T → Choice → Prop}
    (hfind : find registry name = none) (hs : Reachable program ok (initial registry) s)
    (ht : Stuck name (s.locals t)) (hs' : Reachable program ok s s') :
    Stuck name (s'.locals t) := by
  induction hs' with
  | init => exact ht
  | @step s₁ s₂ u c hs₁ _ hstep ih =>
    obtain ⟨hnames, hassertion⟩ := reachable_assertion (hs.trans hs₁)
    obtain ⟨l, hp, hself, hother⟩ := Config.step_focus t hstep
    by_cases hu : u = t
    · subst hu
      rw [hself rfl]
      exact ih.step hfind hnames (hassertion u) (step_of_program hp)
    · rw [hother hu]
      exact ih

/-- **When a call does no harm.**  After any calls that name users, and with any such calls beside
it and after it, a call is sound exactly when it names a user as well. -/
theorem sound_iff_known (registry : List User)
    (hs : Reachable program (knownNames registry) (initial registry) s) {userName : String}
    {amount : ℤ} (hcall : s.step program t (.call userName amount) = some s₁) :
    (∀ s', Reachable program (knownNames registry) s₁ s' → Sound registry s') ↔
      ∃ user ∈ registry, user.name = userName := by
  constructor
  · intro hsound
    by_contra hunknown
    have hfind : find registry userName = none :=
      find_eq_none_iff.mpr fun user hmem hname => hunknown ⟨user, hmem, hname⟩
    -- the calls in progress can be completed, and this one is among them
    obtain ⟨as, s', hall, hrun, hidle⟩ := (hsound s₁ .init).completes.exists_run
    have hstart : Stuck userName (s₁.locals t) := by
      obtain ⟨l, hp, hself, -⟩ := Config.step_focus t hcall
      rw [hself rfl]
      exact .of_call (step_of_program hp)
    have hs₁ : Reachable program anyStep (initial registry) s₁ :=
      (hs.mono fun _ _ _ _ => trivial).step trivial hcall
    have hs' : Reachable program anyStep s₁ s' :=
      .of_run as s₁ s' .init (hall.mono (fun _ _ _ _ => trivial) as s₁) hrun
    exact (reachable_stuck hfind hs₁ hstart hs').not_idle (hidle t)
  · intro hknown s' hs'
    refine reachable_sound ((hs.step (fun name _ he => ?_) hcall).trans hs')
    cases he
    exact hknown

end Run

/-- A single thread calls the function for a name that no user has. -/
def nobodyRun : List (Unit × Choice) :=
  ((), .call "nobody" 5) :: List.replicate 12 ((), .run)

/-- The call goes through the null pointer, with both mutexes held. -/
theorem not_sound_nobodyRun : ∃ s, (initial mainRegistry).run program nobodyRun = some s ∧
    (s.locals ()).point = .undefined ∧
    s.shared.mutexes.internalMutex .highLevelMutex = some () ∧
    s.shared.mutexes.internalMutex .lowLevelMutex = some () ∧ ¬ Sound mainRegistry s := by
  have hpoint : ((((initial mainRegistry).run program nobodyRun).get (by decide)).locals ()).point =
      .undefined := by decide
  exact ⟨_, (Option.some_get _).symm, hpoint, by decide, by decide,
    fun hsound => hsound.notNull () hpoint⟩

theorem sound_iff_known_alejandro :
    ∃ s₁, (initial mainRegistry).step program () (.call "alejandro" 100) = some s₁ ∧
      ∀ s', Reachable program (knownNames mainRegistry) s₁ s' → Sound mainRegistry s' := by
  obtain ⟨s₁, hcall⟩ := exists_call (s := initial mainRegistry) (t := ()) rfl "alejandro" 100
  exact ⟨s₁, hcall, (sound_iff_known mainRegistry .init hcall).mpr (by decide)⟩

end ConcurrencyInAction.UserBalance
