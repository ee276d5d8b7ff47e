import ConcurrencyInAction.UserBalance.Model

/-!
# The locks of `update_user_balance`

* `Point.held`, `AtPoint`: the mutexes a thread holds at each statement; every call of a mutex
  function respects the hierarchy (`Point.Member.respects`);
* `DataAt`: what a thread knows of the user it has found, and of the balance it has read;
* `Assertion.step`: every step keeps the assertion.  Other threads rely on the holder of
  `low_level_mutex` being alone with the registry;
* `exists_enabled`: while a call is in progress, some call in progress can take its next step.
-/

namespace ConcurrencyInAction.UserBalance

open Interleaving ExclusiveLock
open HierachicalMutex (Call GlobalMutex globalHierarchyValue Calling Respects)

variable {T : Type*}

/-- The mutexes held on arrival at a statement, the most recent first. -/
def Point.held : Point → List GlobalMutex
  | .idle | .lockHigh => []
  | .find | .lockLow _ | .unlockHigh => [.highLevelMutex]
  | .readBalance _ | .writeBalance _ _ | .unlockLow | .undefined =>
      [.lowLevelMutex, .highLevelMutex]

/-- The state of the mutexes' code for a thread at each statement. -/
def AtPoint (p : Point) (k : HierachicalMutex.Thread GlobalMutex) : Prop :=
  match p with
  | .lockHigh => Calling (.lock .highLevelMutex) p.held k
  | .lockLow _ => Calling (.lock .lowLevelMutex) p.held k
  | .unlockLow => Calling (.unlock .lowLevelMutex) p.held k
  | .unlockHigh => Calling (.unlock .highLevelMutex) p.held k
  | _ => k.point = .idle ∧ k.acquired = p.held

variable {p : Point} {f : Call GlobalMutex} {next : Thread → Thread}
  {k k' : HierachicalMutex.Thread GlobalMutex}

/-- Both functions lock downwards and unlock in the reverse order. -/
theorem Point.Member.respects (hm : p.Member f next) (l : Thread) :
    Respects globalHierarchyValue f p.held (next l).point.held := by
  have hhigh : globalHierarchyValue .highLevelMutex <
    HierachicalMutex.level globalHierarchyValue [] := by decide
  have hlow : globalHierarchyValue .lowLevelMutex <
    HierachicalMutex.level globalHierarchyValue [.highLevelMutex] := by decide
  cases hm with
  | lockHigh => exact .lock hhigh
  | lockLow user => exact .lock hlow
  | unlockLow => exact .unlock
  | unlockHigh => exact .unlock

theorem AtPoint.calling (hm : p.Member f next) (h : AtPoint p k) : Calling f p.held k := by
  cases hm <;> exact h

theorem AtPoint.of_calling (hm : p.Member f next) (h : Calling f p.held k) : AtPoint p k := by
  cases hm <;> exact h

theorem AtPoint.of_idle (hp : k.point = .idle) (hacq : k.acquired = p.held) : AtPoint p k := by
  have hcalling : ∀ f : Call GlobalMutex, Calling f p.held k := by
    intro f
    unfold Calling
    rw [hp]
    exact hacq
  cases p with
  | lockHigh | lockLow _ | unlockLow | unlockHigh => exact hcalling _
  | _ => exact ⟨hp, hacq⟩

/-! ### The registry -/

/-- Only balances change. -/
def SameNames (registry registry' : List User) : Prop :=
  registry'.map (·.name) = registry.map (·.name)

theorem find_congr {registry registry' : List User} (h : SameNames registry registry')
    (name : String) : find registry' name = find registry name := by
  induction registry generalizing registry' with
  | nil =>
    rw [List.map_eq_nil_iff.mp h]
  | cons u us ih =>
    obtain ⟨u', us', rfl, hu, hus⟩ := List.map_eq_cons_iff.mp h
    rw [find, find, hu, ih hus]

theorem SameNames.length {registry registry' : List User} (h : SameNames registry registry') :
    registry'.length = registry.length := by
  have hlen := congrArg List.length h
  rwa [List.length_map, List.length_map] at hlen

theorem find_lt_length {registry : List User} {name : String} {i : ℕ}
    (h : find registry name = some i) : i < registry.length := by
  induction registry generalizing i with
  | nil => exact nomatch h
  | cons u us ih =>
    rw [find] at h
    split at h
    · cases h
      exact Nat.succ_pos _
    · obtain ⟨j, hj, rfl⟩ := Option.map_eq_some_iff.mp h
      exact Nat.succ_lt_succ (ih hj)

theorem SameNames.setBalance {registry : List User} {g : Shared T}
    (h : SameNames registry g.registry) (i : ℕ) (balance : ℤ) :
    SameNames registry (g.setBalance i balance).registry := by
  refine Eq.trans ?_ h
  show (g.registry.modify i _).map _ = g.registry.map _
  apply List.ext_getElem?
  intro j
  rw [List.getElem?_map, List.getElem?_map, List.getElem?_modify]
  cases g.registry[j]? with
  | none => rfl
  | some u => by_cases hij : i = j <;> simp [hij]

/-! ### The assertion of one thread -/

/-- What a thread knows of the user it has found in the registry, and of the balance it has read. -/
def DataAt (registry : List User) (g : Shared T) (l : Thread) : Prop :=
  match l.point with
  | .lockLow user | .readBalance user => user = find registry l.userName
  | .writeBalance i balance =>
      find registry l.userName = some i ∧ g.registry[i]?.map (·.balance) = some balance
  | .undefined => find registry l.userName = none
  | _ => True

/-- The assertion of thread `t`; `registry` is the registry at the start. -/
structure Assertion (registry : List User) (t : T) (g : Shared T) (l : Thread) : Prop where
  mutexes : HierachicalMutex.Assertion globalHierarchyValue t g.mutexes l.mutexes
  atPoint : AtPoint l.point l.mutexes
  noLogicError : l.mutexes.NoLogicError
  noThrow : ∀ what, l.outcome ≠ some (.threw what)
  unfinished : l.point ≠ .idle → l.outcome = none
  data : DataAt registry g l

/-- What thread `u` relies on. -/
structure Rely (u : T) (g g' : Shared T) : Prop where
  mutexes : HierachicalMutex.Rely u g.mutexes g'.mutexes
  registry : g.mutexes.internalMutex .lowLevelMutex = some u → g'.registry = g.registry

variable {registry : List User} {t u : T} {g g' : Shared T} {l l' : Thread}

theorem Rely.refl (u : T) (g : Shared T) : Rely u g g :=
  ⟨HierachicalMutex.Rely.refl u g.mutexes, fun _ => rfl⟩

/-- A thread that is to write the balance holds `low_level_mutex`. -/
theorem Assertion.owns_low (h : Assertion registry t g l) {i : ℕ} {balance : ℤ}
    (hp : l.point = .writeBalance i balance) :
    g.mutexes.internalMutex .lowLevelMutex = some t := by
  have ha := h.atPoint
  rw [hp] at ha
  apply (h.mutexes.owns _).mp
  rw [ha.2]
  exact List.mem_cons_self

theorem Assertion.stable (hr : Rely u g g') (h : Assertion registry u g l) :
    Assertion registry u g' l where
  mutexes := h.mutexes.stable hr.mutexes
  atPoint := h.atPoint
  noLogicError := h.noLogicError
  noThrow := h.noThrow
  unfinished := h.unfinished
  data := by
    have hd := h.data
    unfold DataAt at hd ⊢
    split at hd
    case h_3 i balance hp =>
      rw [hr.registry (h.owns_low hp)]
      exact hd
    all_goals exact hd

/-! ### One step -/

theorem Thread.advance_of_ne (hp : l.mutexes.point ≠ .idle) : l.advance next = l := by
  unfold advance
  split
  · exact absurd ‹_› hp
  · exact absurd ‹_› hp
  · rfl

theorem Thread.advance_of_idle (hp : l.mutexes.point = .idle) (hno : l.mutexes.NoLogicError) :
    l.advance next = next l := by
  unfold advance
  split
  · exact absurd ‹_› (hno _)
  · rfl
  · exact absurd hp ‹_›

/-- A mutex function that is called as the hierarchy allows is still running, or has returned; the
function goes on without an exception. -/
theorem Assertion.advance {m : HierachicalMutex.Shared T GlobalMutex}
    (h : Assertion registry t g l) (hm : l.point.Member f next)
    (hst : HierachicalMutex.Step globalHierarchyValue t g.mutexes l.mutexes (l.mutexes.choice f) m
      k) :
    k.NoLogicError ∧
      (Calling f l.point.held k ∧ { l with mutexes := k }.advance next = { l with mutexes := k } ∨
        k.point = .idle ∧ k.acquired = (next l).point.held ∧
          { l with mutexes := k }.advance next = next { l with mutexes := k }) := by
  obtain ⟨hno, ⟨hp, hacq⟩ | ⟨hp, hc⟩⟩ := HierachicalMutex.Calling.step (hm.respects l) h.mutexes
    (h.atPoint.calling hm) h.noLogicError hst
  · exact ⟨hno, .inr ⟨hp, hacq, Thread.advance_of_idle hp hno⟩⟩
  · exact ⟨hno, .inl ⟨hc, Thread.advance_of_ne hp⟩⟩

/-- The function goes on after a mutex function. -/
theorem Assertion.goesOn (hm : l.point.Member f next)
    (hk : HierachicalMutex.Assertion globalHierarchyValue t g'.mutexes k) (hno : k.NoLogicError)
    (hp : k.point = .idle) (hacq : k.acquired = (next l).point.held)
    (h : Assertion registry t g l) : Assertion registry t g' (next { l with mutexes := k }) := by
  have hthrow := h.noThrow
  have hunfinished := h.unfinished
  have hd := h.data
  unfold DataAt at hd
  generalize hpt : l.point = pt at hm hd hunfinished
  cases hm with
  | lockHigh =>
    exact ⟨hk, .of_idle hp hacq, hno, hthrow, fun _ => hunfinished nofun, trivial⟩
  | lockLow user =>
    exact ⟨hk, .of_idle hp hacq, hno, hthrow, fun _ => hunfinished nofun, hd⟩
  | unlockLow =>
    exact ⟨hk, .of_idle hp hacq, hno, hthrow, fun _ => hunfinished nofun, trivial⟩
  | unlockHigh =>
    exact ⟨hk, .of_idle hp hacq, hno, nofun, fun hne => absurd rfl hne, trivial⟩

/-- A step of the function's own, from a statement to the next one. -/
theorem Assertion.goto (h : Assertion registry t g l) (hm : g'.mutexes = g.mutexes) (p : Point)
    (hidle : l.mutexes.point = .idle) (hacq : l.mutexes.acquired = p.held)
    (hunfinished : l.outcome = none) (hd : DataAt registry g' (l.goto p)) :
    Assertion registry t g' (l.goto p) where
  mutexes := by
    rw [hm]
    exact h.mutexes
  atPoint := .of_idle hidle hacq
  noLogicError := h.noLogicError
  noThrow := h.noThrow
  unfinished _ := hunfinished
  data := hd

/-- **The step lemma.** -/
theorem Assertion.step {s : Config T (Shared T) Thread} {c : Choice}
    (hS : SameNames registry s.shared.registry) (h : Assertion registry t s.shared (s.locals t))
    (hstep : Step t s.shared (s.locals t) c g' l') :
    SameNames registry g'.registry ∧ Assertion registry t g' l' ∧
      ∀ u, u ≠ t → Rely u s.shared g' := by
  have ha := h.atPoint
  have hunfinished := h.unfinished
  have hd := h.data
  unfold DataAt at hd
  cases hstep with
  | call userName amount hp =>
    rw [hp] at ha
    refine ⟨hS, ⟨h.mutexes, .of_idle ha.1 ha.2, h.noLogicError, nofun, fun _ => rfl, trivial⟩, ?_⟩
    exact fun u _ => Rely.refl u _
  | @member f next m k hm hst =>
    have hok := HierachicalMutex.Calling.unlocksHeld (s := s.map Shared.mutexes Thread.mutexes)
      (hm.respects (s.locals t)) h.mutexes (ha.calling hm)
    obtain ⟨hk, hrely⟩ := HierachicalMutex.Assertion.step
      (s := s.map Shared.mutexes Thread.mutexes) h.mutexes hok hst
    refine ⟨hS, ?_, fun u hu => ⟨hrely u hu, fun _ => rfl⟩⟩
    obtain ⟨hno, ⟨hc, hl⟩ | ⟨hp, hacq, hl⟩⟩ := h.advance hm hst
    · rw [hl]
      exact ⟨hk, .of_calling hm hc, hno, h.noThrow, h.unfinished, h.data⟩
    · rw [hl]
      exact h.goesOn hm hk hno hp hacq
  | finds hp =>
    rw [hp] at ha hunfinished
    refine ⟨hS, h.goto rfl _ ha.1 ha.2 (hunfinished nofun) ?_, fun u _ => Rely.refl u _⟩
    exact find_congr hS _
  | @reads i u hp hu =>
    rw [hp] at ha hunfinished hd
    refine ⟨hS, h.goto rfl _ ha.1 ha.2 (hunfinished nofun) ?_, fun u _ => Rely.refl u _⟩
    exact ⟨hd.symm, by rw [hu]; rfl⟩
  | @readsOutside user hp hderef =>
    rw [hp] at ha hunfinished hd
    refine ⟨hS, h.goto rfl _ ha.1 ha.2 (hunfinished nofun) ?_, fun u _ => Rely.refl u _⟩
    show find registry (s.locals t).userName = none
    cases user with
    | none => exact hd.symm
    | some i =>
      have hlt : i < s.shared.registry.length := by
        rw [hS.length]
        exact find_lt_length hd.symm
      have hsome := deref_eq_some.mpr ⟨rfl, List.getElem?_eq_getElem hlt⟩
      exact nomatch hderef.symm.trans hsome
  | @writes i balance hp =>
    have hlow := h.owns_low hp
    rw [hp] at ha hunfinished
    refine ⟨hS.setBalance i _, ?_, fun u hu => ⟨HierachicalMutex.Rely.refl u _, fun hown => ?_⟩⟩
    · refine h.goto ?_ .unlockLow ha.1 ha.2 (hunfinished nofun) trivial
      rfl
    · exact absurd (Option.some.inj (hown.symm.trans hlow)) hu

/-! ### Every run -/

section Run

variable [DecidableEq T]

theorem relyGuarantee (registry : List User)
    (ok : Config T (Shared T) Thread → T → Choice → Prop) :
    RelyGuarantee (program (T := T)) ok (fun g => SameNames registry g.registry)
      (Assertion registry) Rely where
  stable _ _ _ _ hr h := h.stable hr
  step _ t _ _ _ hS hP _ hp := (hP t).step hS (step_of_program hp)

/-- **The invariant.** -/
theorem reachable_assertion {ok : Config T (Shared T) Thread → T → Choice → Prop}
    {s : Config T (Shared T) Thread} (hs : Reachable program ok (initial registry) s) :
    SameNames registry s.shared.registry ∧ ∀ t, Assertion registry t s.shared (s.locals t) := by
  have hnames : SameNames registry (initial (T := T) registry).shared.registry := rfl
  refine hs.rely_guarantee (relyGuarantee registry ok) ⟨hnames, fun t => ?_⟩
  exact ⟨HierachicalMutex.Assertion.init t, ⟨rfl, rfl⟩, nofun, nofun, fun _ => rfl, trivial⟩

omit [DecidableEq T] in
/-- Between two calls a thread holds no mutex. -/
theorem Assertion.not_owner (h : Assertion registry t g l) (hp : l.point = .idle)
    (m : GlobalMutex) : g.mutexes.internalMutex m ≠ some t := by
  have ha := h.atPoint
  rw [hp] at ha
  intro hown
  have hmem := (h.mutexes.owns m).mpr hown
  rw [ha.2] at hmem
  exact nomatch hmem

/-- Between two calls a thread can make any call. -/
theorem exists_call {s : Config T (Shared T) Thread} (hp : (s.locals t).point = .idle)
    (userName : String) (amount : ℤ) :
    ∃ s', s.step program t (.call userName amount) = some s' := by
  have hcall : program t (.call userName amount) s.shared (s.locals t) =
      some (s.shared, (s.locals t).enter userName amount) := by
    simp only [program, hp]
  exact ⟨_, Config.step_eq_some.mpr ⟨_, _, hcall, rfl⟩⟩

/-- Inside the function a thread can take its next step, or it waits for a mutex; past a null
pointer it cannot. -/
theorem Assertion.ready_or_waits (h : Assertion registry t g l) (hp : l.point ≠ .idle)
    (hund : l.point ≠ .undefined) :
    (∃ g' l', program t .run g l = some (g', l')) ∨
      ∃ m u, l.mutexes.point = .lockAcquire m ∧ g.mutexes.internalMutex m = some u := by
  have hmember : ∀ {p f next}, l.point = p → p.Member f next →
      (∃ g' l', program t .run g l = some (g', l')) ∨
        ∃ m u, l.mutexes.point = .lockAcquire m ∧ g.mutexes.internalMutex m = some u := by
    intro p f next hpt hm
    subst hpt
    refine (HierachicalMutex.Calling.ready_or_waits globalHierarchyValue t g.mutexes
      (h.atPoint.calling hm)).imp_left ?_
    intro h
    obtain ⟨m, k, hst⟩ := h
    rw [program_of_member hm]
    exact ⟨_, _, memberStep_eq_some.mpr ⟨m, k, hst, rfl, rfl⟩⟩
  cases hpt : l.point with
  | idle => exact absurd hpt hp
  | undefined => exact absurd hpt hund
  | lockHigh => exact hmember hpt .lockHigh
  | lockLow user => exact hmember hpt (.lockLow user)
  | unlockLow => exact hmember hpt .unlockLow
  | unlockHigh => exact hmember hpt .unlockHigh
  | find => exact .inl ⟨_, _, by simp only [program, hpt]; rfl⟩
  | readBalance user =>
    cases hderef : g.deref user with
    | none => exact .inl ⟨_, _, by simp only [program, hpt, hderef]; rfl⟩
    | some r => exact .inl ⟨_, _, by simp only [program, hpt, hderef]; rfl⟩
  | writeBalance i balance => exact .inl ⟨_, _, by simp only [program, hpt]; rfl⟩

/-- **Progress.**  While calls are in progress, and none has gone through a null pointer, one of
them can take its next step: there is no circular wait, and who holds a mutex is inside a call. -/
theorem exists_enabled {s : Config T (Shared T) Thread}
    (h : ∀ t, Assertion registry t s.shared (s.locals t))
    (hund : ∀ t, (s.locals t).point ≠ .undefined) (hex : ∃ t, (s.locals t).point ≠ .idle) :
    ∃ t, (s.locals t).point ≠ .idle ∧ ∃ s', s.step program t .run = some s' := by
  have hno : ∀ S, ¬ CircularWait (HierachicalMutex.WaitsFor (s.map Shared.mutexes Thread.mutexes))
      s.shared.mutexes.internalMutex S :=
    HierachicalMutex.not_circularWait (s := s.map Shared.mutexes Thread.mutexes)
      fun t => (h t).mutexes
  refine exists_ready (fun t ht => ?_) hno hex
  rcases (h t).ready_or_waits ht (hund t) with ⟨g', l', hp⟩ | ⟨m, u, hw, hown⟩
  · exact .inl ⟨_, Config.step_eq_some.mpr ⟨g', l', hp, rfl⟩⟩
  · exact .inr ⟨m, hw, u, fun hu => (h u).not_owner hu m hown, hown⟩

end Run

end ConcurrencyInAction.UserBalance
