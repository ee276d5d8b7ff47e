import Mathlib.Logic.Function.Basic
import Mathlib.Order.Basic

/-!
# Interleavings of thread programs

A program is given one atomic step at a time: from the thread that runs it, a choice the code does
not make by itself (which call to start, whether an exception arises, which sleeper is woken), the
shared state and the thread's own state, to the two new states.  Nothing is assumed about how many
threads there are.

* `Program`, `Config`, `Config.step`, `Config.run`: the sequentially consistent interleavings;
  `Config.step_focus`: a step as one thread sees it;
* `Reachable p ok s₀`: the states reached from `s₀` by steps that satisfy `ok`;
* `Reachable.invariant`: what every step preserves holds in every reachable state;
  `Reachable.local_invariant` for the threads' own states;
* `RelyGuarantee`, `Reachable.rely_guarantee`: the thread-modular form, where the stepping thread
  re-establishes its own assertion and every other thread only sees a change it relies on;
* `Config.allStates_iff_allSteps`: along one run, a property holds in every state exactly when
  every step is a good one;
* `Config.solo`, `Config.run_of_solo`: one thread alone, and the run of the system that this is;
* `Config.run_spec`: along one run, what every step keeps holds at the end, and a measure that every
  step decreases bounds the length;
* `Config.countSteps`, `Config.run_count`, `Config.countSteps_le`: how many steps of a run are of
  one kind.
-/

namespace Interleaving

variable {T C G L H K : Type*}

/-- One atomic step of the code: `none` when the thread cannot take it (it is blocked, or the
choice does not belong to the point it is at). -/
abbrev Program (T C G L : Type*) := T → C → G → L → Option (G × L)

/-- A state of the whole system: the shared state and the state of every thread. -/
structure Config (T G L : Type*) where
  shared : G
  locals : T → L

namespace Config

variable [DecidableEq T]

/-- Thread `t` takes the step chosen by `c`. -/
def step (p : Program T C G L) (s : Config T G L) (t : T) (c : C) : Option (Config T G L) :=
  (p t c s.shared (s.locals t)).map fun r => ⟨r.1, Function.update s.locals t r.2⟩

/-- A run: the listed threads take the listed steps in turn. -/
def run (p : Program T C G L) : Config T G L → List (T × C) → Option (Config T G L)
  | s, [] => some s
  | s, (t, c) :: as => (s.step p t c).bind fun s' => run p s' as

/-- Every step of the run satisfies `ok`, a condition on the state before it. -/
def AllSteps (p : Program T C G L) (ok : Config T G L → T → C → Prop) :
    Config T G L → List (T × C) → Prop
  | _, [] => True
  | s, (t, c) :: as => ok s t c ∧ ∀ s' ∈ s.step p t c, AllSteps p ok s' as

instance AllSteps.decidable (p : Program T C G L) (ok : Config T G L → T → C → Prop)
    [∀ s t c, Decidable (ok s t c)] :
    ∀ (s : Config T G L) (as : List (T × C)), Decidable (AllSteps p ok s as)
  | _, [] => isTrue trivial
  | s, (t, c) :: as =>
      have : DecidablePred fun s' => AllSteps p ok s' as := fun s' => AllSteps.decidable p ok s' as
      inferInstanceAs (Decidable (ok s t c ∧ ∀ s' ∈ s.step p t c, AllSteps p ok s' as))

theorem AllSteps.mono {p : Program T C G L} {ok ok' : Config T G L → T → C → Prop}
    (himp : ∀ s t c, ok s t c → ok' s t c) :
    ∀ (as : List (T × C)) (s : Config T G L), s.AllSteps p ok as → s.AllSteps p ok' as := by
  intro as
  induction as with
  | nil => intro s _; trivial
  | cons a as ih =>
    obtain ⟨t, c⟩ := a
    intro s h
    exact ⟨himp s t c h.1, fun s' hs' => ih s' (h.2 s' hs')⟩

/-- A condition that the steps satisfy in every state. -/
theorem AllSteps.of_forall {p : Program T C G L} {ok : Config T G L → T → C → Prop}
    {as : List (T × C)} {s : Config T G L} (h : ∀ a ∈ as, ∀ s, ok s a.1 a.2) :
    s.AllSteps p ok as := by
  induction as generalizing s with
  | nil => trivial
  | cons a as ih =>
    exact ⟨h a List.mem_cons_self s, fun s' _ => ih fun b hb => h b (List.mem_cons_of_mem a hb)⟩

/-- Every state of the run satisfies `Q`, the first one included. -/
def AllStates (p : Program T C G L) (Q : Config T G L → Prop) :
    Config T G L → List (T × C) → Prop
  | s, [] => Q s
  | s, (t, c) :: as => Q s ∧ ∀ s' ∈ s.step p t c, AllStates p Q s' as

theorem step_eq_some {p : Program T C G L} {s s' : Config T G L} {t : T} {c : C} :
    s.step p t c = some s' ↔ ∃ g l,
      p t c s.shared (s.locals t) = some (g, l) ∧ s' = ⟨g, Function.update s.locals t l⟩ := by
  simp only [step, Option.map_eq_some_iff, Prod.exists]
  constructor
  · intro h
    obtain ⟨g, l, h, rfl⟩ := h
    exact ⟨g, l, h, rfl⟩
  · intro h
    obtain ⟨g, l, h, rfl⟩ := h
    exact ⟨g, l, h, rfl⟩

/-- A step, seen from thread `u`: its own steps move it, and those of the others leave it where it
is. -/
theorem step_focus {p : Program T C G L} {s s' : Config T G L} {t : T} {c : C} (u : T)
    (h : s.step p t c = some s') : ∃ l, p t c s.shared (s.locals t) = some (s'.shared, l) ∧
      (t = u → s'.locals u = l) ∧ (t ≠ u → s'.locals u = s.locals u) := by
  obtain ⟨g, l, hp, rfl⟩ := step_eq_some.mp h
  refine ⟨l, hp, fun htu => ?_, fun htu => ?_⟩
  · subst htu
    exact Function.update_self t l s.locals
  · exact Function.update_of_ne (Ne.symm htu) l s.locals

theorem run_cons_eq_some {p : Program T C G L} {s s' : Config T G L} {t : T} {c : C}
    {as : List (T × C)} :
    s.run p ((t, c) :: as) = some s' ↔ ∃ s₁, s.step p t c = some s₁ ∧ s₁.run p as = some s' := by
  simp only [run, Option.bind_eq_some_iff]

/-- A property of the states of one run, decided step by step: a good step keeps the invariant,
which gives the property; a bad step breaks the property at once. -/
theorem allStates_iff_allSteps {p : Program T C G L} {ok : Config T G L → T → C → Prop}
    {I Q : Config T G L → Prop} (hQ : ∀ s, I s → Q s)
    (hgood : ∀ s t c s', I s → ok s t c → s.step p t c = some s' → I s')
    (hbad : ∀ s t c s', I s → ¬ ok s t c → s.step p t c = some s' → ¬ Q s') :
    ∀ (as : List (T × C)) (s : Config T G L), I s → (s.run p as).isSome →
      (AllStates p Q s as ↔ AllSteps p ok s as) := by
  intro as
  induction as with
  | nil => intro s hs _; exact ⟨fun _ => trivial, fun _ => hQ s hs⟩
  | cons a as ih =>
    obtain ⟨t, c⟩ := a
    intro s hs hrun
    obtain ⟨s'', hs''⟩ := Option.isSome_iff_exists.mp hrun
    obtain ⟨s₁, hstep, hrest⟩ := run_cons_eq_some.mp hs''
    have hrest' : (s₁.run p as).isSome := by rw [hrest]; rfl
    constructor
    · intro hstates
      obtain ⟨_, hall⟩ := hstates
      have hall₁ := hall s₁ hstep
      have hok : ok s t c := by
        by_contra hno
        -- a bad step contradicts the property in the very next state
        have hnQ := hbad s t c s₁ hs hno hstep
        cases as with
        | nil => exact hnQ hall₁
        | cons b bs => exact hnQ hall₁.1
      refine ⟨hok, fun s' hs' => ?_⟩
      have he : s' = s₁ := Option.some.inj (hs'.symm.trans hstep)
      subst he
      exact (ih s' (hgood s t c s' hs hok hstep) hrest').mp hall₁
    · intro hsteps
      obtain ⟨hok, hall⟩ := hsteps
      refine ⟨hQ s hs, fun s' hs' => ?_⟩
      have he : s' = s₁ := Option.some.inj (hs'.symm.trans hstep)
      subst he
      exact (ih s' (hgood s t c s' hs hok hstep) hrest').mpr (hall s' hstep)

/-- Along a run whose steps are all allowed, an invariant that they keep holds at the end, and a
measure that they decrease bounds the length of the run. -/
theorem run_spec {p : Program T C G L} {ok : Config T G L → T → C → Prop} {I : Config T G L → Prop}
    (μ : Config T G L → ℕ)
    (hstep : ∀ s t c s', I s → ok s t c → s.step p t c = some s' → I s' ∧ μ s' < μ s) :
    ∀ (as : List (T × C)) (s s' : Config T G L), I s → s.AllSteps p ok as →
      s.run p as = some s' → I s' ∧ as.length + μ s' ≤ μ s := by
  intro as
  induction as with
  | nil =>
    intro s s' hs _ h
    cases h
    refine ⟨hs, ?_⟩
    simp
  | cons a as ih =>
    obtain ⟨t, c⟩ := a
    intro s s' hs hall h
    obtain ⟨s₁, hst, hrest⟩ := run_cons_eq_some.mp h
    obtain ⟨hs₁, hlt⟩ := hstep s t c s₁ hs hall.1 hst
    obtain ⟨hs', hle⟩ := ih s₁ s' hs₁ (hall.2 s₁ hst) hrest
    refine ⟨hs', ?_⟩
    rw [List.length_cons]
    omega

/-- How many steps of the run are among those that `f` selects. -/
def countSteps (p : Program T C G L) (f : Config T G L → T → C → Bool) :
    Config T G L → List (T × C) → ℕ
  | _, [] => 0
  | s, (t, c) :: as =>
      (if f s t c then 1 else 0) + (s.step p t c).elim 0 fun s' => countSteps p f s' as

/-- What holds of a state and a count, and still holds when a selected step is counted, holds of the
last state of a run and the number of its selected steps. -/
theorem run_count {p : Program T C G L} {f : Config T G L → T → C → Bool}
    {J : Config T G L → ℕ → Prop}
    (hstep : ∀ s t c s' n, J s n → s.step p t c = some s' →
      J s' (n + if f s t c then 1 else 0)) :
    ∀ (as : List (T × C)) (s s' : Config T G L) (n : ℕ), J s n → s.run p as = some s' →
      J s' (n + s.countSteps p f as) := by
  intro as
  induction as with
  | nil =>
    intro s s' n hs h
    cases h
    exact hs
  | cons a as ih =>
    obtain ⟨t, c⟩ := a
    intro s s' n hs h
    obtain ⟨s₁, hst, hrest⟩ := run_cons_eq_some.mp h
    have hnext := ih s₁ s' _ (hstep s t c s₁ n hs hst) hrest
    rw [countSteps, hst, Option.elim_some, ← Nat.add_assoc]
    exact hnext

/-- Along a run whose steps are all allowed, a measure that the selected steps decrease, and the
others do not increase, bounds the number of the selected ones. -/
theorem countSteps_le {p : Program T C G L} {ok : Config T G L → T → C → Prop}
    {f : Config T G L → T → C → Bool} {I : Config T G L → Prop} (μ : Config T G L → ℕ)
    (hstep : ∀ s t c s', I s → ok s t c → s.step p t c = some s' →
      I s' ∧ (if f s t c then 1 else 0) + μ s' ≤ μ s) :
    ∀ (as : List (T × C)) (s s' : Config T G L), I s → s.AllSteps p ok as →
      s.run p as = some s' → I s' ∧ s.countSteps p f as + μ s' ≤ μ s := by
  intro as
  induction as with
  | nil =>
    intro s s' hs _ h
    cases h
    refine ⟨hs, ?_⟩
    simp [countSteps]
  | cons a as ih =>
    obtain ⟨t, c⟩ := a
    intro s s' hs hall h
    obtain ⟨s₁, hst, hrest⟩ := run_cons_eq_some.mp h
    obtain ⟨hs₁, hle₁⟩ := hstep s t c s₁ hs hall.1 hst
    obtain ⟨hs', hle⟩ := ih s₁ s' hs₁ (hall.2 s₁ hst) hrest
    refine ⟨hs', ?_⟩
    rw [countSteps, hst, Option.elim_some]
    omega

/-- The listed steps of thread `t` alone, from a shared state and a state of the thread. -/
def solo (p : Program T C G L) (t : T) : G × L → List C → Option (G × L)
  | r, [] => some r
  | r, c :: cs => (p t c r.1 r.2).bind fun r' => solo p t r' cs

omit [DecidableEq T] in
theorem solo_append {p : Program T C G L} {t : T} :
    ∀ (cs ds : List C) (r r' : G × L), solo p t r cs = some r' →
      solo p t r (cs ++ ds) = solo p t r' ds := by
  intro cs ds
  induction cs with
  | nil =>
    intro r r' h
    cases h
    rfl
  | cons c cs ih =>
    intro r r' h
    obtain ⟨r₁, hp, hrest⟩ := Option.bind_eq_some_iff.mp h
    rw [List.cons_append, solo, hp]
    exact ih r₁ r' hrest

/-- What a thread does alone is a run of the system. -/
theorem run_of_solo {p : Program T C G L} {t : T} {g : G} {l : L} :
    ∀ (cs : List C) (s : Config T G L), solo p t (s.shared, s.locals t) cs = some (g, l) →
      s.run p (cs.map fun c => (t, c)) = some ⟨g, Function.update s.locals t l⟩ := by
  intro cs
  induction cs with
  | nil =>
    intro s h
    cases h
    rw [Function.update_eq_self]
    rfl
  | cons c cs ih =>
    intro s h
    obtain ⟨⟨g₁, l₁⟩, hp, hrest⟩ := Option.bind_eq_some_iff.mp h
    rw [List.map_cons, run_cons_eq_some]
    refine ⟨⟨g₁, Function.update s.locals t l₁⟩, step_eq_some.mpr ⟨g₁, l₁, hp, rfl⟩, ?_⟩
    have halone : solo p t (g₁, Function.update s.locals t l₁ t) cs = some (g, l) := by
      rw [Function.update_self]
      exact hrest
    have hnext := ih ⟨g₁, Function.update s.locals t l₁⟩ halone
    rw [Function.update_idem] at hnext
    exact hnext

/-- The same system seen through a map of the shared state and a map of the threads' states. -/
def map (f : G → H) (k : L → K) (s : Config T G L) : Config T H K :=
  ⟨f s.shared, fun t => k (s.locals t)⟩

end Config

/-- The states reached from `s₀` by any interleaving of steps that satisfy `ok`. -/
inductive Reachable [DecidableEq T] (p : Program T C G L) (ok : Config T G L → T → C → Prop)
    (s₀ : Config T G L) : Config T G L → Prop
  | init : Reachable p ok s₀ s₀
  | step {s s' : Config T G L} {t : T} {c : C} : Reachable p ok s₀ s → ok s t c →
      s.step p t c = some s' → Reachable p ok s₀ s'

/-- No restriction on the steps. -/
def anyStep : Config T G L → T → C → Prop := fun _ _ _ => True

namespace Reachable

variable [DecidableEq T] {p : Program T C G L} {ok : Config T G L → T → C → Prop}
  {s₀ s : Config T G L}

/-- **Invariants.**  What holds at the start and is kept by every allowed step of the code holds
in every reachable state. -/
theorem invariant {I : Config T G L → Prop} (h₀ : I s₀)
    (hstep : ∀ s t c g l, Reachable p ok s₀ s → I s → ok s t c →
      p t c s.shared (s.locals t) = some (g, l) → I ⟨g, Function.update s.locals t l⟩)
    (hs : Reachable p ok s₀ s) : I s := by
  induction hs with
  | init => exact h₀
  | step hr hok hst ih =>
    obtain ⟨g, l, hp, rfl⟩ := Config.step_eq_some.mp hst
    exact hstep _ _ _ g l hr ih hok hp

/-- What holds of every thread's own state at the start, and is kept by the thread's own steps,
holds in every reachable state. -/
theorem local_invariant {P : T → L → Prop} (h₀ : ∀ t, P t (s₀.locals t))
    (hstep : ∀ s t c g l, Reachable p ok s₀ s → P t (s.locals t) → ok s t c →
      p t c s.shared (s.locals t) = some (g, l) → P t l)
    (hs : Reachable p ok s₀ s) (t : T) : P t (s.locals t) := by
  revert t
  apply hs.invariant (I := fun s => ∀ t, P t (s.locals t)) h₀
  intro s t c g l hr hI hok hp u
  show P u (Function.update s.locals t l u)
  by_cases hu : u = t
  · subst hu
    rw [Function.update_self]
    exact hstep s u c g l hr (hI u) hok hp
  · rw [Function.update_of_ne hu]
    exact hI u

theorem mono {ok' : Config T G L → T → C → Prop} (himp : ∀ s t c, ok s t c → ok' s t c)
    (hs : Reachable p ok s₀ s) : Reachable p ok' s₀ s := by
  induction hs with
  | init => exact .init
  | step _ hok hst ih => exact ih.step (himp _ _ _ hok) hst

theorem trans {s' : Config T G L} (hs : Reachable p ok s₀ s) (hs' : Reachable p ok s s') :
    Reachable p ok s₀ s' := by
  induction hs' with
  | init => exact hs
  | step _ hok hst ih => exact ih.step hok hst

/-- The states of a run whose steps are all allowed are reachable. -/
theorem of_run : ∀ (as : List (T × C)) (s s' : Config T G L), Reachable p ok s₀ s →
    s.AllSteps p ok as → s.run p as = some s' → Reachable p ok s₀ s' := by
  intro as
  induction as with
  | nil =>
    intro s s' hs _ h
    cases h
    exact hs
  | cons a as ih =>
    obtain ⟨t, c⟩ := a
    intro s s' hs hall h
    obtain ⟨s₁, hstep, hrest⟩ := Config.run_cons_eq_some.mp h
    exact ih s₁ s' (hs.step hall.1 hstep) (hall.2 s₁ hstep) hrest

/-- Without a restriction every run reaches a reachable state. -/
theorem of_run_any (as : List (T × C)) {s' : Config T G L} (h : s₀.run p as = some s') :
    Reachable p anyStep s₀ s' :=
  of_run as s₀ s' init (.of_forall fun _ _ _ => trivial) h

end Reachable

/-- The thread-modular proof obligations.  `S` speaks of the shared state alone, `P t` of the shared
state and the state of thread `t`, and `Rely u` is what thread `u` may assume about a step of
another thread. -/
structure RelyGuarantee (p : Program T C G L) (ok : Config T G L → T → C → Prop)
    (S : G → Prop) (P : T → G → L → Prop) (Rely : T → G → G → Prop) : Prop where
  /-- An assertion survives every step its thread relies on. -/
  stable : ∀ u g g' l, Rely u g g' → P u g l → P u g' l
  /-- A step re-establishes the shared assertion and its thread's own one, and is a step that the
  other threads rely on. -/
  step : ∀ s t c g' l', S s.shared → (∀ u, P u s.shared (s.locals u)) → ok s t c →
    p t c s.shared (s.locals t) = some (g', l') →
    S g' ∧ P t g' l' ∧ ∀ u, u ≠ t → Rely u s.shared g'

/-- One step keeps the assertions of all threads. -/
theorem RelyGuarantee.keeps [DecidableEq T] {p : Program T C G L}
    {ok : Config T G L → T → C → Prop} {S : G → Prop} {P : T → G → L → Prop}
    {Rely : T → G → G → Prop} (h : RelyGuarantee p ok S P Rely) {s s' : Config T G L} {t : T}
    {c : C}
    (hs : S s.shared ∧ ∀ u, P u s.shared (s.locals u)) (hok : ok s t c)
    (hstep : s.step p t c = some s') : S s'.shared ∧ ∀ u, P u s'.shared (s'.locals u) := by
  obtain ⟨g, l, hp, rfl⟩ := Config.step_eq_some.mp hstep
  obtain ⟨hS, hP, hrely⟩ := h.step s t c g l hs.1 hs.2 hok hp
  refine ⟨hS, fun u => ?_⟩
  by_cases hu : u = t
  · subst hu
    simpa using hP
  · show P u g (Function.update s.locals t l u)
    rw [Function.update_of_ne hu]
    exact h.stable u _ _ _ (hrely u hu) (hs.2 u)

/-- **Rely and guarantee.**  Every reachable state satisfies the shared assertion and the assertion
of every thread. -/
theorem Reachable.rely_guarantee [DecidableEq T] {p : Program T C G L}
    {ok : Config T G L → T → C → Prop} {S : G → Prop} {P : T → G → L → Prop}
    {Rely : T → G → G → Prop} (h : RelyGuarantee p ok S P Rely) {s₀ s : Config T G L}
    (h₀ : S s₀.shared ∧ ∀ u, P u s₀.shared (s₀.locals u)) (hs : Reachable p ok s₀ s) :
    S s.shared ∧ ∀ u, P u s.shared (s.locals u) := by
  induction hs with
  | init => exact h₀
  | step _ hok hst ih => exact h.keeps ih hok hst

end Interleaving
