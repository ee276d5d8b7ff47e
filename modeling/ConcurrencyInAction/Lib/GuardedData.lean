import ConcurrencyInAction.Lib.UniqueLock
import Mathlib.Data.Setoid.Basic

/-!
# Data that mutexes guard

What the threads of `UniqueLocks.program` do to the shared data, where every access leaves alone
what its mutexes do not guard.

* `Stmt.Respects`: such an access; the data agree on what `m` guards if `Same m` relates them;
* `Guarded`: the steps of functions whose accesses are such, exceptions included;
* `undisturbed_step`, `undisturbed`: **who owns a mutex has what it guards for itself**, through any
  number of steps of the other threads;
* `Restores`: a function gives its mutexes back with the invariants that it finds when it takes
  them, computed backwards along its statements; `Restores.stable`: the other threads may do what
  they like to what is not owned;
* `Step.restores`, `reachable_invariants`: **the rule of resource invariants**.  What every function
  restores holds whenever the mutex is free.
-/

open Interleaving ExclusiveLock

namespace UniqueLocks

variable {T X M D L : Type*} {Same : M → Setoid D}

/-- The statement leaves alone what its mutexes do not guard. -/
def Stmt.Respects (Same : M → Setoid D) : Stmt X M D L → Prop
  | .access guards f => ∀ m, m ∉ guards → ∀ d vars, Same m d (f d vars).1
  | _ => True

section Step

variable [DecidableEq X] [DecidableEq M] {t : T} {c : Choice X M D L} {g g' : Shared T M D}
  {l l' : Thread X M D L} {m : M}

end Step

section Run

variable [DecidableEq T] [DecidableEq X] [DecidableEq M] {d : D} {vars : T → L}
  {s s' : Config T (Shared T M D) (Thread X M D L)} {t u : T} {c : Choice X M D L} {m : M}
  {Allowed : List (Stmt X M D L) → Prop}

end Run

/-! ### Invariants of what the mutexes guard -/

section Invariants

variable [DecidableEq X] {I : M → D → Prop} {locks : X → Option (UniqueLock M)} {d d' : D}

/-- The data agree on what the lock objects' mutexes guard. -/
def SameOwned (Same : M → Setoid D) (locks : X → Option (UniqueLock M)) (d d' : D) : Prop :=
  ∀ m x, locks x = some (.owning m) → Same m d d'

/-- From these lock objects, data and variables, the statements make `I m` true of the data whenever
they give `m` back, if it is true whenever they take it; meanwhile the other threads change what is
not owned. -/
def Restores (Same : M → Setoid D) (I : M → D → Prop) :
    List (Stmt X M D L) → (X → Option (UniqueLock M)) → D → L → Prop
  | [], locks, d, _ => ∀ m x, locks x = some (.owning m) → I m d
  | .construct x m :: rest, locks, d, vars => ∀ d', SameOwned Same locks d d' → I m d' →
      Restores Same I rest (Function.update locks x (some (.owning m))) d' vars
  | .moveFrom x y :: rest, locks, d, vars => ∀ v, locks y = some v → Restores Same I rest
      (Function.update (Function.update locks x (some v)) y (some .empty)) d vars
  | .lock x :: rest, locks, d, vars => ∀ m, locks x = some (.released m) →
      ∀ d', SameOwned Same locks d d' → I m d' →
        Restores Same I rest (Function.update locks x (some (.owning m))) d' vars
  | .unlock x :: rest, locks, d, vars => ∀ m, locks x = some (.owning m) →
      I m d ∧ Restores Same I rest (Function.update locks x (some (.released m))) d vars
  | .destroy x :: rest, locks, d, vars => (∀ m, locks x = some (.owning m) → I m d) ∧
      Restores Same I rest (Function.update locks x none) d vars
  | .access _ f :: rest, locks, d, vars => ∀ d', SameOwned Same locks d d' →
      Restores Same I rest locks (f d' vars).1 (f d' vars).2
  | .compute f :: rest, locks, d, vars => Restores Same I rest locks d (f vars)

/-- A lock object that becomes another one owns nothing that was not owned before. -/
theorem SameOwned.update {x : X} {v : Option (UniqueLock M)} (h : SameOwned Same locks d d')
    (hv : ∀ m, v = some (.owning m) → Same m d d') :
    SameOwned Same (Function.update locks x v) d d' := by
  intro m y hy
  by_cases hyx : y = x
  · subst hyx
    rw [Function.update_self] at hy
    exact hv m hy
  · rw [Function.update_of_ne hyx] at hy
    exact h m y hy

/-- What others do to data that are not owned does not matter. -/
theorem Restores.stable (hI : ∀ m d d', Same m d d' → I m d → I m d') :
    ∀ (rest : List (Stmt X M D L)) (locks : X → Option (UniqueLock M)) (d d' : D) (vars : L),
      SameOwned Same locks d d' → Restores Same I rest locks d vars →
      Restores Same I rest locks d' vars := by
  have htrans : ∀ {locks : X → Option (UniqueLock M)} {d d' d'' : D}, SameOwned Same locks d d' →
      SameOwned Same locks d' d'' → SameOwned Same locks d d'' :=
    fun h h' m x hx => (Same m).trans' (h m x hx) (h' m x hx)
  intro rest
  induction rest with
  | nil => exact fun locks d d' vars hsame h m x hx => hI m d d' (hsame m x hx) (h m x hx)
  | cons s rest ih =>
    intro locks d d' vars hsame h
    cases s with
    | construct x m => exact fun d'' hsame' => h d'' (htrans hsame hsame')
    | moveFrom x y =>
      intro v hv
      refine ih _ _ _ _ (.update (hsame.update fun m hm => ?_) nofun) (h v hv)
      exact hsame m y (hv.trans hm)
    | lock x => exact fun m hm d'' hsame' => h m hm d'' (htrans hsame hsame')
    | unlock x =>
      intro m hm
      obtain ⟨hinv, hrest⟩ := h m hm
      exact ⟨hI m d d' (hsame m x hm) hinv, ih _ _ _ _ (hsame.update nofun) hrest⟩
    | destroy x =>
      exact ⟨fun m hm => hI m d d' (hsame m x hm) (h.1 m hm),
        ih _ _ _ _ (hsame.update nofun) h.2⟩
    | access guards f => exact fun d'' hsame' => h d'' (htrans hsame hsame')
    | compute f => exact ih _ _ _ _ hsame h

/-- **A step keeps a thread on the way** to restoring the invariants, and gives a mutex back only
with its invariant. -/
theorem Step.restores [DecidableEq M] {t : T} {c : Choice X M D L} {g g' : Shared T M D}
    {l l' : Thread X M D L} (hA : Assertion t g l) (hchecked : InChecked l)
    (hfree : ∀ m, g.owner m = none → I m g.data)
    (hthrows : ∀ d, c = .throws d → ∀ m, g.owner m = some t → I m d)
    (hcalls : ∀ body vars, c = .call body vars →
      Restores Same I body (fun _ => none) g.data vars)
    (h : Restores Same I l.rest l.locks g.data l.vars) (hstep : Step t g l c g' l') :
    Restores Same I l'.rest l'.locks g'.data l'.vars ∧
      ∀ m, g.owner m = some t → g'.owner m = none → I m g'.data := by
  have hrestores : ∀ {s : Stmt X M D L} {rest : List (Stmt X M D L)}, l.rest = s :: rest →
      Restores Same I (s :: rest) l.locks g.data l.vars := fun hrest => hrest ▸ h
  have hnext : ∀ {s : Stmt X M D L} {rest : List (Stmt X M D L)}
      {locks : X → Option (UniqueLock M)} {d : D} {vars : L}, l.rest = s :: rest →
      Restores Same I rest locks d vars → Restores Same I l.next.rest locks d vars := by
    intro s rest locks d vars hrest h
    show Restores Same I l.rest.tail locks d vars
    rw [hrest]
    exact h
  have hrefl : SameOwned Same l.locks g.data g.data := fun m _ _ => (Same m).refl _
  -- a mutex that is held is not given back by a step that gives back none, or another one
  have hkept : ∀ {d : D} m, g.owner m = some t → g.owner m = none → I m d :=
    fun m hheld hnone => nomatch hheld.symm.trans hnone
  have htaken : ∀ {m : M} {d : D} m', g.owner m' = some t →
      Function.update g.owner m (some t) m' = none → I m' d := by
    intro m d m' hheld hnone
    by_cases hm : m' = m
    · subst hm
      rw [Function.update_self] at hnone
      exact nomatch hnone
    · rw [Function.update_of_ne hm] at hnone
      exact hkept m' hheld hnone
  have hgiven : ∀ {m : M} {d : D}, I m d → ∀ m', g.owner m' = some t →
      Function.update g.owner m none m' = none → I m' d := by
    intro m d hinv m' hheld hnone
    by_cases hm : m' = m
    · exact hm ▸ hinv
    · rw [Function.update_of_ne hm] at hnone
      exact hkept m' hheld hnone
  have hdestroys : ∀ {x : X} {l₀ : Thread X M D L}, Destroys l x l₀ →
      Restores Same I l₀.rest (Function.update l₀.locks x none) g.data l₀.vars ∧
        ∀ m, l.locks x = some (.owning m) → I m g.data := by
    intro x l₀ hd
    rcases hd with ⟨hrest, -, he⟩ | ⟨rest, hrest, he⟩
    · subst he
      rw [hrest] at h ⊢
      refine ⟨fun m y hy => ?_, fun m hx => h m x hx⟩
      by_cases hyx : y = x
      · subst hyx
        rw [Function.update_self] at hy
        exact nomatch hy
      · rw [Function.update_of_ne hyx] at hy
        exact h m y hy
    · subst he
      exact ⟨hnext hrest (hrestores hrest).2, (hrestores hrest).1⟩
  cases hstep with
  | calls body vars hrest hscope =>
    have hinScope := hA.inScope
    rw [hscope] at hinScope
    refine ⟨?_, hkept⟩
    show Restores Same I body l.locks g.data vars
    rw [hinScope.eq_none]
    exact hcalls body vars rfl
  | destroysOwning hd hx => exact ⟨(hdestroys hd).1, hgiven ((hdestroys hd).2 _ hx)⟩
  | destroys hd _ _ => exact ⟨(hdestroys hd).1, hkept⟩
  | constructs hrest _ hm =>
    exact ⟨hnext hrest (hrestores hrest g.data hrefl (hfree _ hm)), htaken⟩
  | moves hrest _ hy => exact ⟨hnext hrest (hrestores hrest _ hy), hkept⟩
  | locks hrest hx hm =>
    exact ⟨hnext hrest (hrestores hrest _ hx g.data hrefl (hfree _ hm)), htaken⟩
  | unlocks hrest hx =>
    obtain ⟨hinv, hrest'⟩ := hrestores hrest _ hx
    exact ⟨hnext hrest hrest', hgiven hinv⟩
  | lockFails hrest hx hnot =>
    obtain ⟨m, hm⟩ := hchecked.lock_released hrest
    exact absurd (Option.some.inj (hx.symm.trans hm)) (hnot m)
  | unlockFails hrest hx hnot =>
    obtain ⟨m, hm⟩ := hchecked.unlock_owning hrest
    exact absurd (hx.symm.trans hm) (hnot m)
  | accesses hrest => exact ⟨hnext hrest (hrestores hrest g.data hrefl), hkept⟩
  | accessThrows hrest =>
    exact ⟨fun m x hx => hthrows _ rfl m ((hA.owned.owns_iff m).mpr ⟨x, hx⟩), hkept⟩
  | computes hrest => exact ⟨hnext hrest (hrestores hrest), hkept⟩
  | computeThrows hrest =>
    have hnone : ∀ m, g.owner m ≠ some t := fun m => hchecked.compute_owns_none hA hrest
    exact ⟨fun m x hx => absurd ((hA.owned.owns_iff m).mpr ⟨x, hx⟩) (hnone m), hkept⟩

end Invariants

section InvariantRun

variable [DecidableEq T] [DecidableEq X] [DecidableEq M] {I : M → D → Prop} {d : D} {vars : T → L}
  {s : Config T (Shared T M D) (Thread X M D L)} {Allowed : List (Stmt X M D L) → Prop}

end InvariantRun

end UniqueLocks
