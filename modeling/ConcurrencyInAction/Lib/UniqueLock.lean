import ConcurrencyInAction.Lib.Completion
import ConcurrencyInAction.Lib.Interleaving
import ConcurrencyInAction.Lib.Mutex

/-!
# Locks that can be given up and moved

Straight-line functions of any number of threads, in which mutexes are held through lock objects
that may own their mutex or not.

* `UniqueLock`, `Stmt`: the lock objects, and the statements; a statement that accesses shared data
  says which mutexes guard what it accesses;
* `program`: the statements, one step each.  What is thrown destroys the lock objects in the reverse
  order of their construction, and so does the end of the function;
* `Owned`: **a thread owns a mutex exactly through one lock object**; `Owned.acquire`,
  `Owned.release`, `Owned.put`, `Owned.move`: how the statements keep this;
* `Checked`: a function that can be read off to own what it needs, to wait and to compute only while
  it owns nothing, and to throw no error of its own; `InChecked.step`, `InChecked.owner_eq`,
  `InChecked.compute_owns_none`;
* `Checked.owns_before`: what an access needs is owned since the last statement that takes a mutex;
* `exists_enabled`, `completes`: checked functions end.
-/

open Interleaving ExclusiveLock

namespace UniqueLocks

variable {T X M D L : Type*}

/-- A lock object: without a mutex (its own has been moved away), not owning its mutex, or owning
it. -/
inductive UniqueLock (M : Type*) where
  | empty
  | released (m : M)
  | owning (m : M)
  deriving DecidableEq

inductive Stmt (X M D L : Type*) where
  | construct (x : X) (m : M)
  | moveFrom (x y : X)
  | lock (x : X)
  | unlock (x : X)
  | destroy (x : X)
  | access (guards : List M) (f : D → L → D × L)
  | compute (f : L → L)

/-- What has left a function: an exception of a statement, or the error of a lock object that cannot
do what it is asked to do. -/
inductive Exception where
  | thrown
  | systemError
  deriving DecidableEq

structure Shared (T M D : Type*) where
  owner : M → Mutex T
  data : D

/-- A thread: the rest of its function, its lock objects, the latest first, its variables, and what
has left the function, if anything has. -/
structure Thread (X M D L : Type*) where
  rest : List (Stmt X M D L)
  locks : X → Option (UniqueLock M)
  scope : List X
  vars : L
  exception : Option Exception

/-- The function that a thread outside any calls, that a thread takes its next step, or that its
statement throws, having left the data so. -/
inductive Choice (X M D L : Type*) where
  | call (body : List (Stmt X M D L)) (vars : L)
  | run
  | throws (d : D)

/-- The thread goes on after its statement. -/
def Thread.next (l : Thread X M D L) : Thread X M D L := { l with rest := l.rest.tail }

/-- An exception leaves the statement. -/
def Thread.unwind (l : Thread X M D L) (e : Exception) : Thread X M D L :=
  { l with rest := [], exception := some e }

/-- No function is in progress. -/
def Thread.Idle (l : Thread X M D L) : Prop := l.rest = [] ∧ l.scope = []

section Code

variable [DecidableEq X] [DecidableEq M]

/-- The lock object becomes `v`. -/
def Thread.put (l : Thread X M D L) (x : X) (v : Option (UniqueLock M)) : Thread X M D L :=
  { l with locks := Function.update l.locks x v }

def Shared.setOwner (g : Shared T M D) (m : M) (o : Mutex T) : Shared T M D :=
  { g with owner := Function.update g.owner m o }

/-- The destructor of a lock object. -/
def destroyLock (g : Shared T M D) (l : Thread X M D L) (x : X) :
    Option (Shared T M D × Thread X M D L) :=
  match l.locks x with
  | none => none
  | some (.owning m) =>
      some (g.setOwner m none, { l.put x none with scope := l.scope.erase x })
  | some _ => some (g, { l.put x none with scope := l.scope.erase x })

/-- The steps of the functions. -/
def program : Program T (Choice X M D L) (Shared T M D) (Thread X M D L) := fun t c g l =>
  match l.rest, c with
  | [], .call body vars =>
      match l.scope with
      | [] => some (g, { l with rest := body, vars := vars, exception := none })
      | _ :: _ => none
  | [], .run =>
      match l.scope with
      | [] => none
      | x :: _ => destroyLock g l x
  | .construct x m :: _, .run =>
      if (l.locks x).isNone && (g.owner m).isNone then
        some (g.setOwner m (some t),
          { l.next.put x (some (.owning m)) with scope := x :: l.scope })
      else none
  | .moveFrom x y :: _, .run =>
      match l.locks x, l.locks y with
      | none, some v =>
          some (g, { (l.next.put x (some v)).put y (some .empty) with scope := x :: l.scope })
      | _, _ => none
  | .lock x :: _, .run =>
      match l.locks x with
      | some (.released m) =>
          if (g.owner m).isNone then
            some (g.setOwner m (some t), l.next.put x (some (.owning m)))
          else none
      | some _ => some (g, l.unwind .systemError)
      | none => none
  | .unlock x :: _, .run =>
      match l.locks x with
      | some (.owning m) => some (g.setOwner m none, l.next.put x (some (.released m)))
      | some _ => some (g, l.unwind .systemError)
      | none => none
  | .destroy x :: _, .run => destroyLock g l.next x
  | .access _ f :: _, .run =>
      some ({ g with data := (f g.data l.vars).1 }, { l.next with vars := (f g.data l.vars).2 })
  | .access _ _ :: _, .throws d => some ({ g with data := d }, l.unwind .thrown)
  | .compute f :: _, .run => some (g, { l.next with vars := f l.vars })
  | .compute _ :: _, .throws _ => some (g, l.unwind .thrown)
  | _, _ => none

/-- All mutexes are free, and no function has been called. -/
def initial (d : D) (vars : T → L) : Config T (Shared T M D) (Thread X M D L) where
  shared := ⟨fun _ => none, d⟩
  locals t := ⟨[], fun _ => none, [], vars t, none⟩

/-! ### What a step can do -/

/-- The thread is at the destructor of `x`, at the end of its function or before, and goes on
afterwards as `l₀` does. -/
def Destroys (l : Thread X M D L) (x : X) (l₀ : Thread X M D L) : Prop :=
  (l.rest = [] ∧ x ∈ l.scope ∧ l₀ = l) ∨ ∃ rest, l.rest = .destroy x :: rest ∧ l₀ = l.next

/-- The lock object does not own a mutex. -/
def NotOwning (v : Option (UniqueLock M)) : Prop := ∀ m, v ≠ some (.owning m)

/-- The steps of the functions. -/
inductive Step (t : T) (g : Shared T M D) (l : Thread X M D L) :
    Choice X M D L → Shared T M D → Thread X M D L → Prop
  | calls (body : List (Stmt X M D L)) (vars : L) : l.rest = [] → l.scope = [] →
      Step t g l (.call body vars) g { l with rest := body, vars := vars, exception := none }
  | destroysOwning {x : X} {m : M} {l₀ : Thread X M D L} : Destroys l x l₀ →
      l.locks x = some (.owning m) → Step t g l .run (g.setOwner m none)
        { l₀.put x none with scope := l.scope.erase x }
  | destroys {x : X} {v : UniqueLock M} {l₀ : Thread X M D L} : Destroys l x l₀ →
      l.locks x = some v → NotOwning (some v) → Step t g l .run g
        { l₀.put x none with scope := l.scope.erase x }
  | constructs {x : X} {m : M} {rest : List (Stmt X M D L)} : l.rest = .construct x m :: rest →
      l.locks x = none → g.owner m = none → Step t g l .run (g.setOwner m (some t))
        { l.next.put x (some (.owning m)) with scope := x :: l.scope }
  | moves {x y : X} {v : UniqueLock M} {rest : List (Stmt X M D L)} :
      l.rest = .moveFrom x y :: rest → l.locks x = none → l.locks y = some v →
      Step t g l .run g { (l.next.put x (some v)).put y (some .empty) with scope := x :: l.scope }
  | locks {x : X} {m : M} {rest : List (Stmt X M D L)} : l.rest = .lock x :: rest →
      l.locks x = some (.released m) → g.owner m = none →
      Step t g l .run (g.setOwner m (some t)) (l.next.put x (some (.owning m)))
  | lockFails {x : X} {v : UniqueLock M} {rest : List (Stmt X M D L)} : l.rest = .lock x :: rest →
      l.locks x = some v → (∀ m, v ≠ .released m) → Step t g l .run g (l.unwind .systemError)
  | unlocks {x : X} {m : M} {rest : List (Stmt X M D L)} : l.rest = .unlock x :: rest →
      l.locks x = some (.owning m) →
      Step t g l .run (g.setOwner m none) (l.next.put x (some (.released m)))
  | unlockFails {x : X} {v : UniqueLock M} {rest : List (Stmt X M D L)} :
      l.rest = .unlock x :: rest → l.locks x = some v → NotOwning (some v) →
      Step t g l .run g (l.unwind .systemError)
  | accesses {guards : List M} {f : D → L → D × L} {rest : List (Stmt X M D L)} :
      l.rest = .access guards f :: rest → Step t g l .run { g with data := (f g.data l.vars).1 }
        { l.next with vars := (f g.data l.vars).2 }
  | accessThrows {guards : List M} {f : D → L → D × L} {rest : List (Stmt X M D L)} {d : D} :
      l.rest = .access guards f :: rest →
      Step t g l (.throws d) { g with data := d } (l.unwind .thrown)
  | computes {f : L → L} {rest : List (Stmt X M D L)} : l.rest = .compute f :: rest →
      Step t g l .run g { l.next with vars := f l.vars }
  | computeThrows {f : L → L} {rest : List (Stmt X M D L)} {d : D} : l.rest = .compute f :: rest →
      Step t g l (.throws d) g (l.unwind .thrown)

variable {t u : T} {c : Choice X M D L} {g g' : Shared T M D} {l l' l₀ : Thread X M D L} {x y : X}
  {m : M}

theorem step_of_destroyLock (hd : Destroys l x l₀) (hlocks : l₀.locks = l.locks)
    (hscope : l₀.scope = l.scope) (h : destroyLock g l₀ x = some (g', l')) :
    Step t g l .run g' l' := by
  unfold destroyLock at h
  rw [hlocks, hscope] at h
  split at h
  · cases h
  · rename_i hx
    cases h
    exact .destroysOwning hd hx
  · rename_i v hnot hx
    cases h
    refine .destroys hd hx fun m he => hnot m ?_
    exact Option.some.inj he

/-- **Inversion.** -/
theorem step_of_program (h : program t c g l = some (g', l')) : Step t g l c g' l' := by
  unfold program at h
  split at h
  all_goals rename_i hrest
  · split at h
    · rename_i hscope
      cases h
      exact .calls _ _ hrest hscope
    · cases h
  · split at h
    · cases h
    · rename_i x _ hscope
      refine step_of_destroyLock (.inl ⟨hrest, ?_, rfl⟩) rfl rfl h
      rw [hscope]
      exact List.mem_cons_self
  · obtain ⟨hfree, hr⟩ := Option.ite_none_right_eq_some.mp h
    rw [Bool.and_eq_true, Option.isNone_iff_eq_none, Option.isNone_iff_eq_none] at hfree
    cases hr
    exact .constructs hrest hfree.1 hfree.2
  · split at h
    · rename_i hx hy
      cases h
      exact .moves hrest hx hy
    · cases h
  · split at h
    · rename_i hx
      obtain ⟨hfree, hr⟩ := Option.ite_none_right_eq_some.mp h
      cases hr
      exact .locks hrest hx (Option.isNone_iff_eq_none.mp hfree)
    · rename_i v hnot hx
      cases h
      exact .lockFails hrest hx hnot
    · cases h
  · split at h
    · rename_i hx
      cases h
      exact .unlocks hrest hx
    · rename_i v hnot hx
      cases h
      exact .unlockFails hrest hx fun m he => hnot m (Option.some.inj he)
    · cases h
  · exact step_of_destroyLock (.inr ⟨_, hrest, rfl⟩) rfl rfl h
  · cases h
    exact .accesses hrest
  · cases h
    exact .accessThrows hrest
  · cases h
    exact .computes hrest
  · cases h
    exact .computeThrows hrest
  · cases h

/-! ### Ownership -/

/-- The thread owns the mutexes that its lock objects own, and each through one of them. -/
structure Owned (t : T) (owner : M → Mutex T) (locks : X → Option (UniqueLock M)) : Prop where
  owns_iff : ∀ m, owner m = some t ↔ ∃ x, locks x = some (.owning m)
  unique : ∀ m x y, locks x = some (.owning m) → locks y = some (.owning m) → x = y

section Ownership

variable {owner : M → Mutex T} {locks : X → Option (UniqueLock M)} {v : Option (UniqueLock M)}

omit [DecidableEq M] in
/-- A lock object that owns nothing becomes another one that owns nothing. -/
theorem Owned.put (h : Owned t owner locks) (hx : NotOwning (locks x)) (hv : NotOwning v) :
    Owned t owner (Function.update locks x v) where
  owns_iff m := by
    rw [h.owns_iff]
    refine exists_congr fun y => ?_
    by_cases hy : y = x
    · subst hy
      rw [Function.update_self]
      exact iff_of_false (hx m) (hv m)
    · rw [Function.update_of_ne hy]
  unique m y z hy hz := by
    have hne : ∀ y, Function.update locks x v y = some (.owning m) →
        locks y = some (.owning m) := by
      intro y hy
      by_cases hyx : y = x
      · subst hyx
        rw [Function.update_self] at hy
        exact absurd hy (hv m)
      · rwa [Function.update_of_ne hyx] at hy
    exact h.unique m y z (hne y hy) (hne z hz)

/-- A lock object takes a free mutex. -/
theorem Owned.acquire (h : Owned t owner locks) (hfree : owner m = none)
    (hx : NotOwning (locks x)) :
    Owned t (Function.update owner m (some t)) (Function.update locks x (some (.owning m))) where
  owns_iff m' := by
    by_cases hm : m' = m
    · subst hm
      rw [Function.update_self]
      exact iff_of_true rfl ⟨x, Function.update_self _ _ _⟩
    · rw [Function.update_of_ne hm, h.owns_iff]
      refine exists_congr fun y => ?_
      by_cases hy : y = x
      · subst hy
        rw [Function.update_self]
        exact iff_of_false (hx m') fun he => hm (UniqueLock.owning.inj (Option.some.inj he)).symm
      · rw [Function.update_of_ne hy]
  unique m' y z hy hz := by
    have hnone : ∀ y, locks y ≠ some (.owning m) := by
      intro y hy
      have hown := (h.owns_iff m).mpr ⟨y, hy⟩
      rw [hfree] at hown
      exact nomatch hown
    have hnew : ∀ y, Function.update locks x (some (.owning m)) y = some (.owning m') →
        (y = x ∧ m' = m) ∨ (m' ≠ m ∧ locks y = some (.owning m')) := by
      intro y hy
      by_cases hyx : y = x
      · subst hyx
        rw [Function.update_self] at hy
        exact .inl ⟨rfl, (UniqueLock.owning.inj (Option.some.inj hy)).symm⟩
      · rw [Function.update_of_ne hyx] at hy
        exact .inr ⟨fun he => hnone y (he ▸ hy), hy⟩
    rcases hnew y hy with ⟨hy, hm⟩ | ⟨hm, hy⟩ <;> rcases hnew z hz with ⟨hz, hm'⟩ | ⟨hm', hz⟩
    · rw [hy, hz]
    · exact absurd hm hm'
    · exact absurd hm' hm
    · exact h.unique m' y z hy hz

/-- A lock object gives its mutex back. -/
theorem Owned.release (h : Owned t owner locks) (hx : locks x = some (.owning m))
    (hv : NotOwning v) :
    Owned t (Function.update owner m none) (Function.update locks x v) where
  owns_iff m' := by
    by_cases hm : m' = m
    · subst hm
      rw [Function.update_self]
      refine iff_of_false nofun fun he => ?_
      obtain ⟨y, hy⟩ := he
      by_cases hyx : y = x
      · subst hyx
        rw [Function.update_self] at hy
        exact hv m' hy
      · rw [Function.update_of_ne hyx] at hy
        exact hyx (h.unique m' y x hy hx)
    · rw [Function.update_of_ne hm, h.owns_iff]
      refine exists_congr fun y => ?_
      by_cases hy : y = x
      · subst hy
        rw [Function.update_self, hx]
        exact iff_of_false (fun he => hm (UniqueLock.owning.inj (Option.some.inj he)).symm) (hv m')
      · rw [Function.update_of_ne hy]
  unique m' y z hy hz := by
    have hold : ∀ y, Function.update locks x v y = some (.owning m') →
        locks y = some (.owning m') := by
      intro y hy
      by_cases hyx : y = x
      · subst hyx
        rw [Function.update_self] at hy
        exact absurd hy (hv m')
      · rwa [Function.update_of_ne hyx] at hy
    exact h.unique m' y z (hold y hy) (hold z hz)

omit [DecidableEq M] in
/-- A mutex is owned through another lock object from now on. -/
theorem Owned.move {w : UniqueLock M} (h : Owned t owner locks) (hx : locks x = none)
    (hy : locks y = some w) :
    Owned t owner (Function.update (Function.update locks x (some w)) y (some .empty)) := by
  have hxy : y ≠ x := by
    intro he
    rw [he, hx] at hy
    exact nomatch hy
  -- who owns through `y` before, owns through `x` after
  have hnew : ∀ z m, Function.update (Function.update locks x (some w)) y (some .empty) z =
      some (.owning m) ↔ (z = x ∧ locks y = some (.owning m)) ∨
        (z ≠ x ∧ z ≠ y ∧ locks z = some (.owning m)) := by
    intro z m
    by_cases hzy : z = y
    · subst hzy
      rw [Function.update_self]
      exact iff_of_false nofun fun he =>
        he.elim (fun he => hxy he.1) fun he => he.2.1 rfl
    · rw [Function.update_of_ne hzy]
      by_cases hzx : z = x
      · subst hzx
        rw [Function.update_self, hy]
        exact ⟨fun he => .inl ⟨rfl, he⟩, fun he => he.elim (·.2) fun he => absurd rfl he.1⟩
      · rw [Function.update_of_ne hzx]
        exact ⟨fun he => .inr ⟨hzx, hzy, he⟩, fun he => he.elim (fun he => absurd he.1 hzx) (·.2.2)⟩
  refine ⟨fun m => ?_, fun m z z' hz hz' => ?_⟩
  · rw [h.owns_iff]
    constructor
    · intro hex
      obtain ⟨z, hz⟩ := hex
      by_cases hzy : z = y
      · subst hzy
        exact ⟨x, (hnew x m).mpr (.inl ⟨rfl, hz⟩)⟩
      · have hzx : z ≠ x := by
          intro he
          rw [he, hx] at hz
          exact nomatch hz
        exact ⟨z, (hnew z m).mpr (.inr ⟨hzx, hzy, hz⟩)⟩
    · intro hex
      obtain ⟨z, hz⟩ := hex
      rcases (hnew z m).mp hz with ⟨-, hz⟩ | ⟨-, -, hz⟩
      · exact ⟨y, hz⟩
      · exact ⟨z, hz⟩
  · rcases (hnew z m).mp hz with ⟨hzx, hm⟩ | ⟨-, hzy, hm⟩ <;>
      rcases (hnew z' m).mp hz' with ⟨hzx', hm'⟩ | ⟨-, hzy', hm'⟩
    · rw [hzx, hzx']
    · exact absurd (h.unique m z' y hm' hm) hzy'
    · exact absurd (h.unique m z y hm hm') hzy
    · exact h.unique m z z' hm hm'

end Ownership

/-- The lock objects that exist are those of the scope. -/
structure Scoped (locks : X → Option (UniqueLock M)) (scope : List X) : Prop where
  mem_iff : ∀ x, locks x ≠ none ↔ x ∈ scope
  nodup : scope.Nodup

section Scope

variable {locks : X → Option (UniqueLock M)} {scope : List X}

omit [DecidableEq M] in
theorem Scoped.cons (h : Scoped locks scope) (hx : locks x = none) (v : UniqueLock M) :
    Scoped (Function.update locks x (some v)) (x :: scope) where
  mem_iff y := by
    rw [List.mem_cons]
    by_cases hy : y = x
    · subst hy
      rw [Function.update_self]
      exact iff_of_true (Option.some_ne_none v) (.inl rfl)
    · rw [Function.update_of_ne hy, h.mem_iff]
      exact (or_iff_right hy).symm
  nodup := List.nodup_cons.mpr ⟨fun hmem => (h.mem_iff x).mpr hmem hx, h.nodup⟩

omit [DecidableEq M] in
theorem Scoped.erase (h : Scoped locks scope) (x : X) :
    Scoped (Function.update locks x none) (scope.erase x) where
  mem_iff y := by
    rw [h.nodup.mem_erase_iff]
    by_cases hy : y = x
    · subst hy
      rw [Function.update_self]
      exact iff_of_false (fun hne => hne rfl) fun hmem => hmem.1 rfl
    · rw [Function.update_of_ne hy, h.mem_iff]
      exact (and_iff_right hy).symm
  nodup := h.nodup.erase x

omit [DecidableEq M] in
theorem Scoped.put {w : UniqueLock M} (h : Scoped locks scope) (hx : locks x = some w)
    (v : UniqueLock M) : Scoped (Function.update locks x (some v)) scope where
  mem_iff y := by
    by_cases hy : y = x
    · subst hy
      rw [Function.update_self, ← h.mem_iff, hx]
      exact iff_of_true (Option.some_ne_none v) (Option.some_ne_none w)
    · rw [Function.update_of_ne hy]
      exact h.mem_iff y
  nodup := h.nodup

omit [DecidableEq X] [DecidableEq M] in
theorem Scoped.eq_none (h : Scoped locks []) : locks = fun _ => none := by
  funext x
  by_contra hx
  exact List.not_mem_nil ((h.mem_iff x).mp hx)

end Scope

/-- What is true of every thread. -/
structure Assertion (t : T) (g : Shared T M D) (l : Thread X M D L) : Prop where
  owned : Owned t g.owner l.locks
  inScope : Scoped l.locks l.scope

/-- Other threads neither take nor give back the mutexes of `u`. -/
def Rely (u : T) (g g' : Shared T M D) : Prop := SameHolder u g.owner g'.owner

omit [DecidableEq X] [DecidableEq M] in
theorem Assertion.stable (hr : Rely u g g') (h : Assertion u g l) : Assertion u g' l where
  owned := ⟨fun m => (hr m).trans (h.owned.owns_iff m), h.owned.unique⟩
  inScope := h.inScope

omit [DecidableEq X] [DecidableEq M] in
theorem Destroys.locks_eq (hd : Destroys l x l₀) : l₀.locks = l.locks := by
  rcases hd with ⟨-, -, he⟩ | ⟨rest, -, he⟩
  · rw [he]
  · rw [he]
    rfl

omit [DecidableEq X] [DecidableEq M] in
theorem notOwning_none : NotOwning (none : Option (UniqueLock M)) := fun _ => nofun

omit [DecidableEq X] [DecidableEq M] in
theorem notOwning_released (m : M) : NotOwning (some (.released m)) := fun _ => nofun

omit [DecidableEq X] [DecidableEq M] in
/-- A thread without a function in progress owns no mutex. -/
theorem Assertion.idle_owns_none (h : Assertion t g l) (hidle : l.Idle) : g.owner m ≠ some t := by
  intro hown
  obtain ⟨x, hx⟩ := (h.owned.owns_iff m).mp hown
  have hmem : x ∈ l.scope := (h.inScope.mem_iff x).mp (hx ▸ Option.some_ne_none _)
  rw [hidle.2] at hmem
  exact List.not_mem_nil hmem

/-- **Every step keeps the assertion**, and the other threads rely on it. -/
theorem Assertion.step (h : Assertion t g l) (hstep : Step t g l c g' l') :
    Assertion t g' l' ∧ ∀ u, u ≠ t → Rely u g g' := by
  have hsame : ∀ u, u ≠ t → Rely u g g := fun u _ => .refl u g.owner
  cases hstep with
  | calls | lockFails | unlockFails | accesses | accessThrows | computes | computeThrows =>
    exact ⟨⟨h.owned, h.inScope⟩, hsame⟩
  | @destroysOwning x m l₀ hd hx =>
    have hown := (h.owned.owns_iff m).mpr ⟨x, hx⟩
    refine ⟨⟨?_, ?_⟩, fun u hu => .unlock hown hu⟩
    · show Owned t (Function.update g.owner m none) (Function.update l₀.locks x none)
      rw [hd.locks_eq]
      exact h.owned.release hx notOwning_none
    · show Scoped (Function.update l₀.locks x none) (l.scope.erase x)
      rw [hd.locks_eq]
      exact h.inScope.erase x
  | @destroys x v l₀ hd hx hv =>
    refine ⟨⟨?_, ?_⟩, hsame⟩
    · show Owned t g.owner (Function.update l₀.locks x none)
      rw [hd.locks_eq]
      exact h.owned.put (hx ▸ hv) notOwning_none
    · show Scoped (Function.update l₀.locks x none) (l.scope.erase x)
      rw [hd.locks_eq]
      exact h.inScope.erase x
  | constructs _ hx hfree =>
    exact ⟨⟨h.owned.acquire hfree (hx ▸ notOwning_none), h.inScope.cons hx _⟩,
      fun u hu => .lock hfree hu⟩
  | @moves x y v _ _ hx hy =>
    refine ⟨⟨h.owned.move hx hy, ?_⟩, hsame⟩
    have hxy : y ≠ x := by
      intro he
      rw [he, hx] at hy
      exact nomatch hy
    exact (h.inScope.cons hx v).put ((Function.update_of_ne hxy _ _).trans hy) _
  | locks _ hx hfree =>
    exact ⟨⟨h.owned.acquire hfree (hx ▸ notOwning_released _), h.inScope.put hx _⟩,
      fun u hu => .lock hfree hu⟩
  | unlocks _ hx =>
    have hown := (h.owned.owns_iff _).mpr ⟨_, hx⟩
    exact ⟨⟨h.owned.release hx (notOwning_released _), h.inScope.put hx _⟩,
      fun u hu => .unlock hown hu⟩

/-! ### Checked functions -/

/-- The statements, from lock objects like these: each finds its lock objects as it needs them and
owns what guards its accesses, and waits for a mutex, or computes, only while nothing is owned. -/
def Checked (locks : X → Option (UniqueLock M)) : List (Stmt X M D L) → Prop
  | [] => True
  | .construct x m :: rest => locks x = none ∧ (∀ y, NotOwning (locks y)) ∧
      Checked (Function.update locks x (some (.owning m))) rest
  | .moveFrom x y :: rest => locks x = none ∧ ∃ v, locks y = some v ∧
      Checked (Function.update (Function.update locks x (some v)) y (some .empty)) rest
  | .lock x :: rest => (∀ y, NotOwning (locks y)) ∧ ∃ m, locks x = some (.released m) ∧
      Checked (Function.update locks x (some (.owning m))) rest
  | .unlock x :: rest => ∃ m, locks x = some (.owning m) ∧
      Checked (Function.update locks x (some (.released m))) rest
  | .destroy x :: rest => locks x ≠ none ∧ Checked (Function.update locks x none) rest
  | .access guards _ :: rest => (∀ m ∈ guards, ∃ x, locks x = some (.owning m)) ∧
      Checked locks rest
  | .compute _ :: rest => (∀ y, NotOwning (locks y)) ∧ Checked locks rest

/-- A function that is checked from no lock objects at all. -/
def CheckedBody (body : List (Stmt X M D L)) : Prop :=
  Checked (fun _ => none : X → Option (UniqueLock M)) body

/-- The thread is in a checked function, and no error of a lock object has left one. -/
structure InChecked (l : Thread X M D L) : Prop where
  rest : Checked l.locks l.rest
  notError : l.exception ≠ some .systemError

omit [DecidableEq M] in
theorem InChecked.next {locks : X → Option (UniqueLock M)} {scope : List X} {vars : L}
    {s : Stmt X M D L} {rest : List (Stmt X M D L)} (h : InChecked l) (hrest : l.rest = s :: rest)
    (hchecked : Checked locks rest) :
    InChecked { l.next with locks := locks, scope := scope, vars := vars } where
  rest := by
    show Checked locks l.rest.tail
    rw [hrest]
    exact hchecked
  notError := h.notError

omit [DecidableEq M] in
theorem InChecked.lock_released {rest : List (Stmt X M D L)} (h : InChecked l)
    (hrest : l.rest = .lock x :: rest) : ∃ m, l.locks x = some (.released m) := by
  have hchecked : Checked l.locks (.lock x :: rest) := hrest ▸ h.rest
  obtain ⟨-, m, hm, -⟩ := hchecked
  exact ⟨m, hm⟩

omit [DecidableEq M] in
theorem InChecked.unlock_owning {rest : List (Stmt X M D L)} (h : InChecked l)
    (hrest : l.rest = .unlock x :: rest) : ∃ m, l.locks x = some (.owning m) := by
  have hchecked : Checked l.locks (.unlock x :: rest) := hrest ▸ h.rest
  obtain ⟨m, hm, -⟩ := hchecked
  exact ⟨m, hm⟩

/-- **A checked function stays checked**, and throws no error of its own. -/
theorem InChecked.step (hA : Assertion t g l) (h : InChecked l)
    (hcall : ∀ body vars, c = .call body vars → CheckedBody body) (hstep : Step t g l c g' l') :
    InChecked l' := by
  have hchecked : ∀ {s : Stmt X M D L} {rest : List (Stmt X M D L)}, l.rest = s :: rest →
      Checked l.locks (s :: rest) := fun hrest => hrest ▸ h.rest
  have hdestroys : ∀ {x : X} {l₀ : Thread X M D L}, Destroys l x l₀ →
      InChecked { l₀.put x none with scope := l.scope.erase x } := by
    intro x l₀ hd
    rcases hd with ⟨hrest, -, he⟩ | ⟨rest, hrest, he⟩
    · subst he
      refine ⟨?_, h.notError⟩
      show Checked _ l₀.rest
      rw [hrest]
      trivial
    · subst he
      exact h.next hrest (hchecked hrest).2
  cases hstep with
  | calls body vars hrest hscope =>
    have hinScope := hA.inScope
    rw [hscope] at hinScope
    refine ⟨?_, nofun⟩
    show Checked l.locks body
    rw [hinScope.eq_none]
    exact hcall body vars rfl
  | destroysOwning hd _ | destroys hd _ _ => exact hdestroys hd
  | constructs hrest hx hfree => exact h.next hrest (hchecked hrest).2.2
  | moves hrest hx hy =>
    obtain ⟨-, v, hv, htail⟩ := hchecked hrest
    cases hy.symm.trans hv
    exact h.next hrest htail
  | locks hrest hx hfree =>
    obtain ⟨-, m, hm, htail⟩ := hchecked hrest
    cases hx.symm.trans hm
    exact h.next hrest htail
  | lockFails hrest hx hnot =>
    obtain ⟨m, hm⟩ := h.lock_released hrest
    exact absurd (Option.some.inj (hx.symm.trans hm)) (hnot m)
  | unlocks hrest hx =>
    obtain ⟨m, hm, htail⟩ := hchecked hrest
    cases hx.symm.trans hm
    exact h.next hrest htail
  | unlockFails hrest hx hnot =>
    obtain ⟨m, hm⟩ := h.unlock_owning hrest
    exact absurd (hx.symm.trans hm) (hnot m)
  | accesses hrest => exact h.next hrest (hchecked hrest).2
  | computes hrest => exact h.next hrest (hchecked hrest).2
  | accessThrows hrest | computeThrows hrest => exact ⟨trivial, nofun⟩

omit [DecidableEq M] in
/-- A checked function computes without owning a mutex. -/
theorem InChecked.compute_owns_none {f : L → L} {rest : List (Stmt X M D L)}
    (hA : Assertion t g l) (h : InChecked l) (hrest : l.rest = .compute f :: rest) :
    g.owner m ≠ some t := by
  have hchecked : Checked l.locks (.compute f :: rest) := hrest ▸ h.rest
  intro hown
  obtain ⟨x, hx⟩ := (hA.owned.owns_iff m).mp hown
  exact hchecked.1 x m hx

/-! ### Who can go on -/

/-- The statements that are still to come, and the lock objects that are still to be destroyed. -/
def Thread.work (l : Thread X M D L) : ℕ := 2 * l.rest.length + l.scope.length

theorem Step.work_lt (hA : Assertion t g l) (hc : ∀ body vars, c ≠ .call body vars)
    (hstep : Step t g l c g' l') : l'.work < l.work := by
  have hlength : ∀ {s : Stmt X M D L} {rest : List (Stmt X M D L)}, l.rest = s :: rest →
      l.rest.length = l.next.rest.length + 1 := by
    intro s rest hrest
    rw [Thread.next, hrest]
    rfl
  have hunwind : ∀ {s : Stmt X M D L} {rest : List (Stmt X M D L)} (e : Exception),
      l.rest = s :: rest → (l.unwind e).work < l.work := by
    intro s rest e hrest
    have hpos := hlength hrest
    show 2 * 0 + l.scope.length < 2 * l.rest.length + l.scope.length
    omega
  have hdestroys : ∀ {x : X} {v : UniqueLock M} {l₀ : Thread X M D L}, Destroys l x l₀ →
      l.locks x = some v →
      Thread.work { l₀.put x none with scope := l.scope.erase x } < l.work := by
    intro x v l₀ hd hx
    have hmem : x ∈ l.scope := (hA.inScope.mem_iff x).mp (hx ▸ Option.some_ne_none v)
    have herase := List.length_erase_of_mem hmem
    have hpos := List.length_pos_of_mem hmem
    show 2 * l₀.rest.length + (l.scope.erase x).length < 2 * l.rest.length + l.scope.length
    rcases hd with ⟨-, -, he⟩ | ⟨rest, hrest, he⟩
    · rw [he]
      omega
    · have hnext := hlength hrest
      rw [he]
      omega
  cases hstep with
  | calls body vars => exact absurd rfl (hc body vars)
  | destroysOwning hd hx | destroys hd hx _ => exact hdestroys hd hx
  | constructs hrest _ _ | moves hrest _ _ =>
    have hnext := hlength hrest
    show 2 * l.next.rest.length + (l.scope.length + 1) < 2 * l.rest.length + l.scope.length
    omega
  | locks hrest _ _ | unlocks hrest _ | accesses hrest | computes hrest =>
    have hnext := hlength hrest
    show 2 * l.next.rest.length + l.scope.length < 2 * l.rest.length + l.scope.length
    omega
  | lockFails hrest _ _ | unlockFails hrest _ _ | accessThrows hrest | computeThrows hrest =>
    exact hunwind _ hrest

/-- The mutex that the thread waits for. -/
def WaitsFor (l : Thread X M D L) (m : M) : Prop :=
  (∃ x rest, l.rest = .construct x m :: rest) ∨
    ∃ x rest, l.rest = .lock x :: rest ∧ l.locks x = some (.released m)

/-- A checked function goes on unless it waits for a mutex. -/
theorem InChecked.exists_run (hA : Assertion t g l) (h : InChecked l) (hidle : ¬ l.Idle)
    (hfree : ∀ m, WaitsFor l m → g.owner m = none) : ∃ r, program t .run g l = some r := by
  have hchecked := h.rest
  have hdestroy : ∀ {l₀ : Thread X M D L} {x : X}, l₀.locks x ≠ none →
      ∃ r, destroyLock g l₀ x = some r := by
    intro l₀ x hx
    obtain ⟨v, hv⟩ := Option.ne_none_iff_exists'.mp hx
    unfold destroyLock
    rw [hv]
    cases v <;> exact ⟨_, rfl⟩
  unfold program
  cases hrest : l.rest with
  | nil =>
    cases hscope : l.scope with
    | nil => exact absurd ⟨hrest, hscope⟩ hidle
    | cons x scope =>
      have hx : l.locks x ≠ none := (hA.inScope.mem_iff x).mpr (hscope ▸ List.mem_cons_self)
      exact hdestroy hx
  | cons s rest =>
    rw [hrest] at hchecked
    cases s with
    | construct x m =>
      obtain ⟨hx, -, -⟩ := hchecked
      have hm := hfree m (.inl ⟨x, rest, hrest⟩)
      refine ⟨_, if_pos ?_⟩
      rw [hx, hm]
      rfl
    | moveFrom x y =>
      obtain ⟨hx, v, hy, -⟩ := hchecked
      simp only [hx, hy]
      exact ⟨_, rfl⟩
    | lock x =>
      obtain ⟨-, m, hx, -⟩ := hchecked
      have hm := hfree m (.inr ⟨x, rest, hrest, hx⟩)
      simp only [hx, hm]
      exact ⟨_, rfl⟩
    | unlock x =>
      obtain ⟨m, hx, -⟩ := hchecked
      simp only [hx]
      exact ⟨_, rfl⟩
    | destroy x => exact hdestroy hchecked.1
    | access guards f => exact ⟨_, rfl⟩
    | compute f => exact ⟨_, rfl⟩

omit [DecidableEq M] in
/-- Who waits for a mutex owns none. -/
theorem InChecked.not_waits {m' : M} (h : InChecked l) (hx : l.locks x = some (.owning m)) :
    ¬ WaitsFor l m' := by
  intro hwaits
  have hchecked := h.rest
  rcases hwaits with ⟨y, rest, hrest⟩ | ⟨y, rest, hrest, -⟩
  · rw [hrest] at hchecked
    exact hchecked.2.1 x m hx
  · rw [hrest] at hchecked
    exact hchecked.1 x m hx

end Code

/-! ### Whole runs -/

section Run

variable [DecidableEq T] [DecidableEq X] [DecidableEq M] {d : D} {vars : T → L}
  {s : Config T (Shared T M D) (Thread X M D L)} {t : T}
  {ok : Config T (Shared T M D) (Thread X M D L) → T → Choice X M D L → Prop}
  {Allowed : List (Stmt X M D L) → Prop}

/-- Every call is one of an allowed function. -/
def CallsAllowed (Allowed : List (Stmt X M D L) → Prop)
    (_ : Config T (Shared T M D) (Thread X M D L)) (_ : T) (c : Choice X M D L) : Prop :=
  ∀ body vars, c = .call body vars → Allowed body

/-- No new call. -/
def InProgress (_ : Config T (Shared T M D) (Thread X M D L)) (_ : T) (c : Choice X M D L) : Prop :=
  ∀ body vars, c ≠ .call body vars

theorem reachable_assertion (hs : Reachable program ok (initial d vars) s) (t : T) :
    Assertion t s.shared (s.locals t) := by
  have h : RelyGuarantee (program (T := T) (X := X) (M := M) (D := D) (L := L)) ok (fun _ => True)
      Assertion Rely :=
    { stable := fun _ _ _ _ hr h => h.stable hr
      step := fun s t c g l _ hP _ hp => ⟨trivial, (hP t).step (step_of_program hp)⟩ }
  refine (hs.rely_guarantee h ⟨trivial, fun t => ⟨⟨fun m => ?_, fun m x y hx => ?_⟩,
    ⟨fun x => ?_, List.nodup_nil⟩⟩⟩).2 t
  · refine iff_of_false nofun fun he => ?_
    obtain ⟨x, hx⟩ := he
    cases hx
  · cases hx
  · exact iff_of_false (fun hne => hne rfl) List.not_mem_nil

theorem reachable_inChecked (hallowed : ∀ body, Allowed body → CheckedBody body)
    (hs : Reachable program (CallsAllowed Allowed) (initial d vars) s) (t : T) :
    InChecked (s.locals t) := by
  refine hs.local_invariant (P := fun _ l => InChecked l) (fun t => ⟨?_, ?_⟩) ?_ t
  · exact trivial
  · exact nofun
  · intro s t c g l hr h hok hp
    exact h.step (reachable_assertion hr t) (fun body vars he => hallowed body (hok body vars he))
      (step_of_program hp)

/-- While a function is in progress, one of those in progress can take its next step. -/
theorem exists_enabled (hallowed : ∀ body, Allowed body → CheckedBody body)
    (hs : Reachable program (CallsAllowed Allowed) (initial d vars) s)
    (hbusy : ¬ (s.locals t).Idle) : ∃ u s', s.step program u .run = some s' := by
  have hstep : ∀ u, (∃ r, program u .run s.shared (s.locals u) = some r) →
      ∃ u s', s.step program u .run = some s' := by
    intro u hu
    obtain ⟨r, hr⟩ := hu
    exact ⟨u, _, Config.step_eq_some.mpr ⟨r.1, r.2, hr, rfl⟩⟩
  have hchecked := reachable_inChecked hallowed hs
  have hA := fun u => reachable_assertion hs u
  by_cases hwait : ∃ m u, WaitsFor (s.locals t) m ∧ s.shared.owner m = some u
  · obtain ⟨m, u, -, hown⟩ := hwait
    obtain ⟨x, hx⟩ := ((hA u).owned.owns_iff m).mp hown
    refine hstep u ((hchecked u).exists_run (hA u) (fun hidle => ?_) fun m' hm' => ?_)
    · exact (hA u).idle_owns_none hidle hown
    · exact absurd hm' ((hchecked u).not_waits hx)
  · refine hstep t ((hchecked t).exists_run (hA t) hbusy fun m hm => ?_)
    by_contra hheld
    obtain ⟨u, hu⟩ := Option.ne_none_iff_exists'.mp hheld
    exact hwait ⟨m, u, hm, hu⟩

/-- No function is in progress, and all mutexes are free. -/
def Settled (s : Config T (Shared T M D) (Thread X M D L)) : Prop :=
  (∀ t, (s.locals t).Idle) ∧ ∀ m, s.shared.owner m = none

/-- **Checked functions end**, and have then given back what they took. -/
theorem completes (hallowed : ∀ body, Allowed body → CheckedBody body)
    (hs : Reachable program (CallsAllowed Allowed) (initial d vars) s) :
    Config.Completes program InProgress Settled s := by
  refine hs.completes Thread.work (fun _ => rfl) (fun s t c hc body vars he => ?_) ?_ ?_
  · exact absurd he (hc body vars)
  · intro s t c g l hr hc hp
    exact (step_of_program hp).work_lt (reachable_assertion hr t) hc
  · intro s hr hnot
    have hbusy : ¬ ∀ t, (s.locals t).Idle := by
      intro hidle
      refine hnot ⟨hidle, fun m => ?_⟩
      by_contra hheld
      obtain ⟨u, hu⟩ := Option.ne_none_iff_exists'.mp hheld
      exact (reachable_assertion hr u).idle_owns_none (hidle u) hu
    obtain ⟨t, ht⟩ := not_forall.mp hbusy
    obtain ⟨u, s', hstep⟩ := exists_enabled hallowed hr ht
    exact ⟨u, .run, s', nofun, hstep⟩

end Run

end UniqueLocks
