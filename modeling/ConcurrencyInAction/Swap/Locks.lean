import ConcurrencyInAction.Swap.Model
import Mathlib.Data.List.Perm.Subperm
import Mathlib.Data.List.Nodup

/-!
# The locks of `swap(X&, X&)`

* `Point.held`: the mutexes a thread holds at each point; the destructors of its guards give them
  back one by one;
* `LockAssertion`: a thread holds just these, and its guards have released only mutexes it held;
* `LockAssertion.step`: every step keeps the assertion, unless a guard releases a mutex that the
  thread does not hold (`Point.GuardHolds`);
* `locksReleased_iff_no_lock_a`: for the version with `std::lock`, along every run, all locks are
  released as they should exactly as long as no destructor of `lock_a` runs.
-/

namespace ConcurrencyInAction.Swap

open Interleaving ExclusiveLock

variable {T M D : Type*}

/-! ### The locks of one thread -/

section Held

variable [DecidableEq M]

/-- The mutexes a thread holds at a point. -/
def Point.held : Point M D → List M
  | .tryLock lhs rhs b | .backOff lhs rhs b => [firstLock lhs rhs b]
  | .assignTmp lhs rhs | .assignRhs lhs rhs _ | .assignLhs lhs rhs _ => [lhs, rhs]
  | .destroy lhs rhs released _ => [lhs, rhs].filter (· ∉ released)
  | _ => []

/-- The guard about to be destroyed releases a mutex that the thread holds. -/
def Point.GuardHolds : Point M D → Prop
  | .destroy lhs rhs released (x :: _) => x ∈ [lhs, rhs].filter (· ∉ released)
  | _ => True

end Held

/-- The locks are for two distinct objects; the guards are destroyed in their order, and have
released different mutexes, which are those of the two objects. -/
def WellFormed (guards : Guards M) : Point M D → Prop
  | .idle | .compare _ _ => True
  | .lock lhs rhs | .tryLock lhs rhs _ | .backOff lhs rhs _ | .assignTmp lhs rhs
  | .assignRhs lhs rhs _ | .assignLhs lhs rhs _ => lhs ≠ rhs
  | .destroy lhs rhs released pending => lhs ≠ rhs ∧ released ++ pending = guards lhs rhs ∧
      released.Nodup ∧ released ⊆ [lhs, rhs]
  | .undefined => False

/-- A swap that has returned has released each of the two mutexes exactly once; one of an object
with itself has taken none. -/
def ReleasedOnce (r : Returned T M) : Prop :=
  (r.lhs = r.rhs ∧ r.released = []) ∨ (r.lhs ≠ r.rhs ∧ r.released.Perm [r.lhs, r.rhs])

variable {guards : Guards M} {t : T} {g g' : Shared T M D} {p p' : Point M D}

theorem mem_pair_iff {lhs rhs x : M} (b : Bool) :
    x ∈ [lhs, rhs] ↔ x = secondLock lhs rhs b ∨ x = firstLock lhs rhs b := by
  cases b
  · simp [firstLock, secondLock, or_comm]
  · simp [firstLock, secondLock]

/-- Two different mutexes out of two are both of them. -/
theorem perm_pair {lhs rhs : M} {released : List M} (hnodup : released.Nodup)
    (hsub : released ⊆ [lhs, rhs]) (hlen : released.length = 2) : released.Perm [lhs, rhs] :=
  (List.subperm_of_subset hnodup hsub).perm_of_length_le (by rw [hlen]; exact le_refl 2)

section Owns

variable [DecidableEq M]

/-- The assertion of thread `t` about its locks. -/
structure LockAssertion (guards : Guards M) (t : T) (g : Shared T M D) (p : Point M D) : Prop where
  owns : ∀ x, g.m x = some t ↔ x ∈ p.held
  wellFormed : WellFormed guards p

theorem owns_take {xs : List M} (h : ∀ y, g.m y = some t ↔ y ∈ xs) (x y : M) :
    (g.take t x).m y = some t ↔ y = x ∨ y ∈ xs := by
  by_cases hy : y = x
  · subst hy
    simp [Shared.take]
  · rw [Shared.take_of_ne hy, h y]
    simp [hy]

theorem owns_release {xs : List M} (h : ∀ y, g.m y = some t ↔ y ∈ xs) (x y : M) :
    (g.release x).m y = some t ↔ y ≠ x ∧ y ∈ xs := by
  by_cases hy : y = x
  · subst hy
    simp [Shared.release]
  · rw [Shared.release_of_ne hy, h y]
    simp [hy]

theorem held_destroy_eq_nil {lhs rhs : M} {released pending : List M}
    (h : released.Perm [lhs, rhs]) :
    (Point.destroy (D := D) lhs rhs released pending).held = [] := by
  show [lhs, rhs].filter (· ∉ released) = []
  rw [List.filter_eq_nil_iff]
  intro x hx
  simpa using h.mem_iff.mpr hx

/-- **The step lemma.**  A step keeps the assertion of its thread as long as a guard that is
destroyed holds its mutex, and no other thread loses or gets a mutex by it. -/
theorem LockAssertion.step {c : Choice M} (hguards : ∀ lhs rhs, (guards lhs rhs).length = 2)
    (hS : ∀ r ∈ g.returned, ReleasedOnce r) (h : LockAssertion guards t g p) (hok : p.GuardHolds)
    (hstep : Step guards t g p c g' p') :
    (∀ r ∈ g'.returned, ReleasedOnce r) ∧ LockAssertion guards t g' p' ∧
      ∀ u, u ≠ t → SameHolder u g.m g'.m := by
  have howns := h.owns
  have hwf := h.wellFormed
  cases hstep with
  | call lhs rhs => exact ⟨hS, ⟨howns, trivial⟩, fun u _ => .refl u _⟩
  | identical x =>
    refine ⟨fun r hr => ?_, ⟨howns, trivial⟩, fun u _ => .refl u _⟩
    rcases List.mem_append.mp hr with hr | hr
    · exact hS r hr
    · rw [List.mem_singleton.mp hr]
      exact .inl ⟨rfl, rfl⟩
  | distinct hne => exact ⟨hS, ⟨howns, hne⟩, fun u _ => .refl u _⟩
  | locksFirst hfree =>
    refine ⟨hS, ⟨fun y => ?_, hwf⟩, fun u hu => .lock hfree hu⟩
    rw [owns_take howns]
    simp [Point.held]
  | @locksSecond lhs rhs b hfree =>
    refine ⟨hS, ⟨fun y => ?_, hwf⟩, fun u hu => .lock hfree hu⟩
    have hy := owns_take howns (secondLock lhs rhs b) y
    rw [Point.held, List.mem_singleton] at hy
    exact hy.trans (mem_pair_iff b).symm
  | fails => exact ⟨hS, ⟨howns, hwf⟩, fun u _ => .refl u _⟩
  | @backsOff lhs rhs b =>
    have hheld : g.m (firstLock lhs rhs b) = some t := (howns _).mpr List.mem_cons_self
    refine ⟨hS, ⟨fun y => ?_, hwf⟩, fun u hu => .unlock hheld hu⟩
    rw [owns_release howns]
    simp [Point.held]
  | assignsTmp => exact ⟨hS, ⟨howns, hwf⟩, fun u _ => .refl u _⟩
  | assignsRhs => exact ⟨hS, ⟨howns, hwf⟩, fun u _ => .refl u _⟩
  | @assignsLhs lhs rhs tmp =>
    refine ⟨hS, ⟨fun y => ?_, hwf, rfl, List.nodup_nil, List.nil_subset _⟩, fun u _ => .refl u _⟩
    refine (howns y).trans ?_
    simp [Point.held]
  | @destroys lhs rhs x released rest hheld =>
    obtain ⟨hne, hsplit, hnodup, hsub⟩ := hwf
    have hx : x ∈ [lhs, rhs].filter (· ∉ released) := (howns x).mp hheld
    rw [List.mem_filter, decide_eq_true_eq] at hx
    refine ⟨hS, ⟨fun y => ?_, hne, ?_, ?_, ?_⟩, fun u hu => .unlock hheld hu⟩
    · rw [owns_release howns]
      simp only [Point.held, List.mem_filter, List.mem_append, List.mem_singleton,
        decide_eq_true_eq, not_or]
      constructor
      · exact fun ⟨hyx, hy, hrel⟩ => ⟨hy, hrel, hyx⟩
      · exact fun ⟨hy, hrel, hyx⟩ => ⟨hyx, hy, hrel⟩
    · rw [List.append_assoc]
      exact hsplit
    · rw [← List.concat_eq_append]
      exact hnodup.concat hx.2
    · exact List.append_subset.mpr ⟨hsub, List.cons_subset.mpr ⟨hx.1, List.nil_subset _⟩⟩
  | @destroysForeign lhs rhs x released rest hforeign => exact absurd ((howns x).mpr hok) hforeign
  | @returns lhs rhs released =>
    obtain ⟨hne, hsplit, hnodup, hsub⟩ := hwf
    rw [List.append_nil] at hsplit
    have hperm := perm_pair hnodup hsub (hsplit ▸ hguards lhs rhs)
    refine ⟨fun r hr => ?_, ⟨fun y => ?_, trivial⟩, fun u _ => .refl u _⟩
    · rcases List.mem_append.mp hr with hr | hr
      · exact hS r hr
      · rw [List.mem_singleton.mp hr]
        exact .inr ⟨hne, hperm⟩
    · refine (howns y).trans ?_
      rw [held_destroy_eq_nil hperm]
      exact Iff.rfl

end Owns

/-! ### Every run -/

section Runs

variable [DecidableEq T] [DecidableEq M]

/-- Every guard that is destroyed holds its mutex. -/
def guardsHold (s : Config T (Shared T M D) (Point M D)) (t : T) (_ : Choice M) : Prop :=
  (s.locals t).GuardHolds

theorem lockRelyGuarantee (hguards : ∀ lhs rhs, (guards lhs rhs).length = 2) :
    RelyGuarantee (program guards) guardsHold
      (fun g : Shared T M D => ∀ r ∈ g.returned, ReleasedOnce r) (LockAssertion guards)
      (fun u g g' => SameHolder u g.m g'.m) where
  stable _ _ _ _ hr h := ⟨fun x => (hr x).trans (h.owns x), h.wellFormed⟩
  step _ t _ _ _ hS hP hok hp := (hP t).step hguards hS hok (step_of_program hp)

/-- The assertions of all threads about the locks. -/
def LocksHeld (guards : Guards M) (s : Config T (Shared T M D) (Point M D)) : Prop :=
  (∀ r ∈ s.shared.returned, ReleasedOnce r) ∧ ∀ t, LockAssertion guards t s.shared (s.locals t)

omit [DecidableEq T] in
theorem initial_locksHeld (contents : M → D) :
    LocksHeld (T := T) guards (initial contents) :=
  ⟨nofun, fun _ => ⟨fun _ => iff_of_false nofun List.not_mem_nil, trivial⟩⟩

/-- What the locks of `swap` promise: no mutex is released by a thread that does not hold it, every
swap that has returned has released its mutexes once, and all mutexes are free between the swaps. -/
structure LocksReleased (s : Config T (Shared T M D) (Point M D)) : Prop where
  noForeign : ∀ t, s.locals t ≠ .undefined
  once : ∀ r ∈ s.shared.returned, ReleasedOnce r
  free : (∀ t, s.locals t = .idle) → ∀ x, s.shared.m x = none

omit [DecidableEq T] in
theorem LocksHeld.locksReleased {s : Config T (Shared T M D) (Point M D)} (h : LocksHeld guards s) :
    LocksReleased s where
  noForeign t hp := by
    have hwf := (h.2 t).wellFormed
    rw [hp] at hwf
    exact hwf
  once := h.1
  free hidle x := by
    cases hm : s.shared.m x with
    | none => rfl
    | some t =>
      have hx := ((h.2 t).owns x).mp hm
      rw [hidle t] at hx
      exact absurd hx List.not_mem_nil

/-! ### `std::lock` with two adopting guards -/

/-- The thread is about to destroy `lock_a`: one guard is destroyed already, one is left. -/
def Point.atLockA : Point M D → Bool
  | .destroy _ _ [_] (_ :: _) => true
  | _ => false

/-- The step is not the destructor of `lock_a`. -/
def noLockA (s : Config T (Shared T M D) (Point M D)) (t : T) (_ : Choice M) : Prop :=
  (s.locals t).atLockA = false

instance (s : Config T (Shared T M D) (Point M D)) (t : T) (c : Choice M) :
    Decidable (noLockA s t c) :=
  inferInstanceAs (Decidable ((s.locals t).atLockA = false))

omit [DecidableEq T] in
/-- `lock_b` releases `lhs.m`, which the thread holds; then `lock_a` would release it again. -/
theorem guardHolds_iff {p : Point M D} (h : WellFormed lockGuards p) :
    p.GuardHolds ↔ p.atLockA = false := by
  cases p with
  | destroy lhs rhs released pending =>
    obtain ⟨-, hsplit, -, -⟩ := h
    cases pending with
    | nil => cases released with
      | nil => exact iff_of_true trivial rfl
      | cons a as => cases as <;> exact iff_of_true trivial rfl
    | cons x rest =>
      match released, hsplit with
      | [], hsplit =>
        obtain ⟨rfl, -⟩ := List.cons.inj hsplit
        exact iff_of_true (by simp [Point.GuardHolds]) rfl
      | [a], hsplit =>
        obtain ⟨rfl, htail⟩ := List.cons.inj hsplit
        obtain ⟨rfl, -⟩ := List.cons.inj htail
        refine iff_of_false ?_ nofun
        simp [Point.GuardHolds]
      | a :: b :: as, hsplit =>
        obtain ⟨-, htail⟩ := List.cons.inj hsplit
        obtain ⟨-, hnil⟩ := List.cons.inj htail
        exact absurd hnil (by simp)
  | _ => exact iff_of_true trivial rfl

/-- **When the locks are released as they should.**  For the version with `std::lock`, along every
run of any number of threads, exactly as long as no destructor of `lock_a` runs; that destructor
releases the mutex that `lock_b` has released, instead of `rhs.m`. -/
theorem locksReleased_iff_no_lock_a (contents : M → D) (as : List (T × Choice M))
    (hrun : ((initial contents).run (program lockGuards) as).isSome) :
    Config.AllStates (program lockGuards) LocksReleased (initial contents) as ↔
      Config.AllSteps (program lockGuards) noLockA (initial contents) as := by
  refine Config.allStates_iff_allSteps (I := LocksHeld lockGuards) (fun s h => h.locksReleased)
    ?_ ?_ as (initial contents) (initial_locksHeld contents) hrun
  · intro s t c s' hs hok hstep
    have hhold : guardsHold s t c := (guardHolds_iff (hs.2 t).wellFormed).mpr hok
    exact (lockRelyGuarantee fun _ _ => rfl).keeps hs hhold hstep
  · intro s t c s' hs hbad hstep hsound
    have hhold : ¬ (s.locals t).GuardHolds := fun hh =>
      hbad ((guardHolds_iff (hs.2 t).wellFormed).mp hh)
    obtain ⟨g, p, hp, rfl⟩ := Config.step_eq_some.mp hstep
    have howns := (hs.2 t).owns
    cases hpt : s.locals t with
    | destroy lhs rhs released pending =>
      rw [hpt] at hp hhold howns
      cases pending with
      | nil => exact hhold trivial
      | cons x rest =>
        have hforeign : s.shared.m x ≠ some t := fun hm => hhold ((howns x).mp hm)
        cases c <;> simp only [program, if_neg hforeign, reduceCtorEq] at hp
        cases hp
        apply hsound.noForeign t
        exact Function.update_self t _ _
    | _ => rw [hpt] at hhold; exact hhold trivial

/-- One thread swaps two objects: `lock_b` releases the mutex of the first, and `lock_a` is
destroyed next. -/
def swapRun : List (Unit × Choice Bool) :=
  [((), .call false true), ((), .run), ((), .first false), ((), .run), ((), .run), ((), .run),
   ((), .run), ((), .run), ((), .run)]

theorem lock_a_releases_unheld :
    ¬ ∀ s : Config Unit (Shared Unit Bool Nat) (Point Bool Nat),
      Reachable (program lockGuards) anyStep (initial fun _ => 0) s → LocksReleased s := by
  intro hall
  have hr : Reachable (program lockGuards) anyStep (initial fun _ => 0)
      (((initial fun _ => 0).run (program lockGuards) swapRun).get (by decide)) :=
    Reachable.of_run_any swapRun (Option.some_get _).symm
  exact (hall _ hr).noForeign () (by decide)

/-- An object is swapped with itself, and another swap has got as far as its guards. -/
def noLockARun : List (Bool × Choice Bool) :=
  [(true, .call true true), (true, .run), (false, .call true false), (false, .run),
   (false, .first true), (false, .run), (false, .run), (false, .run), (false, .run), (false, .run)]

theorem locksReleased_iff_no_lock_a_noLockARun :
    ((initial fun _ => 0).run (program lockGuards) noLockARun).isSome ∧
      Config.AllStates (T := Bool) (program lockGuards) LocksReleased
        (initial fun _ : Bool => 0) noLockARun :=
  ⟨by decide, (locksReleased_iff_no_lock_a (fun _ => 0) noLockARun (by decide)).mpr (by decide)⟩

end Runs

end ConcurrencyInAction.Swap
