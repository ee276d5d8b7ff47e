import ConcurrencyInAction.Lib.Interleaving
import ConcurrencyInAction.Lib.Mutex

/-!
# `swap(X&, X&)`: the code, step by step

An `X` is a mutex `m` and a content `some_detail`.  Both versions of `swap` compare the addresses of
their arguments, lock the two mutexes together, exchange the contents by the three assignments of
`swap(some_big_object&, some_big_object&)`, and leave the release to the destructors of guards.

* `std::lock`, alone or inside `std::scoped_lock`, locks one of the two mutexes and then tries the
  other; if that fails, possibly spuriously, it releases the first one and starts again.  It never
  waits while it holds a mutex.
* The versions differ in the mutexes their guards release, in the order of destruction (`Guards`):
  `lock_b` and then `lock_a` for `std::lock` with `std::adopt_lock` (`lockGuards`), both mutexes of
  the one guard for `std::scoped_lock` (`scopedLock`).
* The release of a mutex that the thread does not hold is undefined (`Point.undefined`).

`acquisitions`, `returned` and the list of mutexes a swap has released are history variables: no
step of the code reads them.
-/

namespace ConcurrencyInAction.Swap

open Interleaving ExclusiveLock

variable {T M D : Type*}

/-- The mutexes that the guards of a `swap` release, in the order of destruction. -/
abbrev Guards (M : Type*) := M → M → List M

/-- The version with `std::lock`: `lock_b` and `lock_a` are both constructed on `lhs.m`, and
destroyed in that order. -/
def lockGuards : Guards M := fun lhs _ => [lhs, lhs]

/-- The version with `std::scoped_lock`. -/
def scopedLock : Guards M := fun lhs rhs => [lhs, rhs]

/-- A swap that has returned, and the mutexes it has released. -/
structure Returned (T M : Type*) where
  thread : T
  lhs : M
  rhs : M
  released : List M
  deriving DecidableEq

/-- The objects, and the history variables: the swaps in the order in which they acquired their
locks, and those that have returned. -/
structure Shared (T M D : Type*) where
  m : M → Mutex T
  someDetail : M → D
  acquisitions : List (T × M × M)
  returned : List (Returned T M)

/-- Where a thread is: outside `swap`, or about to take the named step of a call.  `rhsFirst` tells
which mutex `std::lock` has locked first. -/
inductive Point (M D : Type*) where
  | idle
  | compare (lhs rhs : M)
  | lock (lhs rhs : M)
  | tryLock (lhs rhs : M) (rhsFirst : Bool)
  | backOff (lhs rhs : M) (rhsFirst : Bool)
  | assignTmp (lhs rhs : M)
  | assignRhs (lhs rhs : M) (tmp : D)
  | assignLhs (lhs rhs : M) (tmp : D)
  | destroy (lhs rhs : M) (released pending : List M)
  | undefined
  deriving DecidableEq

/-- What the code does not decide: the objects an idle thread swaps, that a thread takes its next
step, which mutex `std::lock` begins with, and that its `try_lock` fails spuriously. -/
inductive Choice (M : Type*) where
  | call (lhs rhs : M)
  | run
  | first (rhsFirst : Bool)
  | spurious
  deriving DecidableEq

/-- The mutex `std::lock` begins with. -/
def firstLock (lhs rhs : M) (rhsFirst : Bool) : M := bif rhsFirst then rhs else lhs

/-- The mutex `std::lock` tries afterwards. -/
def secondLock (lhs rhs : M) (rhsFirst : Bool) : M := bif rhsFirst then lhs else rhs

section Code

variable [DecidableEq T] [DecidableEq M]

/-- Thread `t` takes the mutex of `x`. -/
def Shared.take (g : Shared T M D) (t : T) (x : M) : Shared T M D :=
  { g with m := Function.update g.m x (some t) }

/-- The mutex of `x` is released. -/
def Shared.release (g : Shared T M D) (x : M) : Shared T M D :=
  { g with m := Function.update g.m x none }

/-- An assignment to `some_detail` of `x`. -/
def Shared.assign (g : Shared T M D) (x : M) (d : D) : Shared T M D :=
  { g with someDetail := Function.update g.someDetail x d }

omit [DecidableEq T] in
theorem Shared.take_of_ne {g : Shared T M D} {t : T} {x y : M} (h : y ≠ x) :
    (g.take t x).m y = g.m y := by
  simp [Shared.take, h]

omit [DecidableEq T] in
theorem Shared.release_of_ne {g : Shared T M D} {x y : M} (h : y ≠ x) :
    (g.release x).m y = g.m y := by
  simp [Shared.release, h]

omit [DecidableEq T] in
theorem Shared.assign_self {g : Shared T M D} {x : M} {d : D} :
    (g.assign x d).someDetail x = d := by
  simp [Shared.assign]

omit [DecidableEq T] in
theorem Shared.assign_of_ne {g : Shared T M D} {x y : M} {d : D} (h : y ≠ x) :
    (g.assign x d).someDetail y = g.someDetail y := by
  simp [Shared.assign, h]

/-- The steps of `swap`. -/
def program (guards : Guards M) : Program T (Choice M) (Shared T M D) (Point M D) :=
  fun t c g p =>
    match p, c with
    | .idle, .call lhs rhs => some (g, .compare lhs rhs)
    | .compare lhs rhs, .run =>
        if lhs = rhs then some ({ g with returned := g.returned ++ [⟨t, lhs, rhs, []⟩] }, .idle)
        else some (g, .lock lhs rhs)
    | .lock lhs rhs, .first b =>
        if g.m (firstLock lhs rhs b) = none then
          some (g.take t (firstLock lhs rhs b), .tryLock lhs rhs b)
        else none
    | .tryLock lhs rhs b, .run =>
        if g.m (secondLock lhs rhs b) = none then
          some ({ g.take t (secondLock lhs rhs b) with
            acquisitions := g.acquisitions ++ [(t, lhs, rhs)] }, .assignTmp lhs rhs)
        else some (g, .backOff lhs rhs b)
    | .tryLock lhs rhs b, .spurious => some (g, .backOff lhs rhs b)
    | .backOff lhs rhs b, .run => some (g.release (firstLock lhs rhs b), .lock lhs rhs)
    | .assignTmp lhs rhs, .run => some (g, .assignRhs lhs rhs (g.someDetail rhs))
    | .assignRhs lhs rhs tmp, .run =>
        some (g.assign rhs (g.someDetail lhs), .assignLhs lhs rhs tmp)
    | .assignLhs lhs rhs tmp, .run => some (g.assign lhs tmp, .destroy lhs rhs [] (guards lhs rhs))
    | .destroy lhs rhs released (x :: rest), .run =>
        if g.m x = some t then some (g.release x, .destroy lhs rhs (released ++ [x]) rest)
        else some (g, .undefined)
    | .destroy lhs rhs released [], .run =>
        some ({ g with returned := g.returned ++ [⟨t, lhs, rhs, released⟩] }, .idle)
    | _, _ => none

/-- The objects with their contents, all mutexes free, no thread inside `swap`. -/
def initial (contents : M → D) : Config T (Shared T M D) (Point M D) where
  shared := ⟨fun _ => none, contents, [], []⟩
  locals := fun _ => .idle

/-! ### What a step can do -/

/-- The steps of the code, one case per branch. -/
inductive Step (guards : Guards M) (t : T) (g : Shared T M D) :
    Point M D → Choice M → Shared T M D → Point M D → Prop
  | call (lhs rhs : M) : Step guards t g .idle (.call lhs rhs) g (.compare lhs rhs)
  | identical (x : M) : Step guards t g (.compare x x) .run
      { g with returned := g.returned ++ [⟨t, x, x, []⟩] } .idle
  | distinct {lhs rhs : M} : lhs ≠ rhs → Step guards t g (.compare lhs rhs) .run g (.lock lhs rhs)
  | locksFirst {lhs rhs : M} {b : Bool} : g.m (firstLock lhs rhs b) = none →
      Step guards t g (.lock lhs rhs) (.first b) (g.take t (firstLock lhs rhs b))
        (.tryLock lhs rhs b)
  | locksSecond {lhs rhs : M} {b : Bool} : g.m (secondLock lhs rhs b) = none →
      Step guards t g (.tryLock lhs rhs b) .run
        { g.take t (secondLock lhs rhs b) with acquisitions := g.acquisitions ++ [(t, lhs, rhs)] }
        (.assignTmp lhs rhs)
  | fails {lhs rhs : M} {b : Bool} {c : Choice M} :
      Step guards t g (.tryLock lhs rhs b) c g (.backOff lhs rhs b)
  | backsOff {lhs rhs : M} {b : Bool} : Step guards t g (.backOff lhs rhs b) .run
      (g.release (firstLock lhs rhs b)) (.lock lhs rhs)
  | assignsTmp {lhs rhs : M} : Step guards t g (.assignTmp lhs rhs) .run g
      (.assignRhs lhs rhs (g.someDetail rhs))
  | assignsRhs {lhs rhs : M} {tmp : D} : Step guards t g (.assignRhs lhs rhs tmp) .run
      (g.assign rhs (g.someDetail lhs)) (.assignLhs lhs rhs tmp)
  | assignsLhs {lhs rhs : M} {tmp : D} : Step guards t g (.assignLhs lhs rhs tmp) .run
      (g.assign lhs tmp) (.destroy lhs rhs [] (guards lhs rhs))
  | destroys {lhs rhs x : M} {released rest : List M} : g.m x = some t →
      Step guards t g (.destroy lhs rhs released (x :: rest)) .run (g.release x)
        (.destroy lhs rhs (released ++ [x]) rest)
  | destroysForeign {lhs rhs x : M} {released rest : List M} : g.m x ≠ some t →
      Step guards t g (.destroy lhs rhs released (x :: rest)) .run g .undefined
  | returns {lhs rhs : M} {released : List M} : Step guards t g (.destroy lhs rhs released []) .run
      { g with returned := g.returned ++ [⟨t, lhs, rhs, released⟩] } .idle

/-- **Inversion.**  Every step of the code is one of the cases of `Step`. -/
theorem step_of_program {guards : Guards M} {t : T} {c : Choice M} {g g' : Shared T M D}
    {p p' : Point M D} (h : program guards t c g p = some (g', p')) :
    Step guards t g p c g' p' := by
  cases p with
  | idle =>
    cases c <;> simp only [program, reduceCtorEq] at h
    cases h
    exact .call _ _
  | compare lhs rhs =>
    cases c <;> simp only [program, reduceCtorEq] at h
    split at h
    · rename_i he
      subst he
      cases h
      exact .identical lhs
    · cases h
      exact .distinct ‹_›
  | lock lhs rhs =>
    cases c <;> simp only [program, reduceCtorEq, Option.ite_none_right_eq_some] at h
    obtain ⟨hfree, hr⟩ := h
    cases hr
    exact .locksFirst hfree
  | tryLock lhs rhs b =>
    cases c <;> simp only [program, reduceCtorEq] at h
    · split at h
      · cases h
        exact .locksSecond ‹_›
      · cases h
        exact .fails
    · cases h
      exact .fails
  | backOff lhs rhs b =>
    cases c <;> simp only [program, reduceCtorEq] at h
    cases h
    exact .backsOff
  | assignTmp lhs rhs =>
    cases c <;> simp only [program, reduceCtorEq] at h
    cases h
    exact .assignsTmp
  | assignRhs lhs rhs tmp =>
    cases c <;> simp only [program, reduceCtorEq] at h
    cases h
    exact .assignsRhs
  | assignLhs lhs rhs tmp =>
    cases c <;> simp only [program, reduceCtorEq] at h
    cases h
    exact .assignsLhs
  | destroy lhs rhs released pending =>
    cases pending with
    | nil =>
      cases c <;> simp only [program, reduceCtorEq] at h
      cases h
      exact .returns
    | cons x rest =>
      cases c <;> simp only [program, reduceCtorEq] at h
      split at h
      · cases h
        exact .destroys ‹_›
      · cases h
        exact .destroysForeign ‹_›
  | undefined => cases c <;> simp only [program, reduceCtorEq] at h

end Code

end ConcurrencyInAction.Swap
