import ConcurrencyInAction.Lib.Interleaving
import ConcurrencyInAction.Lib.Mutex
import Mathlib.Data.Fintype.Basic

/-!
# `threadsafe_stack`: the code, step by step

`push`, `pop(T&)`, `pop()` and `empty()`, with each acquisition of `m`, each access to the container
and each release as separate steps.

* `empty()` is a public operation that locks `m`; both overloads of `pop` call it with `m` already
  locked by their own guard.  Its points carry the overload of the calling `pop`, if any.
* `m` is exclusive and not recursive: a lock waits while anyone holds it, the same thread included.
* The container's `push`, the copy of the top element and `make_shared` may throw; the guard then
  releases `m`, and the container is unchanged.
* `top()` and `pop()` on an empty container, and the release of `m` by a thread that does not hold
  it, are undefined (`Point.undefined`).

`history` is a history variable that no step of the code reads: how the operations ended, in the
order of their critical sections.
-/

namespace ConcurrencyInAction.ThreadsafeStack

open Interleaving ExclusiveLock

variable {T V : Type*}

/-- `pop(T&)` or `pop()`. -/
inductive Overload where
  | byReference
  | byPointer
  deriving DecidableEq

instance : Fintype Overload where
  elems := {.byReference, .byPointer}
  complete o := by cases o <;> decide

/-- The operations. -/
inductive Call (V : Type*) where
  | push (newValue : V)
  | pop (o : Overload)
  | empty
  deriving DecidableEq

/-- How an operation ends: `emptyStack` is the exception of `pop`, `threw` any other one. -/
inductive Result (V : Type*) where
  | pushed (v : V)
  | popped (o : Overload) (v : V)
  | emptyStack (o : Overload)
  | isEmpty (b : Bool)
  | threw
  deriving DecidableEq

/-- Where a thread is: outside every operation, or about to take the named step of one.  The steps
of `empty()` carry the overload of the `pop` that called it, or `none` for a call of its own. -/
inductive Point (V : Type*) where
  | idle
  | pushLock (newValue : V)
  | pushContainer (newValue : V)
  | popLock (o : Overload)
  | emptyLock (caller : Option Overload)
  | emptyTest (caller : Option Overload)
  | emptyUnlock (caller : Option Overload) (b : Bool)
  | popTest (o : Overload) (b : Bool)
  | popTop (o : Overload)
  | popContainer (o : Overload) (v : V)
  | unlock (r : Result V)
  | undefined
  deriving DecidableEq

/-- The members of the stack, the top of the container first, and the history variable. -/
structure Shared (T V : Type*) where
  m : Mutex T
  data : List V
  history : List (Result V)

/-- A thread: its program point and how its last operation ended. -/
structure Thread (V : Type*) where
  point : Point V
  result : Option (Result V)

/-- What the code does not decide: the operation an idle thread starts, that a thread takes its
next step, and that the step throws. -/
inductive Choice (V : Type*) where
  | call (f : Call V)
  | run
  | throws
  deriving DecidableEq

/-- The thread goes on at another point. -/
def Thread.goto (l : Thread V) (p : Point V) : Thread V := { l with point := p }

/-- The operation ends. -/
def Thread.finish (_ : Thread V) (r : Result V) : Thread V := ⟨.idle, some r⟩

/-- The first step of an operation. -/
def Call.entry : Call V → Point V
  | .push v => .pushLock v
  | .pop o => .popLock o
  | .empty => .emptyLock none

section Code

variable [DecidableEq T]

/-- The constructor of a guard: it waits until `m` is free. -/
def lockM (t : T) (g : Shared T V) (l : Thread V) (next : Point V) :
    Option (Shared T V × Thread V) :=
  if g.m = none then some ({ g with m := some t }, l.goto next) else none

/-- The destructor of a guard. -/
def unlockM (t : T) (g : Shared T V) (l : Thread V) (history : List (Result V)) (l' : Thread V) :
    Shared T V × Thread V :=
  if g.m = some t then ({ g with m := none, history := history }, l') else (g, l.goto .undefined)

/-- The steps of the four operations. -/
def program : Program T (Choice V) (Shared T V) (Thread V) :=
  fun t c g l =>
    match l.point, c with
    | .idle, .call f => some (g, { l with point := f.entry, result := none })
    | .pushLock v, .run => lockM t g l (.pushContainer v)
    | .pushContainer v, .run => some ({ g with data := v :: g.data }, l.goto (.unlock (.pushed v)))
    | .pushContainer _, .throws => some (g, l.goto (.unlock .threw))
    | .popLock o, .run => lockM t g l (.emptyLock (some o))
    | .emptyLock caller, .run => lockM t g l (.emptyTest caller)
    | .emptyTest caller, .run => some (g, l.goto (.emptyUnlock caller g.data.isEmpty))
    | .emptyUnlock none b, .run =>
        some (unlockM t g l (g.history ++ [.isEmpty b]) (l.finish (.isEmpty b)))
    | .emptyUnlock (some o) b, .run => some (unlockM t g l g.history (l.goto (.popTest o b)))
    | .popTest o b, .run => some (g, l.goto (if b then .unlock (.emptyStack o) else .popTop o))
    | .popTop o, .run =>
        match g.data with
        | [] => some (g, l.goto .undefined)
        | v :: _ => some (g, l.goto (.popContainer o v))
    | .popTop _, .throws => some (g, l.goto (.unlock .threw))
    | .popContainer o v, .run =>
        match g.data with
        | [] => some (g, l.goto .undefined)
        | _ :: rest => some ({ g with data := rest }, l.goto (.unlock (.popped o v)))
    | .unlock r, .run => some (unlockM t g l (g.history ++ [r]) (l.finish r))
    | _, _ => none

/-- A stack just constructed, and threads that have not called it yet. -/
def initial : Config T (Shared T V) (Thread V) where
  shared := ⟨none, [], []⟩
  locals := fun _ => ⟨.idle, none⟩

/-! ### What a step can do -/

/-- The point after the acquisition of `m`, for the points that wait for it. -/
def Point.afterLock : Point V → Option (Point V)
  | .pushLock v => some (.pushContainer v)
  | .popLock o => some (.emptyLock (some o))
  | .emptyLock caller => some (.emptyTest caller)
  | _ => none

/-- The thread is about to lock `m`. -/
def Point.WaitsForM (p : Point V) : Prop := p.afterLock.isSome

instance (p : Point V) : Decidable p.WaitsForM :=
  inferInstanceAs (Decidable (p.afterLock.isSome = true))

/-- The steps of the code, one case per branch. -/
inductive Step (t : T) (g : Shared T V) (l : Thread V) : Choice V → Shared T V → Thread V → Prop
  | call {f : Call V} : l.point = .idle →
      Step t g l (.call f) g { l with point := f.entry, result := none }
  | locks {p : Point V} : l.point.afterLock = some p → g.m = none →
      Step t g l .run { g with m := some t } (l.goto p)
  | pushes {v : V} : l.point = .pushContainer v →
      Step t g l .run { g with data := v :: g.data } (l.goto (.unlock (.pushed v)))
  | pushThrows {v : V} : l.point = .pushContainer v →
      Step t g l .throws g (l.goto (.unlock .threw))
  | tests {caller : Option Overload} : l.point = .emptyTest caller →
      Step t g l .run g (l.goto (.emptyUnlock caller g.data.isEmpty))
  | returnsEmpty {b : Bool} : l.point = .emptyUnlock none b → g.m = some t →
      Step t g l .run { g with m := none, history := g.history ++ [.isEmpty b] }
        (l.finish (.isEmpty b))
  | returnsEmptyToPop {o : Overload} {b : Bool} : l.point = .emptyUnlock (some o) b → g.m = some t →
      Step t g l .run { g with m := none } (l.goto (.popTest o b))
  | popTests {o : Overload} {b : Bool} : l.point = .popTest o b →
      Step t g l .run g (l.goto (if b then .unlock (.emptyStack o) else .popTop o))
  | copies {o : Overload} {v : V} {rest : List V} : l.point = .popTop o → g.data = v :: rest →
      Step t g l .run g (l.goto (.popContainer o v))
  | copyThrows {o : Overload} : l.point = .popTop o → Step t g l .throws g (l.goto (.unlock .threw))
  | pops {o : Overload} {v w : V} {rest : List V} : l.point = .popContainer o v →
      g.data = w :: rest → Step t g l .run { g with data := rest } (l.goto (.unlock (.popped o v)))
  | unlocks {r : Result V} : l.point = .unlock r → g.m = some t →
      Step t g l .run { g with m := none, history := g.history ++ [r] } (l.finish r)
  | undefinedAccess : (∃ o, l.point = .popTop o ∨ ∃ v, l.point = .popContainer o v) →
      g.data = [] → Step t g l .run g (l.goto .undefined)
  | undefinedRelease : ((∃ caller b, l.point = .emptyUnlock caller b) ∨ ∃ r, l.point = .unlock r) →
      g.m ≠ some t → Step t g l .run g (l.goto .undefined)

omit [DecidableEq T] in
theorem lockM_eq_some {t : T} {g : Shared T V} {l : Thread V} {p : Point V}
    {r : Shared T V × Thread V} :
    lockM t g l p = some r ↔ g.m = none ∧ r = ({ g with m := some t }, l.goto p) := by
  unfold lockM
  split
  · rename_i h
    simp [h, eq_comm]
  · rename_i h
    simp [h]

omit [DecidableEq T] in
/-- A guard's constructor is the `locks` case. -/
theorem Step.of_lockM {t : T} {g g' : Shared T V} {l l' : Thread V} {p : Point V}
    (hp : l.point.afterLock = some p) (h : lockM t g l p = some (g', l')) :
    Step t g l .run g' l' := by
  obtain ⟨hfree, hr⟩ := lockM_eq_some.mp h
  cases hr
  exact .locks hp hfree

/-- **Inversion.**  Every step of the code is one of the cases of `Step`. -/
theorem step_of_program {t : T} {c : Choice V} {g g' : Shared T V} {l l' : Thread V}
    (h : program t c g l = some (g', l')) : Step t g l c g' l' := by
  cases hp : l.point with
  | idle =>
    cases c <;> simp only [program, hp, reduceCtorEq] at h
    cases h
    exact .call hp
  | pushLock v =>
    cases c <;> simp only [program, hp, reduceCtorEq] at h
    exact .of_lockM (by rw [hp]; rfl) h
  | pushContainer v =>
    cases c <;> simp only [program, hp, reduceCtorEq] at h
    · cases h
      exact .pushes hp
    · cases h
      exact .pushThrows hp
  | popLock o =>
    cases c <;> simp only [program, hp, reduceCtorEq] at h
    exact .of_lockM (by rw [hp]; rfl) h
  | emptyLock caller =>
    cases c <;> simp only [program, hp, reduceCtorEq] at h
    exact .of_lockM (by rw [hp]; rfl) h
  | emptyTest caller =>
    cases c <;> simp only [program, hp, reduceCtorEq] at h
    cases h
    exact .tests hp
  | emptyUnlock caller b =>
    cases c with
    | run =>
      by_cases hm : g.m = some t
      · cases caller with
        | none =>
          simp only [program, hp, unlockM, if_pos hm] at h
          cases h
          exact .returnsEmpty hp hm
        | some o =>
          simp only [program, hp, unlockM, if_pos hm] at h
          cases h
          exact .returnsEmptyToPop hp hm
      · cases caller <;> simp only [program, hp, unlockM, if_neg hm] at h <;> cases h <;>
          exact .undefinedRelease (.inl ⟨_, _, hp⟩) hm
    | _ => cases caller <;> simp only [program, hp, reduceCtorEq] at h
  | popTest o b =>
    cases c <;> simp only [program, hp, reduceCtorEq] at h
    cases h
    exact .popTests hp
  | popTop o =>
    cases c <;> simp only [program, hp, reduceCtorEq] at h
    · split at h
      · cases h
        exact .undefinedAccess ⟨o, .inl hp⟩ ‹_›
      · cases h
        exact .copies hp ‹_›
    · cases h
      exact .copyThrows hp
  | popContainer o v =>
    cases c <;> simp only [program, hp, reduceCtorEq] at h
    split at h
    · cases h
      exact .undefinedAccess ⟨o, .inr ⟨v, hp⟩⟩ ‹_›
    · cases h
      exact .pops hp ‹_›
  | unlock r =>
    cases c <;> simp only [program, hp, reduceCtorEq] at h
    by_cases hm : g.m = some t
    · simp only [unlockM, if_pos hm] at h
      cases h
      exact .unlocks hp hm
    · simp only [unlockM, if_neg hm] at h
      cases h
      exact .undefinedRelease (.inr ⟨r, hp⟩) hm
  | undefined => cases c <;> simp only [program, hp, reduceCtorEq] at h

end Code

end ConcurrencyInAction.ThreadsafeStack
