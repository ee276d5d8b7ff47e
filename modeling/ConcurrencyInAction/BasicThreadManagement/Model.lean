import ConcurrencyInAction.Lib.Interleaving
import Mathlib.Data.Fintype.Basic
import Mathlib.Data.Nat.Notation

/-!
# `oops`, `betterOops` and `muchBetterOops`: the code, step by step

A function that starts a thread on a reference to one of its own variables, and the thread:

* `someLocalState` is a variable of the caller; it is gone once the caller has left;
* the thread (`Funct::operator()`) increments it in a loop, a read and a write each time; either is
  undefined when the variable is gone (`Point.undefined`);
* the three functions differ in what becomes of the thread: `oops` detaches it, `betterOops` joins
  it in a handler and at its end, `muchBetterOops` leaves that to a `ThreadGuard`;
* starting the thread may throw, and so may `doSomethingInthisThread` (Choice.throws); the
  destructor of a `std::thread` that is still joinable terminates the program (`Point.terminated`).

`final` is a history variable: the value of the variable at its end.
-/

namespace ConcurrencyInAction.BasicThreadManagement

open Interleaving

inductive Function where
  | oops
  | betterOops
  | muchBetterOops
  deriving DecidableEq

inductive Party where
  | caller
  | worker
  deriving DecidableEq

instance : Fintype Party := ⟨{.caller, .worker}, fun t => by cases t <;> decide⟩

inductive Outcome where
  | returned
  | threw
  deriving DecidableEq

/-- The statement that a party is at.  The caller: its declarations, `std::thread`, `detach`, the
statements in between, the test of the `ThreadGuard`, `join`, the destructor of the thread, the end
of the scope.  The thread: before its start, at the test of its loop, between the read and the write
of an increment, at its end. -/
inductive Point where
  | declare
  | start
  | detach
  | body
  | guardTest (o : Outcome)
  | join (o : Outcome)
  | destroyThread (o : Outcome)
  | leave (o : Outcome)
  | left (o : Outcome)
  | terminated
  | unstarted
  | loop (j : ℕ)
  | write (j : ℕ) (value : ℕ)
  | finished
  | undefined
  deriving DecidableEq

/-- The `std::thread` of the caller. -/
inductive Handle where
  | none
  | joinable
  | joined
  | detached
  deriving DecidableEq

structure Shared where
  someLocalState : Option ℕ
  handle : Handle
  finished : Bool
  final : Option ℕ
  deriving DecidableEq

/-- A party takes its next step, or what it has called throws. -/
inductive Choice where
  | run
  | throws
  deriving DecidableEq

/-- What comes after the thread has been started. -/
def Function.afterStart : Function → Point
  | .oops => .detach
  | .betterOops | .muchBetterOops => .body

/-- What comes after `doSomethingInthisThread`, however it ends: the handler and the last statement
of `betterOops`, or the destructor of the `ThreadGuard`. -/
def Function.afterBody (o : Outcome) : Function → Point
  | .oops => .destroyThread o
  | .betterOops => .join o
  | .muchBetterOops => .guardTest o

/-- The statements of the function `f` and of its thread, whose loop makes `n` turns. -/
def program (f : Function) (n : ℕ) : Program Party Choice Shared Point := fun t c g l =>
  match t, l, c with
  | .caller, .declare, .run => some ({ g with someLocalState := some 0 }, .start)
  | .caller, .start, .run => some ({ g with handle := .joinable }, f.afterStart)
  | .caller, .start, .throws => some (g, .leave .threw)
  | .caller, .detach, .run => some ({ g with handle := .detached }, .destroyThread .returned)
  | .caller, .body, .run => some (g, f.afterBody .returned)
  | .caller, .body, .throws => some (g, f.afterBody .threw)
  | .caller, .guardTest o, .run =>
      some (g, if g.handle = .joinable then .join o else .destroyThread o)
  | .caller, .join o, .run =>
      if g.finished then some ({ g with handle := .joined }, .destroyThread o) else none
  | .caller, .destroyThread o, .run =>
      some (g, if g.handle = .joinable then .terminated else .leave o)
  | .caller, .leave o, .run =>
      some ({ g with someLocalState := none, final := g.someLocalState }, .left o)
  | .worker, .unstarted, .run => if g.handle = .none then none else some (g, .loop 0)
  | .worker, .loop j, .run =>
      if j < n then
        match g.someLocalState with
        | some value => some (g, .write j value)
        | none => some (g, .undefined)
      else some ({ g with finished := true }, .finished)
  | .worker, .write j value, .run =>
      match g.someLocalState with
      | some _ => some ({ g with someLocalState := some (value + 1) }, .loop (j + 1))
      | none => some (g, .undefined)
  | _, _, _ => none

/-- The number of turns in `Funct::operator()`. -/
def turns : ℕ := 1000000

/-- The function is about to be called. -/
def initial : Config Party Shared Point where
  shared := ⟨none, .none, false, none⟩
  locals
    | .caller => .declare
    | .worker => .unstarted

/-! ### What a step can do -/

/-- The steps of the code. -/
inductive Step (f : Function) (n : ℕ) (g : Shared) :
    Party → Choice → Point → Shared → Point → Prop
  | declares : Step f n g .caller .run .declare { g with someLocalState := some 0 } .start
  | starts : Step f n g .caller .run .start { g with handle := .joinable } f.afterStart
  | startFails : Step f n g .caller .throws .start g (.leave .threw)
  | detaches : Step f n g .caller .run .detach { g with handle := .detached }
      (.destroyThread .returned)
  | bodyReturns : Step f n g .caller .run .body g (f.afterBody .returned)
  | bodyThrows : Step f n g .caller .throws .body g (f.afterBody .threw)
  | guardJoins {o : Outcome} : g.handle = .joinable →
      Step f n g .caller .run (.guardTest o) g (.join o)
  | guardSkips {o : Outcome} : g.handle ≠ .joinable →
      Step f n g .caller .run (.guardTest o) g (.destroyThread o)
  | joins {o : Outcome} : g.finished = true →
      Step f n g .caller .run (.join o) { g with handle := .joined } (.destroyThread o)
  | terminates {o : Outcome} : g.handle = .joinable →
      Step f n g .caller .run (.destroyThread o) g .terminated
  | destroys {o : Outcome} : g.handle ≠ .joinable →
      Step f n g .caller .run (.destroyThread o) g (.leave o)
  | leaves {o : Outcome} : Step f n g .caller .run (.leave o)
      { g with someLocalState := none, final := g.someLocalState } (.left o)
  | begins : g.handle ≠ .none → Step f n g .worker .run .unstarted g (.loop 0)
  | reads {j value : ℕ} : j < n → g.someLocalState = some value →
      Step f n g .worker .run (.loop j) g (.write j value)
  | readsNothing {j : ℕ} : j < n → g.someLocalState = none →
      Step f n g .worker .run (.loop j) g .undefined
  | finishes {j : ℕ} : n ≤ j →
      Step f n g .worker .run (.loop j) { g with finished := true } .finished
  | writes {j value old : ℕ} : g.someLocalState = some old →
      Step f n g .worker .run (.write j value) { g with someLocalState := some (value + 1) }
        (.loop (j + 1))
  | writesNothing {j value : ℕ} : g.someLocalState = none →
      Step f n g .worker .run (.write j value) g .undefined

variable {f : Function} {n : ℕ} {t : Party} {c : Choice} {g g' : Shared} {l l' : Point}

/-- **Inversion.** -/
theorem step_of_program (h : program f n t c g l = some (g', l')) : Step f n g t c l g' l' := by
  unfold program at h
  split at h
  · cases h
    exact .declares
  · cases h
    exact .starts
  · cases h
    exact .startFails
  · cases h
    exact .detaches
  · cases h
    exact .bodyReturns
  · cases h
    exact .bodyThrows
  · cases h
    by_cases hj : g.handle = .joinable
    · rw [if_pos hj]
      exact .guardJoins hj
    · rw [if_neg hj]
      exact .guardSkips hj
  · obtain ⟨hfinished, hpair⟩ := Option.ite_none_right_eq_some.mp h
    cases hpair
    exact .joins hfinished
  · cases h
    by_cases hj : g.handle = .joinable
    · rw [if_pos hj]
      exact .terminates hj
    · rw [if_neg hj]
      exact .destroys hj
  · cases h
    exact .leaves
  · obtain ⟨hstarted, hpair⟩ := Option.ite_none_left_eq_some.mp h
    cases hpair
    exact .begins hstarted
  · rename_i j
    by_cases hj : j < n
    · rw [if_pos hj] at h
      split at h
      · rename_i value hvalue
        cases h
        exact .reads hj hvalue
      · rename_i hnone
        cases h
        exact .readsNothing hj hnone
    · rw [if_neg hj] at h
      cases h
      exact .finishes (Nat.le_of_not_lt hj)
  · split at h
    · rename_i old hold
      cases h
      exact .writes hold
    · rename_i hnone
      cases h
      exact .writesNothing hnone
  · cases h

/-- Every step of the list of steps is one of the code. -/
theorem program_of_step (h : Step f n g t c l g' l') : program f n t c g l = some (g', l') := by
  cases h with
  | declares | starts | startFails | detaches | bodyReturns | bodyThrows | leaves => rfl
  | guardJoins hj => simp [program, hj]
  | guardSkips hj => simp [program, hj]
  | joins hfinished => simp [program, hfinished]
  | terminates hj => simp [program, hj]
  | destroys hj => simp [program, hj]
  | begins hstarted => simp [program, hstarted]
  | reads hj hvalue => simp [program, hj, hvalue]
  | readsNothing hj hnone => simp [program, hj, hnone]
  | finishes hj => simp [program, Nat.not_lt.mpr hj]
  | writes hold => simp [program, hold]
  | writesNothing hnone => simp [program, hnone]

end ConcurrencyInAction.BasicThreadManagement
