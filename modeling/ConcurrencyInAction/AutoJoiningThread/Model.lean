import ConcurrencyInAction.Lib.Exceptions
import Mathlib.Data.Nat.Notation
import Mathlib.Logic.Function.Basic

/-!
# `AutoJoiningThread`: the code

The handles of a program, the `std::thread` objects in them, and the threads that have been started.

* `StdThread`: what the member functions of `std::thread` do.  `join` and `detach` throw on a thread
  that is not joinable, the assignment and the destructor terminate on one that is joinable, and
  nothing may be done to an object that does not exist;
* the member functions of `AutoJoiningThread`, in the order of the class;
* `Op`, `Op.exec`: what a client does with the handles, one operation at a time.

The thread of an object is its number, in the order in which the threads were started, or `none` for
an object that is not joinable.  The client does not use `as_thread()`.
-/

namespace ConcurrencyInAction.AutoJoiningThread

open Exceptions

variable {H : Type}

/-- The `std::thread` objects: the member `t` of a handle, and the parameter of a function that
takes its argument by value. -/
inductive Object (H : Type) where
  | member (this : H)
  | parameter
  deriving DecidableEq

/-- What an object stands for. -/
abbrev StdThread := Option ℕ

/-- The objects there are, how many threads have been started, and those that have been joined and
detached. -/
structure System (H : Type) where
  threads : Object H → Option StdThread
  started : ℕ
  joined : List ℕ
  detached : List ℕ

variable [DecidableEq H]

def System.put (s : System H) (o : Object H) (t : Option StdThread) : System H :=
  { s with threads := Function.update s.threads o t }

/-! ### `std::thread` -/

namespace StdThread

/-- The thread of an object that exists. -/
def get (o : Object H) : Prog (System H) StdThread := fun s =>
  match s.threads o with
  | some t => .returned t s
  | none => .stopped .undefinedBehaviour

/-- An object comes into being where there is none. -/
def create (o : Object H) (t : StdThread) : Prog (System H) Unit := fun s =>
  match s.threads o with
  | none => .returned () (s.put o (some t))
  | some _ => .stopped .undefinedBehaviour

/-- An object gets another thread. -/
def set (o : Object H) (t : StdThread) : Prog (System H) Unit := .modify (·.put o (some t))

def joinable (o : Object H) : Prog (System H) Bool := do
  return (← get o).isSome

/-- `std::thread()`. -/
def construct (o : Object H) : Prog (System H) Unit := create o none

/-- `std::thread(func, args...)`; the thread may fail to start. -/
def start (o : Object H) (starts : Bool) : Prog (System H) Unit := fun s =>
  if starts then create o (some s.started) { s with started := s.started + 1 }
  else .threw "resource_unavailable_try_again" s

/-- `std::thread(std::move(other))`. -/
def moveConstruct (o other : Object H) : Prog (System H) Unit := do
  let t ← get other
  create o t
  set other none

/-- `operator=(std::thread &&other)`. -/
def moveAssign (o other : Object H) : Prog (System H) Unit := do
  if ← joinable o then .stop .terminate
  else do
    let t ← get other
    set o t
    set other none

def swap (o other : Object H) : Prog (System H) Unit := do
  let t ← get o
  let u ← get other
  set o u
  set other t

def join (o : Object H) : Prog (System H) Unit := do
  match ← get o with
  | some i =>
    set o none
    .modify fun s => { s with joined := i :: s.joined }
  | none => .throwing "invalid_argument"

def detach (o : Object H) : Prog (System H) Unit := do
  match ← get o with
  | some i =>
    set o none
    .modify fun s => { s with detached := i :: s.detached }
  | none => .throwing "invalid_argument"

/-- `~thread()`. -/
def destroy (o : Object H) : Prog (System H) Unit := do
  if ← joinable o then .stop .terminate else .modify (·.put o none)

end StdThread

/-! ### `AutoJoiningThread` -/

/-- `AutoJoiningThread()`. -/
def construct (this : H) : Prog (System H) Unit := (StdThread.construct (.member this)).noexcept

/-- `AutoJoiningThread(func, args...)`. -/
def start (this : H) (starts : Bool) : Prog (System H) Unit :=
  StdThread.start (.member this) starts

/-- `AutoJoiningThread(std::thread other_thread)`, and the overload that takes it by reference; the
two initialize the member in the same way.  In C++ a call with an rvalue, the only one that a
`std::thread` allows, is ambiguous between them. -/
def fromThread (this : H) (otherThread : Object H) : Prog (System H) Unit :=
  (StdThread.moveConstruct (.member this) otherThread).noexcept

/-- `AutoJoiningThread(AutoJoiningThread &&other)`. -/
def moveConstruct (this other : H) : Prog (System H) Unit :=
  (StdThread.moveConstruct (.member this) (.member other)).noexcept

def joinable (this : H) : Prog (System H) Bool := (StdThread.joinable (.member this)).noexcept

def join (this : H) : Prog (System H) Unit := StdThread.join (.member this)

def detach (this : H) : Prog (System H) Unit := StdThread.detach (.member this)

/-- `if (joinable()) { join(); }`. -/
def joinIfJoinable (this : H) : Prog (System H) Unit := do
  if ← joinable this then join this

/-- `operator=(AutoJoiningThread &&other)`: the result is a reference to the handle. -/
def moveAssign (this other : H) : Prog (System H) (Option H) := .noexcept do
  joinIfJoinable this
  StdThread.moveAssign (.member this) (.member other)
  return some this

/-- `operator=(std::thread other)`.  The function ends without a `return` statement, which is
undefined behaviour in C++: here the assignments stand, and there is no result to use. -/
def assign (this : H) (other : Object H) : Prog (System H) (Option H) := do
  joinIfJoinable this
  StdThread.moveAssign (.member this) other
  return none

/-- `~AutoJoiningThread()`, and the destructor of the member. -/
def destroy (this : H) : Prog (System H) Unit :=
  .inScope (StdThread.destroy (.member this)) (joinIfJoinable this).noexcept

def swap (this other : H) : Prog (System H) Unit :=
  (StdThread.swap (.member this) (.member other)).noexcept

/-! ### The client -/

/-- A `std::thread` to pass on: just started, or not joinable. -/
def makeParameter (running : Bool) : Prog (System H) Unit :=
  if running then StdThread.start .parameter true else StdThread.construct .parameter

/-- A call with a `std::thread` as its argument. -/
def withParameter {A : Type} (running : Bool) (call : Object H → Prog (System H) A) :
    Prog (System H) A := do
  makeParameter running
  .inScope (StdThread.destroy .parameter) (call .parameter)

/-- The operations on handles. -/
inductive Op (H : Type) where
  | construct (this : H)
  | start (this : H) (starts : Bool)
  | fromThread (this : H) (running : Bool)
  | moveConstruct (this other : H)
  | moveAssign (this other : H)
  | assign (this : H) (running : Bool)
  | swap (this other : H)
  | join (this : H)
  | detach (this : H)
  | destroy (this : H)
  deriving DecidableEq

namespace Op

/-- An operation constructs a handle where there is none, and uses handles that exist. -/
def Applicable (s : System H) : Op H → Prop
  | .construct this => s.threads (.member this) = none
  | .start this _ => s.threads (.member this) = none
  | .fromThread this _ => s.threads (.member this) = none
  | .moveConstruct this other =>
      s.threads (.member this) = none ∧ s.threads (.member other) ≠ none
  | .moveAssign this other =>
      s.threads (.member this) ≠ none ∧ s.threads (.member other) ≠ none
  | .assign this _ => s.threads (.member this) ≠ none
  | .swap this other => s.threads (.member this) ≠ none ∧ s.threads (.member other) ≠ none
  | .join this => s.threads (.member this) ≠ none
  | .detach this => s.threads (.member this) ≠ none
  | .destroy this => s.threads (.member this) ≠ none

instance Applicable.decidable (s : System H) : (op : Op H) → Decidable (op.Applicable s)
  | .construct _ | .start _ _ | .fromThread _ _ => inferInstanceAs (Decidable (_ = none))
  | .moveConstruct _ _ => inferInstanceAs (Decidable (_ = none ∧ _ ≠ none))
  | .moveAssign _ _ | .swap _ _ => inferInstanceAs (Decidable (_ ≠ none ∧ _ ≠ none))
  | .assign _ _ | .join _ | .detach _ | .destroy _ => inferInstanceAs (Decidable (_ ≠ none))

/-- The operation as a program; the references that the assignments return are not used. -/
def exec : Op H → Prog (System H) Unit
  | .construct this => AutoJoiningThread.construct this
  | .start this starts => AutoJoiningThread.start this starts
  | .fromThread this running => withParameter running (AutoJoiningThread.fromThread this)
  | .moveConstruct this other => AutoJoiningThread.moveConstruct this other
  | .moveAssign this other => do let _ ← AutoJoiningThread.moveAssign this other
  | .assign this running => do let _ ← withParameter running (AutoJoiningThread.assign this)
  | .swap this other => AutoJoiningThread.swap this other
  | .join this => AutoJoiningThread.join this
  | .detach this => AutoJoiningThread.detach this
  | .destroy this => AutoJoiningThread.destroy this

end Op

/-- No handle, no thread. -/
def initial : System H := ⟨fun _ => none, 0, [], []⟩

/-- The listed operations in turn; an exception does not end the client. -/
def run : System H → List (Op H) → Option (System H)
  | s, [] => some s
  | s, op :: ops => if op.Applicable s then (op.exec s).after.bind fun s' => run s' ops else none

end ConcurrencyInAction.AutoJoiningThread
