import ConcurrencyInAction.AutoJoiningThread.Model

/-!
# `ThreadGuard`, `ScopedThreadGuard` and threads in a container: the code

Three ways to have a thread joined when a scope is left, over the `std::thread` objects of
`AutoJoiningThread`.

* `betterOops` joins in a handler and after the body; `muchBetterOops` leaves it to the destructor
  of a `ThreadGuard`;
* `ScopedThreadGuard` takes the thread over; its constructor throws on one that is not joinable;
  `scopes`: guards in nested scopes;
* `container`: threads that are started one after the other in a vector, and joined in that order;
  the vector destroys its elements on every way out.

The body of a scope is any program on the threads.
-/

namespace ConcurrencyInAction.ThreadGuards

open Exceptions AutoJoiningThread

variable {H : Type} [DecidableEq H]

/-! ### `ThreadGuard` -/

namespace ThreadGuard

/-- `~ThreadGuard()`. -/
def destroy (thread : Object H) : Prog (System H) Unit := do
  if ← StdThread.joinable thread then StdThread.join thread

end ThreadGuard

/-- `betterOops`; `doSomethingInthisThread` is the body. -/
def betterOops (t : Object H) (starts : Bool) (doSomethingInthisThread : Prog (System H) Unit) :
    Prog (System H) Unit := do
  StdThread.start t starts
  .inScope (StdThread.destroy t) do
    .onThrow (StdThread.join t) doSomethingInthisThread
    StdThread.join t

/-- `muchBetterOops`; its further operations are the body. -/
def muchBetterOops (t : Object H) (starts : Bool) (moreOperations : Prog (System H) Unit) :
    Prog (System H) Unit := do
  StdThread.start t starts
  .inScope (StdThread.destroy t) (.inScope (ThreadGuard.destroy t) moreOperations)

/-! ### `ScopedThreadGuard` -/

namespace ScopedThreadGuard

/-- `ScopedThreadGuard(std::thread target)`.  When the constructor throws, the member that it has
initialized is destroyed. -/
def construct (this : H) (target : Object H) : Prog (System H) Unit := do
  StdThread.moveConstruct (.member this) target
  if ← StdThread.joinable (.member this) then pure ()
  else do
    StdThread.destroy (.member this)
    .throwing "no thread"

/-- `~ScopedThreadGuard()`, and the destructor of the member. -/
def destroy (this : H) : Prog (System H) Unit :=
  .inScope (StdThread.destroy (.member this)) (StdThread.join (.member this)).noexcept

/-- A scope with a guard that gets a running thread, or one that is not joinable. -/
def scope (this : H) (running : Bool) (body : Prog (System H) Unit) : Prog (System H) Unit := do
  withParameter running (construct this)
  .inScope (destroy this) body

end ScopedThreadGuard

/-- Guards in nested scopes, the first one outermost. -/
def scopes : List (H × Bool) → Prog (System H) Unit → Prog (System H) Unit
  | [], body => body
  | (this, running) :: guards, body => ScopedThreadGuard.scope this running (scopes guards body)

/-! ### Threads in a container -/

/-- `t.join()` for the elements in turn, from the first one. -/
def joinAll : List H → Prog (System H) Unit
  | [] => pure ()
  | t :: threads => do
    StdThread.join (.member t)
    joinAll threads

/-- `emplace_back` for each element in turn, where `starts` says whether its thread starts, and then
the rest of the function.  An element lives to the end of the function. -/
def emplaceBack : List (H × Bool) → Prog (System H) Unit → Prog (System H) Unit
  | [], rest => rest
  | (t, starts) :: threads, rest => do
    StdThread.start (.member t) starts
    .inScope (StdThread.destroy (.member t)) (emplaceBack threads rest)

/-- The threads are started one after the other, and joined in the same order. -/
def container (threads : List (H × Bool)) : Prog (System H) Unit :=
  emplaceBack threads (joinAll (threads.map Prod.fst))

end ConcurrencyInAction.ThreadGuards
