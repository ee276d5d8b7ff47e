import ConcurrencyInAction.Lib.Interleaving
import ConcurrencyInAction.Lib.Mutex

/-!
# `operator==(Y const&, Y const&)`: the code, step by step

A `Y` is a mutex `m` and a detail `some_detail`.  The operator compares the addresses of its
arguments, and then calls `get_detail` for one of them and for the other: each call locks the mutex
of its object, copies the detail and unlocks.

* The class never modifies `some_detail`: the members are private, and there is no function that
  sets it.  The note behind the operator supposes that somebody does, between the two copies;
  `Choice.modify` is that supposition, a modification under the mutex of the object.
* `modifications` and `comparisons` are history variables: no step of the code reads them.
-/

namespace ConcurrencyInAction.ComparisonOperator

open Interleaving ExclusiveLock

variable {T Y V : Type*}

/-- A comparison that has returned.  It began after the first `began` of all modifications, and
returned after the first `ended`. -/
structure Comparison (Y : Type*) where
  lhs : Y
  rhs : Y
  began : ℕ
  ended : ℕ
  result : Bool
  deriving DecidableEq

/-- The objects, and the history variables. -/
structure Shared (T Y V : Type*) where
  m : Y → Mutex T
  someDetail : Y → V
  modifications : List (Y × V)
  comparisons : List (Comparison Y)

/-- The two calls of `get_detail` in the operator, with what it has computed before. -/
inductive Call (Y V : Type*) where
  | ofLhs (lhs rhs : Y)
  | ofRhs (lhs rhs : Y) (lhsValue : V)
  deriving DecidableEq

/-- The object that `get_detail` is called for. -/
def Call.object : Call Y V → Y
  | .ofLhs lhs _ => lhs
  | .ofRhs _ rhs _ => rhs

/-- Where a thread is: outside the operator, at its comparisons, or at a statement of
`get_detail`. -/
inductive Point (Y V : Type*) where
  | idle
  | addresses (lhs rhs : Y)
  | lockA (call : Call Y V)
  | copy (call : Call Y V)
  | unlockA (call : Call Y V) (value : V)
  | values (lhs rhs : Y) (lhsValue rhsValue : V)
  deriving DecidableEq

/-- Where the operator goes on with the value that `get_detail` returns. -/
def Call.returned : Call Y V → V → Point Y V
  | .ofLhs lhs rhs, value => .lockA (.ofRhs lhs rhs value)
  | .ofRhs lhs rhs lhsValue, value => .values lhs rhs lhsValue value

/-- A thread: its program point, and when its comparison began. -/
structure Thread (Y V : Type*) where
  point : Point Y V
  began : ℕ
  deriving DecidableEq

/-- What the code does not decide: that an idle thread compares two objects or modifies one, as the
note supposes, and that a thread takes its next step. -/
inductive Choice (Y V : Type*) where
  | compare (lhs rhs : Y)
  | modify (y : Y) (v : V)
  | run
  deriving DecidableEq

def Thread.goto (l : Thread Y V) (p : Point Y V) : Thread Y V := { l with point := p }

/-- The operator returns. -/
def Shared.returns (g : Shared T Y V) (l : Thread Y V) (lhs rhs : Y) (result : Bool) :
    Shared T Y V :=
  { g with comparisons := g.comparisons ++ [⟨lhs, rhs, l.began, g.modifications.length, result⟩] }

section Code

variable [DecidableEq Y]

/-- The mutex of `y` is taken, or released. -/
def Shared.setOwner (g : Shared T Y V) (y : Y) (owner : Mutex T) : Shared T Y V :=
  { g with m := Function.update g.m y owner }

/-- An assignment to `some_detail` of `y`. -/
def Shared.modify (g : Shared T Y V) (y : Y) (v : V) : Shared T Y V :=
  { g with
    someDetail := Function.update g.someDetail y v
    modifications := g.modifications ++ [(y, v)] }

/-- The steps of the operator, of `get_detail`, and of who modifies the objects. -/
def program [DecidableEq V] : Program T (Choice Y V) (Shared T Y V) (Thread Y V) := fun t c g l =>
  match l.point, c with
  | .idle, .compare lhs rhs => some (g, ⟨.addresses lhs rhs, g.modifications.length⟩)
  | .idle, .modify y v => if (g.m y).isNone then some (g.modify y v, l) else none
  | .addresses lhs rhs, .run =>
      if lhs = rhs then some (g.returns l lhs rhs true, l.goto .idle)
      else some (g, l.goto (.lockA (.ofLhs lhs rhs)))
  | .lockA call, .run =>
      if (g.m call.object).isNone then some (g.setOwner call.object (some t), l.goto (.copy call))
      else none
  | .copy call, .run => some (g, l.goto (.unlockA call (g.someDetail call.object)))
  | .unlockA call value, .run => some (g.setOwner call.object none, l.goto (call.returned value))
  | .values lhs rhs lhsValue rhsValue, .run =>
      some (g.returns l lhs rhs (lhsValue = rhsValue), l.goto .idle)
  | _, _ => none

/-- The objects with their details, all mutexes free, no thread inside the operator. -/
def initial (details : Y → V) : Config T (Shared T Y V) (Thread Y V) where
  shared := ⟨fun _ => none, details, [], []⟩
  locals := fun _ => ⟨.idle, 0⟩

/-! ### What a step can do -/

/-- The steps of the code, one case per branch. -/
inductive Step [DecidableEq V] (t : T) (g : Shared T Y V) (l : Thread Y V) :
    Choice Y V → Shared T Y V → Thread Y V → Prop
  | begins (lhs rhs : Y) : l.point = .idle →
      Step t g l (.compare lhs rhs) g ⟨.addresses lhs rhs, g.modifications.length⟩
  | modifies {y : Y} {v : V} : l.point = .idle → g.m y = none →
      Step t g l (.modify y v) (g.modify y v) l
  | identical {y : Y} : l.point = .addresses y y →
      Step t g l .run (g.returns l y y true) (l.goto .idle)
  | distinct {lhs rhs : Y} : l.point = .addresses lhs rhs → lhs ≠ rhs →
      Step t g l .run g (l.goto (.lockA (.ofLhs lhs rhs)))
  | locks {call : Call Y V} : l.point = .lockA call → g.m call.object = none →
      Step t g l .run (g.setOwner call.object (some t)) (l.goto (.copy call))
  | copies {call : Call Y V} : l.point = .copy call →
      Step t g l .run g (l.goto (.unlockA call (g.someDetail call.object)))
  | unlocks {call : Call Y V} {value : V} : l.point = .unlockA call value →
      Step t g l .run (g.setOwner call.object none) (l.goto (call.returned value))
  | compares {lhs rhs : Y} {lhsValue rhsValue : V} : l.point = .values lhs rhs lhsValue rhsValue →
      Step t g l .run (g.returns l lhs rhs (lhsValue = rhsValue)) (l.goto .idle)

variable [DecidableEq V] {t : T} {c : Choice Y V} {g g' : Shared T Y V} {l l' : Thread Y V}

/-- **Inversion.** -/
theorem step_of_program (h : program t c g l = some (g', l')) : Step t g l c g' l' := by
  unfold program at h
  split at h
  all_goals rename_i hp
  · cases h
    exact .begins _ _ hp
  · obtain ⟨hfree, hr⟩ := Option.ite_none_right_eq_some.mp h
    cases hr
    exact .modifies hp (Option.isNone_iff_eq_none.mp hfree)
  · split at h
    · rename_i heq
      subst heq
      cases h
      exact .identical hp
    · cases h
      exact .distinct hp ‹_›
  · obtain ⟨hfree, hr⟩ := Option.ite_none_right_eq_some.mp h
    cases hr
    exact .locks hp (Option.isNone_iff_eq_none.mp hfree)
  · cases h
    exact .copies hp
  · cases h
    exact .unlocks hp
  · cases h
    exact .compares hp
  · cases h

end Code

end ConcurrencyInAction.ComparisonOperator
