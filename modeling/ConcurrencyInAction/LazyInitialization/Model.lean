import ConcurrencyInAction.Lib.Interleaving
import ConcurrencyInAction.Lib.Mutex

/-!
# Lazy initialization: the code, step by step

Threads that call `unnecesary_serialized_protection` and
`undefined_behaviour_with_double_checked_locking`, on one `resource_ptr` and one `resource_mutex`:

* every read of `resource_ptr`, the acquisition and the release of the mutex, the construction of
  the object, `reset` and the call of `do_something` are steps of their own;
* the construction may throw (`Choice.throws`); there is no object then, and the guard gives the
  mutex back on the way out (`Point.unwind`); `reset`, which allocates a control block for the
  object, is taken not to throw;
* `do_something` through a null pointer is undefined (`Point.undefined`).

The two functions differ in the first test, which only the second one makes; once they have the
mutex they run the same statements, and leave it before `do_something`.

The objects are numbered in the order of their construction, and a pointer is the number of its
object, `none` for `nullptr`.  `used` is a history variable: the objects that `do_something` was
called for.
-/

namespace ConcurrencyInAction.LazyInitialization

open Interleaving ExclusiveLock

variable {T : Type*}

/-- The two functions. -/
inductive Call where
  | unnecesarySerializedProtection
  | undefinedBehaviourWithDoubleCheckedLocking
  deriving DecidableEq

/-- Where a thread is: outside both functions, or about to take the named step. -/
inductive Point where
  | idle
  | firstTest
  | lock
  | test
  | construct
  | reset (object : ℕ)
  | unlock
  | unwind
  | arrow
  | doSomething (pointer : Option ℕ)
  | undefined
  deriving DecidableEq

/-- How the last call ended. -/
inductive Outcome where
  | returned
  | threw
  deriving DecidableEq

/-- The pointer, the mutex, how many objects have been constructed, and those that were used. -/
structure Shared (T : Type*) where
  resourcePtr : Option ℕ
  resourceMutex : Mutex T
  constructed : ℕ
  used : List ℕ

/-- A thread: its program point and how its last call ended. -/
structure Thread where
  point : Point
  outcome : Option Outcome
  deriving DecidableEq

/-- The call that an idle thread makes, that a thread takes its next step, or that the construction
throws. -/
inductive Choice where
  | call (f : Call)
  | run
  | throws
  deriving DecidableEq

namespace Thread

/-- The thread goes on at another point. -/
def goto (l : Thread) (p : Point) : Thread := { l with point := p }

/-- The call ends. -/
def finish (o : Outcome) : Thread := ⟨.idle, some o⟩

end Thread

/-- The first statement of a function. -/
def Call.entry : Call → Point
  | .unnecesarySerializedProtection => .lock
  | .undefinedBehaviourWithDoubleCheckedLocking => .firstTest

/-- The statements of the two functions. -/
def program [DecidableEq T] : Program T Choice (Shared T) Thread := fun t c g l =>
  match l.point, c with
  | .idle, .call f => some (g, ⟨f.entry, none⟩)
  | .firstTest, .run => some (g, l.goto (if g.resourcePtr = none then .lock else .arrow))
  | .lock, .run =>
      if g.resourceMutex = none then some ({ g with resourceMutex := some t }, l.goto .test)
      else none
  | .test, .run => some (g, l.goto (if g.resourcePtr = none then .construct else .unlock))
  | .construct, .run =>
      some ({ g with constructed := g.constructed + 1 }, l.goto (.reset g.constructed))
  | .construct, .throws => some (g, l.goto .unwind)
  | .reset object, .run => some ({ g with resourcePtr := some object }, l.goto .unlock)
  | .unlock, .run => some ({ g with resourceMutex := none }, l.goto .arrow)
  | .unwind, .run => some ({ g with resourceMutex := none }, .finish .threw)
  | .arrow, .run => some (g, l.goto (.doSomething g.resourcePtr))
  | .doSomething (some object), .run =>
      some ({ g with used := object :: g.used }, .finish .returned)
  | .doSomething none, .run => some (g, l.goto .undefined)
  | _, _ => none

/-- The pointer is null, the mutex is free, and no call has been made. -/
def initial : Config T (Shared T) Thread where
  shared := ⟨none, none, 0, []⟩
  locals := fun _ => ⟨.idle, none⟩

/-! ### What a step can do -/

/-- The steps of the code. -/
inductive Step (t : T) (g : Shared T) (l : Thread) : Choice → Shared T → Thread → Prop
  | calls (f : Call) : l.point = .idle → Step t g l (.call f) g ⟨f.entry, none⟩
  | firstTestNull : l.point = .firstTest → g.resourcePtr = none → Step t g l .run g (l.goto .lock)
  | firstTestSet : l.point = .firstTest → g.resourcePtr ≠ none → Step t g l .run g (l.goto .arrow)
  | locks : l.point = .lock → g.resourceMutex = none →
      Step t g l .run { g with resourceMutex := some t } (l.goto .test)
  | testNull : l.point = .test → g.resourcePtr = none → Step t g l .run g (l.goto .construct)
  | testSet : l.point = .test → g.resourcePtr ≠ none → Step t g l .run g (l.goto .unlock)
  | constructs : l.point = .construct →
      Step t g l .run { g with constructed := g.constructed + 1 } (l.goto (.reset g.constructed))
  | fails : l.point = .construct → Step t g l .throws g (l.goto .unwind)
  | resets {object : ℕ} : l.point = .reset object →
      Step t g l .run { g with resourcePtr := some object } (l.goto .unlock)
  | unlocks : l.point = .unlock →
      Step t g l .run { g with resourceMutex := none } (l.goto .arrow)
  | unwinds : l.point = .unwind →
      Step t g l .run { g with resourceMutex := none } (.finish .threw)
  | reads : l.point = .arrow → Step t g l .run g (l.goto (.doSomething g.resourcePtr))
  | does {object : ℕ} : l.point = .doSomething (some object) →
      Step t g l .run { g with used := object :: g.used } (.finish .returned)
  | dereferencesNull : l.point = .doSomething none → Step t g l .run g (l.goto .undefined)

/-- **Inversion.** -/
theorem step_of_program [DecidableEq T] {t : T} {c : Choice} {g g' : Shared T} {l l' : Thread}
    (h : program t c g l = some (g', l')) : Step t g l c g' l' := by
  unfold program at h
  split at h
  all_goals rename_i hp
  · cases h
    exact .calls _ hp
  · by_cases hnull : g.resourcePtr = none
    · rw [if_pos hnull] at h
      cases h
      exact .firstTestNull hp hnull
    · rw [if_neg hnull] at h
      cases h
      exact .firstTestSet hp hnull
  · split at h
    · rename_i hfree
      cases h
      exact .locks hp hfree
    · cases h
  · by_cases hnull : g.resourcePtr = none
    · rw [if_pos hnull] at h
      cases h
      exact .testNull hp hnull
    · rw [if_neg hnull] at h
      cases h
      exact .testSet hp hnull
  · cases h
    exact .constructs hp
  · cases h
    exact .fails hp
  · cases h
    exact .resets hp
  · cases h
    exact .unlocks hp
  · cases h
    exact .unwinds hp
  · cases h
    exact .reads hp
  · cases h
    exact .does hp
  · cases h
    exact .dereferencesNull hp
  · cases h

end ConcurrencyInAction.LazyInitialization
