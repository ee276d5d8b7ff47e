import ConcurrencyInAction.Lib.Interleaving

/-!
# `increment_with_loop`: the code, step by step

Concurrent calls of `increment_with_loop` on one atomic counter:

* the values of the counter are any additive group with a `1` (the integers where no overflow is
  assumed, a ring of residues where it wraps around);
* `counter.load()`, the computation of `desired`, `compare_exchange_weak` and the computation of
  `desired` after a failure are the steps;
* `compare_exchange_weak` may fail although the counter holds `expected` (`Choice.spurious`).

The shared state records what the operations on the counter did, the newest first.
-/

namespace ConcurrencyInAction.AtomicCounter

open Interleaving

variable {T A : Type*}

/-- What an operation on the counter did, and the call it belongs to. -/
inductive Event (T : Type*) where
  | loaded (t : T)
  | succeeded (t : T)
  | failed (t : T)
  | failedSpuriously (t : T)
  deriving DecidableEq

/-- The counter, and the operations on it so far. -/
structure Shared (T A : Type*) where
  counter : A
  history : List (Event T)

/-- Where a call is, with its local variables. -/
inductive Point (A : Type*) where
  | load
  | compute (expected : A)
  | exchange (expected desired : A)
  | recompute (expected desired : A)
  | returned
  deriving DecidableEq

/-- The next statement, or a spurious failure of `compare_exchange_weak`. -/
inductive Choice where
  | run
  | spurious
  deriving DecidableEq

/-- An operation that leaves the counter as it is. -/
def Shared.record (g : Shared T A) (e : Event T) : Shared T A :=
  { g with history := e :: g.history }

/-- The statements of `increment_with_loop`.  A failure of `compare_exchange_weak` writes the
counter to `expected`. -/
def program [DecidableEq A] [Add A] [One A] : Program T Choice (Shared T A) (Point A) :=
  fun t c g l =>
    match l, c with
    | .load, .run => some (g.record (.loaded t), .compute g.counter)
    | .compute expected, .run => some (g, .exchange expected (expected + 1))
    | .exchange expected desired, .run =>
        if g.counter = expected then some (⟨desired, .succeeded t :: g.history⟩, .returned)
        else some (g.record (.failed t), .recompute g.counter desired)
    | .exchange expected desired, .spurious =>
        if g.counter = expected then
          some (g.record (.failedSpuriously t), .recompute g.counter desired)
        else none
    | .recompute expected _, .run => some (g, .exchange expected (expected + 1))
    | _, _ => none

/-- The counter holds `c₀` and no call has taken a step. -/
def initial (c₀ : A) : Config T (Shared T A) (Point A) where
  shared := ⟨c₀, []⟩
  locals := fun _ => .load

/-! ### What a step can do -/

/-- The steps of the code. -/
inductive Step [Add A] [One A] (t : T) (g : Shared T A) :
    Point A → Choice → Shared T A → Point A → Prop
  | loads : Step t g .load .run (g.record (.loaded t)) (.compute g.counter)
  | computes (expected : A) :
      Step t g (.compute expected) .run g (.exchange expected (expected + 1))
  | succeeds (desired : A) :
      Step t g (.exchange g.counter desired) .run ⟨desired, .succeeded t :: g.history⟩ .returned
  | fails {expected : A} (desired : A) : g.counter ≠ expected →
      Step t g (.exchange expected desired) .run (g.record (.failed t))
        (.recompute g.counter desired)
  | failsSpuriously (desired : A) :
      Step t g (.exchange g.counter desired) .spurious (g.record (.failedSpuriously t))
        (.recompute g.counter desired)
  | recomputes (expected desired : A) :
      Step t g (.recompute expected desired) .run g (.exchange expected (expected + 1))

/-- **Inversion.** -/
theorem step_of_program [DecidableEq A] [Add A] [One A] {t : T} {c : Choice} {g g' : Shared T A}
    {l l' : Point A} (h : program t c g l = some (g', l')) : Step t g l c g' l' := by
  unfold program at h
  split at h
  · cases h
    exact .loads
  · cases h
    exact .computes _
  · split at h
    · rename_i heq
      cases h
      subst heq
      exact .succeeds _
    · rename_i hne
      cases h
      exact .fails _ hne
  · split at h
    · rename_i heq
      cases h
      subst heq
      exact .failsSpuriously _
    · cases h
  · cases h
    exact .recomputes _ _
  · cases h

end ConcurrencyInAction.AtomicCounter
