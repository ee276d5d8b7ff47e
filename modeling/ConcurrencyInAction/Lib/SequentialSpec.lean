import Mathlib.Data.List.Basic
import Mathlib.Data.List.Count

/-!
# Sequential specifications and their histories

The sequential specification of an object is a relation between its state, an event (an operation
with its result) and the state after it.  A history is a list of events in the order in which they
took effect.

* `Legal step s₀ es s`: the events `es`, one after the other, lead from `s₀` to `s`;
* `Legal.snoc`: a legal history is extended by a step of the specification;
* `Legal.split`: each of its events is one in the state that the events before it lead to;
* `Legal.fifo`: **the FIFO ledger** of an object whose state is a list;
* `perm_of_filter_eq`: histories that agree thread by thread are permutations of each other.
-/

namespace SequentialSpec

variable {S E V : Type*}

/-- The events of the history lead from `s₀` to the state, one step of the specification each. -/
inductive Legal (step : S → E → S → Prop) (s₀ : S) : List E → S → Prop
  | nil : Legal step s₀ [] s₀
  | snoc {es : List E} {s s' : S} {e : E} : Legal step s₀ es s → step s e s' →
      Legal step s₀ (es ++ [e]) s'

variable {step : S → E → S → Prop} {s₀ s : S} {es : List E}

/-- What holds at the start and is kept by every step of the specification holds after every legal
history. -/
theorem Legal.invariant {I : List E → S → Prop} (h₀ : I [] s₀)
    (hstep : ∀ es s e s', I es s → step s e s' → I (es ++ [e]) s') (h : Legal step s₀ es s) :
    I es s := by
  induction h with
  | nil => exact h₀
  | snoc _ hs ih => exact hstep _ _ _ _ ih hs

/-- Each event of a legal history is one in the state that the events before it lead to. -/
theorem Legal.split {fs : List E} {e : E} (h : Legal step s₀ fs s) :
    ∀ past future, fs = past ++ e :: future →
      ∃ s₁ s₂, Legal step s₀ past s₁ ∧ step s₁ e s₂ := by
  induction h with
  | nil =>
    intro past future he
    exact absurd he.symm (List.append_ne_nil_of_right_ne_nil _ (List.cons_ne_nil _ _))
  | @snoc es s s' e' hes hs ih =>
    intro past future he
    rcases List.eq_nil_or_concat future with hfuture | ⟨init, last, hfuture⟩
    · subst hfuture
      obtain ⟨hpast, hlast⟩ := List.append_inj' he rfl
      cases hlast
      exact ⟨s, s', hpast ▸ hes, hs⟩
    · subst hfuture
      rw [List.concat_eq_append, ← List.cons_append, ← List.append_assoc] at he
      exact ih past init (List.append_inj' he rfl).1

/-- **The FIFO ledger.**  If every step appends what comes in at the back and takes what goes out
from the front, then everything that came in is everything that went out, in order, followed by the
present contents. -/
theorem Legal.fifo {step : List V → E → List V → Prop} {s₀ s : List V} (input output : E → Option V)
    (hstep : ∀ s e s', step s e s' → s ++ (input e).toList = (output e).toList ++ s')
    (h : Legal step s₀ es s) : s₀ ++ es.filterMap input = es.filterMap output ++ s := by
  refine h.invariant (I := fun es s => s₀ ++ es.filterMap input = es.filterMap output ++ s)
    ?_ fun es s e s' ih hs => ?_
  · simp
  · have hone : ∀ f : E → Option V, [e].filterMap f = (f e).toList := by
      intro f
      cases hf : f e <;> simp [hf]
    rw [List.filterMap_append, List.filterMap_append, hone, hone, ← List.append_assoc, ih,
      List.append_assoc, hstep s e s' hs, List.append_assoc]

/-- Two histories that agree on the events of each thread have the same events. -/
theorem perm_of_filter_eq {T : Type*} [DecidableEq T] [DecidableEq E] (thread : E → T)
    {es fs : List E} (h : ∀ t, es.filter (thread · = t) = fs.filter (thread · = t)) :
    es.Perm fs := by
  rw [List.perm_iff_count]
  intro e
  have hown : ∀ xs : List E, List.count e xs = List.count e (xs.filter (thread · = thread e)) := by
    intro xs
    rw [List.count_filter]
    simp
  rw [hown es, hown fs, h]

end SequentialSpec
