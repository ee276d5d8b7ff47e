import ConcurrencyInAction.Lib.Interleaving

/-!
# Components

A program that uses another one: its threads take steps of the component, and steps of their own
that leave the component where it is.

* `Component`: the component, seen through a map of the shared state and a map of the threads'
  states;
* `Config.map_update`: a step of one thread, seen through the maps;
* `Component.reachable`: **the rule of components**.  What the program reaches, seen through the
  maps, is reached by the component; so every invariant of the component holds inside the program.
-/

namespace Interleaving

variable {T C D G H K L : Type*} [DecidableEq T]

/-- One thread moves, seen through the maps. -/
theorem Config.map_update (f : G → H) (k : L → K) (s : Config T G L) (t : T) (g : G) (l : L) :
    Config.map f k ⟨g, Function.update s.locals t l⟩ =
      ⟨f g, Function.update (s.map f k).locals t (k l)⟩ := by
  refine congrArg (Config.mk (f g)) (funext fun u => ?_)
  show k (Function.update s.locals t l u) = Function.update (s.map f k).locals t (k l) u
  by_cases hu : u = t
  · subst hu
    rw [Function.update_self, Function.update_self]
  · rw [Function.update_of_ne hu, Function.update_of_ne hu]
    rfl

/-- From `s₀` on, every allowed step of `p` is an allowed step of `q` on the component, or leaves it
alone. -/
structure Component (p : Program T C G L) (ok : Config T G L → T → C → Prop) (s₀ : Config T G L)
    (q : Program T D H K) (ok' : Config T H K → T → D → Prop) (f : G → H) (k : L → K) :
    Prop where
  step : ∀ s t c g l, Reachable p ok s₀ s → ok s t c →
    p t c s.shared (s.locals t) = some (g, l) →
    (f g = f s.shared ∧ k l = k (s.locals t)) ∨
    ∃ d, ok' (s.map f k) t d ∧ q t d (f s.shared) (k (s.locals t)) = some (f g, k l)

/-- **The rule of components.** -/
theorem Component.reachable {p : Program T C G L} {ok : Config T G L → T → C → Prop}
    {q : Program T D H K} {ok' : Config T H K → T → D → Prop} {f : G → H} {k : L → K}
    {s₀ s : Config T G L} (h : Component p ok s₀ q ok' f k) (hs : Reachable p ok s₀ s) :
    Reachable q ok' (s₀.map f k) (s.map f k) := by
  induction hs with
  | init => exact .init
  | @step s s' t c hr hok hst ih =>
    obtain ⟨g, l, hp, rfl⟩ := Config.step_eq_some.mp hst
    rw [Config.map_update]
    rcases h.step s t c g l hr hok hp with ⟨hg, hl⟩ | ⟨d, hok', hq⟩
    · rw [hg, hl]
      have hsame : Function.update (s.map f k).locals t (k (s.locals t)) = (s.map f k).locals :=
        Function.update_eq_self t _
      rw [hsame]
      exact ih
    · exact ih.step hok' (Config.step_eq_some.mpr ⟨_, _, hq, rfl⟩)

end Interleaving
