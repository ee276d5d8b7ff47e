import ConcurrencyInAction.AtomicCounter.Model

/-!
# `multithread_compare_exchange_weak`: the code, step by step

The function, and the threads it starts, each of which makes one call of `increment_with_loop`:

* the calls take the steps of `increment_with_loop` itself, on the counter, a local variable of the
  function; an access of the counter that is gone is undefined (`Thread.undefined`);
* `hardware_threads.reserve` may throw, and so may the start of a thread (`Choice.throws`); the
  destructor of the vector terminates the program if an element is still joinable
  (`Thread.terminated`), and then nobody takes another step;
* the threads are numbered as the elements of the vector are.

The party `none` is the function, and `some i` the thread number `i`; `n` is what
`hardware_concurrency()` has returned.
-/

namespace ConcurrencyInAction.MultithreadCompareExchange

open Interleaving

variable {A : Type*} {n : ℕ}

abbrev Party (n : ℕ) := Option (Fin n)

inductive Outcome where
  | returned
  | threw
  deriving DecidableEq

/-- The counter, whether it exists still; how many threads have been started and joined, which have
finished; and whether the program has been terminated. -/
structure Shared (n : ℕ) (A : Type*) where
  counter : AtomicCounter.Shared (Party n) A
  alive : Bool
  started : ℕ
  joined : ℕ
  finished : Fin n → Bool
  terminated : Bool

/-- Where a party is.  The function: at `reserve`, at the two loops, at the destructor of the
vector, or gone.  A thread: not started, in its call, finished. -/
inductive Thread (A : Type*) where
  | reserve
  | emplaceBack (i : ℕ)
  | join (i : ℕ)
  | destroy (o : Outcome)
  | left (o : Outcome)
  | terminated
  | unstarted
  | call (l : AtomicCounter.Point A)
  | finished
  | undefined
  deriving DecidableEq

/-- A party takes its next step, what it calls throws, or `compare_exchange_weak` fails
spuriously. -/
inductive Choice where
  | run
  | throws
  | spurious
  deriving DecidableEq

/-- The choice for `increment_with_loop`. -/
def Choice.inCall : Choice → Option AtomicCounter.Choice
  | .run => some .run
  | .throws => none
  | .spurious => some .spurious

/-- The statements of the function. -/
def statements (n : ℕ) (g : Shared n A) (l : Thread A) (c : Choice) :
    Option (Shared n A × Thread A) :=
  match l, c with
  | .reserve, .run => some (g, .emplaceBack 0)
  | .reserve, .throws => some ({ g with alive := false }, .left .threw)
  | .emplaceBack i, .run =>
      if i < n then some ({ g with started := i + 1 }, .emplaceBack (i + 1)) else some (g, .join 0)
  | .emplaceBack i, .throws => if i < n then some (g, .destroy .threw) else none
  | .join i, .run =>
      if h : i < n then
        if g.finished ⟨i, h⟩ then some ({ g with joined := i + 1 }, .join (i + 1)) else none
      else some (g, .destroy .returned)
  | .destroy o, .run =>
      if g.joined < g.started then some ({ g with terminated := true }, .terminated)
      else some ({ g with alive := false }, .left o)
  | _, _ => none

/-- The steps of a call that access the counter. -/
def accesses : AtomicCounter.Point A → Bool
  | .load | .exchange _ _ => true
  | .compute _ | .recompute _ _ | .returned => false

/-- The steps of thread number `i`. -/
def thread [DecidableEq A] [Add A] [One A] (i : Fin n) (g : Shared n A) (l : Thread A)
    (c : Choice) : Option (Shared n A × Thread A) :=
  match l, c with
  | .unstarted, .run => if i < g.started then some (g, .call .load) else none
  | .call .returned, .run =>
      some ({ g with finished := Function.update g.finished i true }, .finished)
  | .call l, c =>
      if accesses l && !g.alive then some (g, .undefined)
      else c.inCall.bind fun d => (AtomicCounter.program (some i) d g.counter l).map fun r =>
        ({ g with counter := r.1 }, .call r.2)
  | _, _ => none

/-- The function and its threads. -/
def program (n : ℕ) [DecidableEq A] [Add A] [One A] :
    Program (Party n) Choice (Shared n A) (Thread A) := fun t c g l =>
  if g.terminated then none
  else match t with
    | none => statements n g l c
    | some i => thread i g l c

/-- The function is about to reserve; its counter holds `c₀`. -/
def initial (n : ℕ) (c₀ : A) : Config (Party n) (Shared n A) (Thread A) where
  shared := ⟨⟨c₀, []⟩, true, 0, 0, fun _ => false, false⟩
  locals
    | none => .reserve
    | some _ => .unstarted

/-! ### What a step can do -/

/-- The steps of the code. -/
inductive Step (n : ℕ) [DecidableEq A] [Add A] [One A] (g : Shared n A) :
    Party n → Choice → Thread A → Shared n A → Thread A → Prop
  | reserves : Step n g none .run .reserve g (.emplaceBack 0)
  | reserveThrows : Step n g none .throws .reserve { g with alive := false } (.left .threw)
  | starts {i : ℕ} : i < n →
      Step n g none .run (.emplaceBack i) { g with started := i + 1 } (.emplaceBack (i + 1))
  | startThrows {i : ℕ} : i < n → Step n g none .throws (.emplaceBack i) g (.destroy .threw)
  | startedAll {i : ℕ} : n ≤ i → Step n g none .run (.emplaceBack i) g (.join 0)
  | joins {i : ℕ} (h : i < n) : g.finished ⟨i, h⟩ = true →
      Step n g none .run (.join i) { g with joined := i + 1 } (.join (i + 1))
  | joinedAll {i : ℕ} : n ≤ i → Step n g none .run (.join i) g (.destroy .returned)
  | terminates {o : Outcome} : g.joined < g.started →
      Step n g none .run (.destroy o) { g with terminated := true } .terminated
  | leaves {o : Outcome} : g.started ≤ g.joined →
      Step n g none .run (.destroy o) { g with alive := false } (.left o)
  | begins {i : Fin n} : i < g.started → Step n g (some i) .run .unstarted g (.call .load)
  | finishes {i : Fin n} : Step n g (some i) .run (.call .returned)
      { g with finished := Function.update g.finished i true } .finished
  | calls {i : Fin n} {c : Choice} {d : AtomicCounter.Choice} {l l' : AtomicCounter.Point A}
      {h' : AtomicCounter.Shared (Party n) A} : c.inCall = some d →
      AtomicCounter.program (some i) d g.counter l = some (h', l') →
      Step n g (some i) c (.call l) { g with counter := h' } (.call l')
  | dangles {i : Fin n} {c : Choice} {l : AtomicCounter.Point A} : g.alive = false →
      Step n g (some i) c (.call l) g .undefined

variable [DecidableEq A] [Add A] [One A] {t : Party n} {c : Choice} {g g' : Shared n A}
  {l l' : Thread A}

theorem step_of_statements (h : statements n g l c = some (g', l')) :
    Step n g none c l g' l' := by
  unfold statements at h
  split at h
  · cases h
    exact .reserves
  · cases h
    exact .reserveThrows
  · split at h
    · cases h
      exact .starts ‹_›
    · cases h
      exact .startedAll (Nat.le_of_not_lt ‹_›)
  · obtain ⟨hi, hr⟩ := Option.ite_none_right_eq_some.mp h
    cases hr
    exact .startThrows hi
  · split at h
    · obtain ⟨hfinished, hr⟩ := Option.ite_none_right_eq_some.mp h
      cases hr
      exact .joins ‹_› hfinished
    · cases h
      exact .joinedAll (Nat.le_of_not_lt ‹_›)
  · split at h
    · cases h
      exact .terminates ‹_›
    · cases h
      exact .leaves (Nat.le_of_not_lt ‹_›)
  · cases h

theorem step_of_thread {i : Fin n} (h : thread i g l c = some (g', l')) :
    Step n g (some i) c l g' l' := by
  unfold thread at h
  split at h
  · obtain ⟨hi, hr⟩ := Option.ite_none_right_eq_some.mp h
    cases hr
    exact .begins hi
  · cases h
    exact .finishes
  · split at h
    · rename_i hgone
      rw [Bool.and_eq_true, Bool.not_eq_true'] at hgone
      cases h
      exact .dangles hgone.2
    · obtain ⟨d, hd, hr⟩ := Option.bind_eq_some_iff.mp h
      obtain ⟨r, hp, he⟩ := Option.map_eq_some_iff.mp hr
      cases he
      exact .calls hd hp
  · cases h

/-- **Inversion.** -/
theorem step_of_program (h : program n t c g l = some (g', l')) :
    g.terminated = false ∧ Step n g t c l g' l' := by
  obtain ⟨hgoes, h⟩ := Option.ite_none_left_eq_some.mp h
  refine ⟨Bool.eq_false_iff.mpr hgoes, ?_⟩
  cases t with
  | none => exact step_of_statements h
  | some i => exact step_of_thread h

end ConcurrencyInAction.MultithreadCompareExchange
