import ConcurrencyInAction.Lib.Interleaving
import ConcurrencyInAction.Lib.Mutex

/-!
# `add_to_list` and `list_contains`: the code, step by step

Threads that call the two functions on the list `myList` under `myMutex`:

* `std::find` is a loop over the elements: it compares its iterator with `myList.end()`, then the
  element with the value, one step each; an iterator is a position in the list, the length of it for
  `myList.end()`;
* to read an element that is not there is undefined (`Point.undefined`);
* `push_back` may throw, and has then added nothing; the guard gives the mutex back all the same.

`history` is a history variable: the results of the calls, in the order in which they gave the mutex
back.
-/

namespace ConcurrencyInAction.ProtectedList

open Interleaving ExclusiveLock

variable {T V : Type*}

/-- How a call has ended. -/
inductive Result (V : Type*) where
  | added (newValue : V)
  | threw
  | contains (valueToFind : V) (found : Bool)
  deriving DecidableEq

structure Shared (T V : Type*) where
  myList : List V
  myMutex : Mutex T
  history : List (Result V)
  deriving DecidableEq

/-- Where a thread is: outside both functions, or about to take the named step of one. -/
inductive Point (V : Type*) where
  | idle
  | addLock (newValue : V)
  | pushBack (newValue : V)
  | containsLock (valueToFind : V)
  | testEnd (valueToFind : V) (it : ℕ)
  | testValue (valueToFind : V) (it : ℕ)
  | compareEnd (valueToFind : V) (it : ℕ)
  | unlock (r : Result V)
  | undefined
  deriving DecidableEq

/-- The call that an idle thread makes, that a thread takes its next step, or that `push_back`
throws. -/
inductive Choice (V : Type*) where
  | addToList (newValue : V)
  | listContains (valueToFind : V)
  | run
  | throws
  deriving DecidableEq

/-- The statements of `add_to_list` and `list_contains`. -/
def program [DecidableEq V] : Program T (Choice V) (Shared T V) (Point V) := fun t c g l =>
  match l, c with
  | .idle, .addToList newValue => some (g, .addLock newValue)
  | .idle, .listContains valueToFind => some (g, .containsLock valueToFind)
  | .addLock newValue, .run =>
      if g.myMutex.isNone then some ({ g with myMutex := some t }, .pushBack newValue) else none
  | .pushBack newValue, .run =>
      some ({ g with myList := g.myList ++ [newValue] }, .unlock (.added newValue))
  | .pushBack _, .throws => some (g, .unlock .threw)
  | .containsLock valueToFind, .run =>
      if g.myMutex.isNone then some ({ g with myMutex := some t }, .testEnd valueToFind 0)
      else none
  | .testEnd valueToFind it, .run =>
      if it = g.myList.length then some (g, .compareEnd valueToFind it)
      else some (g, .testValue valueToFind it)
  | .testValue valueToFind it, .run =>
      match g.myList[it]? with
      | some value =>
          if value = valueToFind then some (g, .compareEnd valueToFind it)
          else some (g, .testEnd valueToFind (it + 1))
      | none => some (g, .undefined)
  | .compareEnd valueToFind it, .run =>
      some (g, .unlock (.contains valueToFind (it ≠ g.myList.length)))
  | .unlock r, .run => some ({ g with myMutex := none, history := g.history ++ [r] }, .idle)
  | _, _ => none

/-- The list holds `contents`, and no call has been made. -/
def initial (contents : List V) : Config T (Shared T V) (Point V) where
  shared := ⟨contents, none, []⟩
  locals := fun _ => .idle

/-! ### What a step can do -/

/-- The steps of the code. -/
inductive Step (t : T) (g : Shared T V) : Choice V → Point V → Shared T V → Point V → Prop
  | callsAdd (newValue : V) : Step t g (.addToList newValue) .idle g (.addLock newValue)
  | callsContains (valueToFind : V) :
      Step t g (.listContains valueToFind) .idle g (.containsLock valueToFind)
  | locksAdd {newValue : V} : g.myMutex = none →
      Step t g .run (.addLock newValue) { g with myMutex := some t } (.pushBack newValue)
  | pushes {newValue : V} : Step t g .run (.pushBack newValue)
      { g with myList := g.myList ++ [newValue] } (.unlock (.added newValue))
  | pushThrows {newValue : V} : Step t g .throws (.pushBack newValue) g (.unlock .threw)
  | locksContains {valueToFind : V} : g.myMutex = none →
      Step t g .run (.containsLock valueToFind) { g with myMutex := some t }
        (.testEnd valueToFind 0)
  | atEnd {valueToFind : V} : Step t g .run (.testEnd valueToFind g.myList.length) g
      (.compareEnd valueToFind g.myList.length)
  | notAtEnd {valueToFind : V} {it : ℕ} : it ≠ g.myList.length →
      Step t g .run (.testEnd valueToFind it) g (.testValue valueToFind it)
  | finds {valueToFind : V} {it : ℕ} : g.myList[it]? = some valueToFind →
      Step t g .run (.testValue valueToFind it) g (.compareEnd valueToFind it)
  | passes {value valueToFind : V} {it : ℕ} : g.myList[it]? = some value → value ≠ valueToFind →
      Step t g .run (.testValue valueToFind it) g (.testEnd valueToFind (it + 1))
  | dangles {valueToFind : V} {it : ℕ} : g.myList[it]? = none →
      Step t g .run (.testValue valueToFind it) g .undefined
  | compares {valueToFind : V} {it : ℕ} : Step t g .run (.compareEnd valueToFind it) g
      (.unlock (.contains valueToFind (it ≠ g.myList.length)))
  | unlocks {r : Result V} : Step t g .run (.unlock r)
      { g with myMutex := none, history := g.history ++ [r] } .idle

/-- **Inversion.** -/
theorem step_of_program [DecidableEq V] {t : T} {c : Choice V} {g g' : Shared T V} {l l' : Point V}
    (h : program t c g l = some (g', l')) : Step t g c l g' l' := by
  unfold program at h
  split at h
  · cases h
    exact .callsAdd _
  · cases h
    exact .callsContains _
  · obtain ⟨hfree, hr⟩ := Option.ite_none_right_eq_some.mp h
    cases hr
    exact .locksAdd (Option.isNone_iff_eq_none.mp hfree)
  · cases h
    exact .pushes
  · cases h
    exact .pushThrows
  · obtain ⟨hfree, hr⟩ := Option.ite_none_right_eq_some.mp h
    cases hr
    exact .locksContains (Option.isNone_iff_eq_none.mp hfree)
  · split at h
    · rename_i hend
      cases h
      subst hend
      exact .atEnd
    · cases h
      exact .notAtEnd ‹_›
  · split at h
    · rename_i value hvalue
      split at h
      · rename_i heq
        cases h
        subst heq
        exact .finds hvalue
      · cases h
        exact .passes hvalue ‹_›
    · cases h
      exact .dangles ‹_›
  · cases h
    exact .compares
  · cases h
    exact .unlocks
  · cases h

end ConcurrencyInAction.ProtectedList
