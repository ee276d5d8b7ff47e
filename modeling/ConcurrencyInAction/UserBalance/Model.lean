import ConcurrencyInAction.HierachicalMutex.Client

/-!
# `update_user_balance`: the code, step by step

The users of the registry, and threads that run `update_user_balance(user_name, amount)` under the
two hierarchical mutexes:

* the calls of `lock` and `unlock` run the steps of `hierachical_mutex` itself (`memberStep`); a
  `std::logic_error` that leaves one of them leaves the function;
* `registry.find` is one step: no step of the code writes a name or changes the number of users;
* `user->balance += amount` reads the balance in one step and writes the sum in another, and is
  undefined (`Point.undefined`) through the null pointer.

A `User *` is the position of the user in the vector, `none` for `nullptr`.
-/

namespace ConcurrencyInAction.UserBalance

open Interleaving
open HierachicalMutex (Call GlobalMutex globalHierarchyValue)

variable {T : Type*}

structure User where
  name : String
  balance : ℤ
  deriving DecidableEq

/-- `Registry::find`: the first element with that name. -/
def find : List User → String → Option ℕ
  | [], _ => none
  | element :: list, name => if element.name = name then some 0 else (find list name).map (· + 1)

/-- The two mutexes and the registry. -/
structure Shared (T : Type*) where
  mutexes : HierachicalMutex.Shared T GlobalMutex
  registry : List User

/-- Where a thread is: outside the function, at the named statement, or past a null pointer. -/
inductive Point where
  | idle
  | lockHigh
  | find
  | lockLow (user : Option ℕ)
  | readBalance (user : Option ℕ)
  | writeBalance (user : ℕ) (balance : ℤ)
  | unlockLow
  | unlockHigh
  | undefined
  deriving DecidableEq

/-- How the last call ended. -/
inductive Outcome where
  | returned
  | threw (what : String)
  deriving DecidableEq

/-- A thread: its part of the mutexes' state, its program point, the parameters of its call, and how
its last call ended. -/
structure Thread where
  mutexes : HierachicalMutex.Thread GlobalMutex
  point : Point
  userName : String
  amount : ℤ
  outcome : Option Outcome

/-- What the scheduler and the client decide: the call that an idle thread makes, or that a thread
takes its next step. -/
inductive Choice where
  | call (userName : String) (amount : ℤ)
  | run
  deriving DecidableEq

namespace Thread

/-- A call starts at the first statement. -/
def enter (l : Thread) (userName : String) (amount : ℤ) : Thread :=
  { l with point := .lockHigh, userName := userName, amount := amount, outcome := none }

/-- The function goes on at `p`. -/
def goto (l : Thread) (p : Point) : Thread := { l with point := p }

/-- The function ends. -/
def finish (l : Thread) (o : Outcome) : Thread := { l with point := .idle, outcome := some o }

/-- The member function of the mutex goes on; when it has ended, the function does, with `next` or
with the exception. -/
def advance (l : Thread) (next : Thread → Thread) : Thread :=
  match l.mutexes.point, l.mutexes.outcome with
  | .idle, some (.logicError what) => l.finish (.threw what)
  | .idle, _ => next l
  | _, _ => l

end Thread

/-- `user->balance = balance`. -/
def Shared.setBalance (g : Shared T) (user : ℕ) (balance : ℤ) : Shared T :=
  { g with registry := g.registry.modify user fun u => { u with balance := balance } }

/-- The user behind a pointer. -/
def Shared.deref (g : Shared T) (user : Option ℕ) : Option (ℕ × User) :=
  user.bind fun i => g.registry[i]?.map fun u => (i, u)

section Code

variable [DecidableEq T]

/-- One step of the member function `f` of a mutex: the call, or the next step inside it. -/
def memberStep (t : T) (f : Call GlobalMutex) (next : Thread → Thread) (g : Shared T) (l : Thread) :
    Option (Shared T × Thread) :=
  (HierachicalMutex.program globalHierarchyValue t (l.mutexes.choice f) g.mutexes l.mutexes).map
    fun r => ({ g with mutexes := r.1 }, { l with mutexes := r.2 }.advance next)

/-- The statements of `update_user_balance`. -/
def program : Program T Choice (Shared T) Thread := fun t c g l =>
  match l.point, c with
  | .idle, .call userName amount => some (g, l.enter userName amount)
  | .lockHigh, .run => memberStep t (.lock .highLevelMutex) (·.goto .find) g l
  | .find, .run => some (g, l.goto (.lockLow (find g.registry l.userName)))
  | .lockLow user, .run => memberStep t (.lock .lowLevelMutex) (·.goto (.readBalance user)) g l
  | .readBalance user, .run =>
      match g.deref user with
      | some (i, u) => some (g, l.goto (.writeBalance i u.balance))
      | none => some (g, l.goto .undefined)
  | .writeBalance i balance, .run => some (g.setBalance i (balance + l.amount), l.goto .unlockLow)
  | .unlockLow, .run => memberStep t (.unlock .lowLevelMutex) (·.goto .unlockHigh) g l
  | .unlockHigh, .run => memberStep t (.unlock .highLevelMutex) (·.finish .returned) g l
  | _, _ => none

/-- The registry as `main` has filled it, both mutexes constructed, no call made. -/
def initial (registry : List User) : Config T (Shared T) Thread where
  shared := ⟨HierachicalMutex.initial.shared, registry⟩
  locals := fun t => ⟨(HierachicalMutex.initial (T := T)).locals t, .idle, "", 0, none⟩

/-- Every thread is a new one that makes its own call and no other. -/
def oneCallEach (calls : T → String × ℤ) (s : Config T (Shared T) Thread) (t : T) (c : Choice) :
    Prop :=
  ∀ userName amount, c = .call userName amount →
    (userName, amount) = calls t ∧ (s.locals t).outcome = none

instance (calls : T → String × ℤ) (s : Config T (Shared T) Thread) (t : T) (c : Choice) :
    Decidable (oneCallEach calls s t c) :=
  match c with
  | .call userName amount =>
      decidable_of_iff ((userName, amount) = calls t ∧ (s.locals t).outcome = none)
        ⟨fun h _ _ he => by cases he; exact h, fun h => h _ _ rfl⟩
  | .run => isTrue (fun _ _ he => by cases he)

/-! ### What a step can do -/

/-- The calls of mutex functions, and how the function goes on after them. -/
inductive Point.Member : Point → Call GlobalMutex → (Thread → Thread) → Prop
  | lockHigh : Member .lockHigh (.lock .highLevelMutex) (·.goto .find)
  | lockLow (user : Option ℕ) :
      Member (.lockLow user) (.lock .lowLevelMutex) (·.goto (.readBalance user))
  | unlockLow : Member .unlockLow (.unlock .lowLevelMutex) (·.goto .unlockHigh)
  | unlockHigh : Member .unlockHigh (.unlock .highLevelMutex) (·.finish .returned)

/-- The steps of the code. -/
inductive Step (t : T) (g : Shared T) (l : Thread) : Choice → Shared T → Thread → Prop
  | call (userName : String) (amount : ℤ) : l.point = .idle →
      Step t g l (.call userName amount) g (l.enter userName amount)
  | member {f : Call GlobalMutex} {next : Thread → Thread}
      {g' : HierachicalMutex.Shared T GlobalMutex} {k' : HierachicalMutex.Thread GlobalMutex} :
      l.point.Member f next →
      HierachicalMutex.Step globalHierarchyValue t g.mutexes l.mutexes (l.mutexes.choice f) g' k' →
      Step t g l .run { g with mutexes := g' } ({ l with mutexes := k' }.advance next)
  | finds : l.point = .find → Step t g l .run g (l.goto (.lockLow (find g.registry l.userName)))
  | reads {i : ℕ} {u : User} : l.point = .readBalance (some i) → g.registry[i]? = some u →
      Step t g l .run g (l.goto (.writeBalance i u.balance))
  | readsOutside {user : Option ℕ} : l.point = .readBalance user → g.deref user = none →
      Step t g l .run g (l.goto .undefined)
  | writes {i : ℕ} {balance : ℤ} : l.point = .writeBalance i balance →
      Step t g l .run (g.setBalance i (balance + l.amount)) (l.goto .unlockLow)

variable {t : T} {c : Choice} {g g' : Shared T} {l l' : Thread}

omit [DecidableEq T] in
theorem deref_eq_some {user : Option ℕ} {i : ℕ} {u : User} :
    g.deref user = some (i, u) ↔ user = some i ∧ g.registry[i]? = some u := by
  simp only [Shared.deref, Option.bind_eq_some_iff, Option.map_eq_some_iff, Prod.mk.injEq]
  constructor
  · intro h
    obtain ⟨_, hj, _, hu, rfl, rfl⟩ := h
    exact ⟨hj, hu⟩
  · intro h
    obtain ⟨hj, hu⟩ := h
    exact ⟨i, hj, u, hu, rfl, rfl⟩

theorem memberStep_eq_some {f : Call GlobalMutex} {next : Thread → Thread} :
    memberStep t f next g l = some (g', l') ↔ ∃ m k,
      HierachicalMutex.Step globalHierarchyValue t g.mutexes l.mutexes (l.mutexes.choice f) m k ∧
      g' = { g with mutexes := m } ∧ l' = { l with mutexes := k }.advance next := by
  simp only [memberStep, Option.map_eq_some_iff, Prod.exists, Prod.mk.injEq]
  constructor
  · intro h
    obtain ⟨m, k, hp, rfl, rfl⟩ := h
    exact ⟨m, k, (HierachicalMutex.program_eq_some _).mp hp, rfl, rfl⟩
  · intro h
    obtain ⟨m, k, hst, rfl, rfl⟩ := h
    exact ⟨m, k, (HierachicalMutex.program_eq_some _).mpr hst, rfl, rfl⟩

theorem Step.of_memberStep {f : Call GlobalMutex} {next : Thread → Thread}
    (hm : l.point.Member f next) (h : memberStep t f next g l = some (g', l')) :
    Step t g l .run g' l' := by
  obtain ⟨m, k, hst, rfl, rfl⟩ := memberStep_eq_some.mp h
  exact .member hm hst

/-- **Inversion.** -/
theorem step_of_program (h : program t c g l = some (g', l')) : Step t g l c g' l' := by
  unfold program at h
  split at h
  all_goals rename_i hp
  · cases h
    exact .call _ _ hp
  · exact .of_memberStep (hp ▸ .lockHigh) h
  · cases h
    exact .finds hp
  · exact .of_memberStep (hp ▸ .lockLow _) h
  · split at h
    · rename_i i u hderef
      cases h
      obtain ⟨rfl, hu⟩ := deref_eq_some.mp hderef
      exact .reads hp hu
    · rename_i hderef
      cases h
      exact .readsOutside hp hderef
  · cases h
    exact .writes hp
  · exact .of_memberStep (hp ▸ .unlockLow) h
  · exact .of_memberStep (hp ▸ .unlockHigh) h
  · cases h

/-- A thread at a call of a mutex function moves with the function. -/
theorem program_of_member {f : Call GlobalMutex} {next : Thread → Thread}
    (hm : l.point.Member f next) : program t .run g l = memberStep t f next g l := by
  generalize hp : l.point = p at hm
  unfold program
  rw [hp]
  cases hm <;> rfl

end Code

end ConcurrencyInAction.UserBalance
