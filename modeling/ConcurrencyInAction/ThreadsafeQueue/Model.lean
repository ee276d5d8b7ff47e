import ConcurrencyInAction.Lib.Interleaving
import ConcurrencyInAction.Lib.Mutex
import ConcurrencyInAction.Lib.ConditionVariable
import Mathlib.Data.Fintype.Basic

/-!
# `threadsafe_queue`: the code, step by step

`push`, both overloads of `try_pop` and both overloads of `wait_and_pop`, with the acquisition of
`mut`, the predicate test, going to sleep, waking, re-acquiring `mut`, the copy of the front
element, the container's `push` and `pop`, `notify_one` and the release of `mut` as separate steps.

* Going to sleep releases `mut` in the same step; a thread inside `wait` is asleep or woken, and a
  woken one re-acquires `mut` and tests the predicate again.
* `notify_one` wakes one of the sleepers if there is one; a sleeper may also wake spuriously.
* The container's `push`, the copy of the front element and `make_shared` may throw; the container
  is unchanged, and the guard releases `mut` on the way out.
* `front()` and `pop()` on an empty container are undefined (`Point.undefined`).

The two overloads of a pop differ in what may throw (the assignment of the element, or the
allocation and the copy) and in what they hand to the caller; `Overload` says which one runs.

`history` is a history variable that no step of the code reads: how the operations ended, in the
order in which they gave `mut` up for the last time, which is the order in which they held it.
-/

namespace ConcurrencyInAction.ThreadsafeQueue

open Interleaving ExclusiveLock

variable {T V : Type*}

/-- `try_pop(T&)` and `wait_and_pop(T&)`, or `try_pop()` and `wait_and_pop()`. -/
inductive Overload where
  | byReference
  | byPointer
  deriving DecidableEq

instance : Fintype Overload where
  elems := {.byReference, .byPointer}
  complete o := by cases o <;> decide

/-- The operations. -/
inductive Call (V : Type*) where
  | push (newValue : V)
  | tryPop (o : Overload)
  | waitAndPop (o : Overload)
  deriving DecidableEq

/-- How an operation ends: `failed` is the `false` or the empty pointer of `try_pop`. -/
inductive Result (V : Type*) where
  | pushed (v : V)
  | popped (o : Overload) (v : V)
  | failed (o : Overload)
  | threw
  deriving DecidableEq

/-- Where a thread is: outside every operation, or about to take the named step of one. -/
inductive Point (V : Type*) where
  | idle
  | pushLock (newValue : V)
  | pushContainer (newValue : V)
  | pushNotify (newValue : V)
  | tryLock (o : Overload)
  | tryTest (o : Overload)
  | tryCopy (o : Overload)
  | waitLock (o : Overload)
  | waitTest (o : Overload)
  | waitSleep (o : Overload)
  | waiting (o : Overload)
  | waitCopy (o : Overload)
  | popContainer (o : Overload) (v : V)
  | unlock (r : Result V)
  | undefined
  deriving DecidableEq

/-- The members of the queue (`queueMut` is its `mut`), and the history variable. -/
structure Shared (T V : Type*) where
  queueMut : Mutex T
  dataQueue : List V
  dataCond : ConditionVariable T
  history : List (Result V)

/-- A thread: its program point and how its last operation ended. -/
structure Thread (V : Type*) where
  point : Point V
  result : Option (Result V)

/-- What the code does not decide: the operation an idle thread starts, that a thread takes its
next step, that the step throws, which sleeper `notify_one` wakes, and a spurious wake-up. -/
inductive Choice (T V : Type*) where
  | call (f : Call V)
  | run
  | throws
  | notify (sleeper : Option T)
  | spurious
  deriving DecidableEq

/-- The thread goes on at another point. -/
def Thread.goto (l : Thread V) (p : Point V) : Thread V := { l with point := p }

section Code

variable [DecidableEq T]

/-- The first step of an operation. -/
def Call.entry : Call V → Point V
  | .push v => .pushLock v
  | .tryPop o => .tryLock o
  | .waitAndPop o => .waitLock o

/-- `mut.lock()`, by a guard or by `wait`: the thread goes on at `next` once it has the mutex. -/
def lockMut (t : T) (g : Shared T V) (l : Thread V) (next : Point V) :
    Option (Shared T V × Thread V) :=
  if g.queueMut = none then some ({ g with queueMut := some t }, l.goto next) else none

/-- `value = data_queue.front()` or `make_shared<T>(data_queue.front())`. -/
def copyFront (g : Shared T V) (l : Thread V) (o : Overload) : Shared T V × Thread V :=
  match g.dataQueue with
  | [] => (g, l.goto .undefined)
  | v :: _ => (g, l.goto (.popContainer o v))

/-- The steps of the five operations. -/
def program : Program T (Choice T V) (Shared T V) (Thread V) :=
  fun t c g l =>
    match l.point, c with
    | .idle, .call f => some (g, { l with point := f.entry, result := none })
    | .pushLock v, .run => lockMut t g l (.pushContainer v)
    | .pushContainer v, .run =>
        some ({ g with dataQueue := g.dataQueue ++ [v] }, l.goto (.pushNotify v))
    | .pushContainer _, .throws => some (g, l.goto (.unlock .threw))
    | .pushNotify v, .notify (some u) =>
        if u ∈ g.dataCond.asleep then
          some ({ g with dataCond := g.dataCond.wake u }, l.goto (.unlock (.pushed v)))
        else none
    | .pushNotify v, .notify none =>
        if g.dataCond.asleep = ∅ then some (g, l.goto (.unlock (.pushed v))) else none
    | .tryLock o, .run => lockMut t g l (.tryTest o)
    | .tryTest o, .run =>
        if g.dataQueue.isEmpty then some (g, l.goto (.unlock (.failed o)))
        else some (g, l.goto (.tryCopy o))
    | .tryCopy o, .run => some (copyFront g l o)
    | .tryCopy _, .throws => some (g, l.goto (.unlock .threw))
    | .waitLock o, .run => lockMut t g l (.waitTest o)
    | .waitTest o, .run =>
        if g.dataQueue.isEmpty then some (g, l.goto (.waitSleep o))
        else some (g, l.goto (.waitCopy o))
    | .waitSleep o, .run =>
        some ({ g with queueMut := none, dataCond := g.dataCond.sleep t }, l.goto (.waiting o))
    | .waiting _, .spurious =>
        if t ∈ g.dataCond.asleep then some ({ g with dataCond := g.dataCond.wake t }, l) else none
    | .waiting o, .run =>
        if t ∈ g.dataCond.woken then
          lockMut t { g with dataCond := g.dataCond.leave t } l (.waitTest o)
        else none
    | .waitCopy o, .run => some (copyFront g l o)
    | .waitCopy _, .throws => some (g, l.goto (.unlock .threw))
    | .popContainer o v, .run =>
        match g.dataQueue with
        | [] => some (g, l.goto .undefined)
        | _ :: rest => some ({ g with dataQueue := rest }, l.goto (.unlock (.popped o v)))
    | .unlock r, .run =>
        some ({ g with queueMut := none, history := g.history ++ [r] }, ⟨.idle, some r⟩)
    | _, _ => none

/-- A queue just constructed, and threads that have not called it yet. -/
def initial : Config T (Shared T V) (Thread V) where
  shared := ⟨none, [], .empty, []⟩
  locals := fun _ => ⟨.idle, none⟩

/-! ### What a step can do -/

/-- The steps of the code, one case per branch. -/
inductive Step (t : T) (g : Shared T V) (l : Thread V) :
    Choice T V → Shared T V → Thread V → Prop
  | call {f : Call V} : l.point = .idle →
      Step t g l (.call f) g { l with point := f.entry, result := none }
  | locks {p : Point V} : (∃ v, l.point = .pushLock v ∧ p = .pushContainer v) ∨
        (∃ o, l.point = .tryLock o ∧ p = .tryTest o) ∨
        (∃ o, l.point = .waitLock o ∧ p = .waitTest o) →
      g.queueMut = none → Step t g l .run { g with queueMut := some t } (l.goto p)
  | pushes {v : V} : l.point = .pushContainer v →
      Step t g l .run { g with dataQueue := g.dataQueue ++ [v] } (l.goto (.pushNotify v))
  | pushThrows {v : V} : l.point = .pushContainer v →
      Step t g l .throws g (l.goto (.unlock .threw))
  | notifies {v : V} {u : T} : l.point = .pushNotify v → u ∈ g.dataCond.asleep →
      Step t g l (.notify (some u)) { g with dataCond := g.dataCond.wake u }
        (l.goto (.unlock (.pushed v)))
  | notifiesNobody {v : V} : l.point = .pushNotify v → g.dataCond.asleep = ∅ →
      Step t g l (.notify none) g (l.goto (.unlock (.pushed v)))
  | tryFindsEmpty {o : Overload} : l.point = .tryTest o → g.dataQueue = [] →
      Step t g l .run g (l.goto (.unlock (.failed o)))
  | tryFindsValue {o : Overload} : l.point = .tryTest o → g.dataQueue ≠ [] →
      Step t g l .run g (l.goto (.tryCopy o))
  | waitFindsEmpty {o : Overload} : l.point = .waitTest o → g.dataQueue = [] →
      Step t g l .run g (l.goto (.waitSleep o))
  | waitFindsValue {o : Overload} : l.point = .waitTest o → g.dataQueue ≠ [] →
      Step t g l .run g (l.goto (.waitCopy o))
  | sleeps {o : Overload} : l.point = .waitSleep o →
      Step t g l .run { g with queueMut := none, dataCond := g.dataCond.sleep t }
        (l.goto (.waiting o))
  | wakesSpuriously {o : Overload} : l.point = .waiting o → t ∈ g.dataCond.asleep →
      Step t g l .spurious { g with dataCond := g.dataCond.wake t } l
  | relocks {o : Overload} : l.point = .waiting o → t ∈ g.dataCond.woken → g.queueMut = none →
      Step t g l .run { g with dataCond := g.dataCond.leave t, queueMut := some t }
        (l.goto (.waitTest o))
  | copies {o : Overload} {v : V} {rest : List V} :
      l.point = .tryCopy o ∨ l.point = .waitCopy o → g.dataQueue = v :: rest →
      Step t g l .run g (l.goto (.popContainer o v))
  | tryCopyThrows {o : Overload} : l.point = .tryCopy o →
      Step t g l .throws g (l.goto (.unlock .threw))
  | waitCopyThrows {o : Overload} : l.point = .waitCopy o →
      Step t g l .throws g (l.goto (.unlock .threw))
  | pops {o : Overload} {v w : V} {rest : List V} : l.point = .popContainer o v →
      g.dataQueue = w :: rest →
      Step t g l .run { g with dataQueue := rest } (l.goto (.unlock (.popped o v)))
  | unlocks {r : Result V} : l.point = .unlock r →
      Step t g l .run { g with queueMut := none, history := g.history ++ [r] } ⟨.idle, some r⟩
  | undefined :
      (∃ o, l.point = .tryCopy o ∨ l.point = .waitCopy o ∨ ∃ v, l.point = .popContainer o v) →
      g.dataQueue = [] → Step t g l .run g (l.goto .undefined)

omit [DecidableEq T] in
theorem lockMut_eq_some {t : T} {g : Shared T V} {l : Thread V} {p : Point V}
    {r : Shared T V × Thread V} :
    lockMut t g l p = some r ↔
      g.queueMut = none ∧ r = ({ g with queueMut := some t }, l.goto p) := by
  unfold lockMut
  split
  · rename_i h
    simp [h, eq_comm]
  · rename_i h
    simp [h]

theorem copyFront_cases {t : T} {g g' : Shared T V} {l l' : Thread V} {o : Overload}
    (hp : l.point = .tryCopy o ∨ l.point = .waitCopy o) (h : copyFront g l o = (g', l')) :
    Step t g l .run g' l' := by
  unfold copyFront at h
  split at h
  · cases h
    exact .undefined ⟨o, hp.imp_right .inl⟩ ‹_›
  · cases h
    exact .copies hp ‹_›

/-- **Inversion.**  Every step of the code is one of the cases of `Step`. -/
theorem step_of_program {t : T} {c : Choice T V} {g g' : Shared T V} {l l' : Thread V}
    (h : program t c g l = some (g', l')) : Step t g l c g' l' := by
  cases hp : l.point with
  | idle =>
    cases c <;> simp only [program, hp, reduceCtorEq] at h
    cases h
    exact .call hp
  | pushLock v =>
    cases c <;> simp only [program, hp, reduceCtorEq] at h
    obtain ⟨hfree, hr⟩ := lockMut_eq_some.mp h
    cases hr
    exact .locks (.inl ⟨v, hp, rfl⟩) hfree
  | pushContainer v =>
    cases c <;> simp only [program, hp, reduceCtorEq] at h
    · cases h
      exact .pushes hp
    · cases h
      exact .pushThrows hp
  | pushNotify v =>
    cases c with
    | notify sleeper =>
      cases sleeper with
      | none =>
        simp only [program, hp, Option.ite_none_right_eq_some] at h
        obtain ⟨hnone, hr⟩ := h
        cases hr
        exact .notifiesNobody hp hnone
      | some u =>
        simp only [program, hp, Option.ite_none_right_eq_some] at h
        obtain ⟨hu, hr⟩ := h
        cases hr
        exact .notifies hp hu
    | _ => simp only [program, hp, reduceCtorEq] at h
  | tryLock o =>
    cases c <;> simp only [program, hp, reduceCtorEq] at h
    obtain ⟨hfree, hr⟩ := lockMut_eq_some.mp h
    cases hr
    exact .locks (.inr (.inl ⟨o, hp, rfl⟩)) hfree
  | tryTest o =>
    cases c <;> simp only [program, hp, reduceCtorEq] at h
    split at h
    · cases h
      exact .tryFindsEmpty hp (List.isEmpty_iff.mp ‹_›)
    · cases h
      exact .tryFindsValue hp (fun he => ‹¬ _› (List.isEmpty_iff.mpr he))
  | tryCopy o =>
    cases c <;> simp only [program, hp, reduceCtorEq] at h
    · rw [Option.some.injEq] at h
      exact copyFront_cases (.inl hp) h
    · cases h
      exact .tryCopyThrows hp
  | waitLock o =>
    cases c <;> simp only [program, hp, reduceCtorEq] at h
    obtain ⟨hfree, hr⟩ := lockMut_eq_some.mp h
    cases hr
    exact .locks (.inr (.inr ⟨o, hp, rfl⟩)) hfree
  | waitTest o =>
    cases c <;> simp only [program, hp, reduceCtorEq] at h
    split at h
    · cases h
      exact .waitFindsEmpty hp (List.isEmpty_iff.mp ‹_›)
    · cases h
      exact .waitFindsValue hp (fun he => ‹¬ _› (List.isEmpty_iff.mpr he))
  | waitSleep o =>
    cases c <;> simp only [program, hp, reduceCtorEq] at h
    cases h
    exact .sleeps hp
  | waiting o =>
    cases c <;> simp only [program, hp, reduceCtorEq, Option.ite_none_right_eq_some] at h
    · obtain ⟨hw, hl⟩ := h
      obtain ⟨hfree, hr⟩ := lockMut_eq_some.mp hl
      cases hr
      exact .relocks hp hw hfree
    · obtain ⟨ha, hr⟩ := h
      cases hr
      exact .wakesSpuriously hp ha
  | waitCopy o =>
    cases c <;> simp only [program, hp, reduceCtorEq] at h
    · rw [Option.some.injEq] at h
      exact copyFront_cases (.inr hp) h
    · cases h
      exact .waitCopyThrows hp
  | popContainer o v =>
    cases c <;> simp only [program, hp, reduceCtorEq] at h
    split at h
    · cases h
      exact .undefined ⟨o, .inr (.inr ⟨v, hp⟩)⟩ ‹_›
    · cases h
      exact .pops hp ‹_›
  | unlock r =>
    cases c <;> simp only [program, hp, reduceCtorEq] at h
    cases h
    exact .unlocks hp
  | undefined => cases c <;> simp only [program, hp, reduceCtorEq] at h

end Code

end ConcurrencyInAction.ThreadsafeQueue
