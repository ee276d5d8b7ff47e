import ConcurrencyInAction.Lib.ConditionVariable
import ConcurrencyInAction.Lib.Interleaving
import ConcurrencyInAction.Lib.Mutex

/-!
# Waiting for an event: the code, step by step

`data_preparation_thread` and `data_processing_thread` as they are written out around `mut`,
`data_queue` and `data_cond`, any number of each.

* The preparation thread notifies after it has given up `mut`, so that others may run in between.
* Going to sleep gives up `mut` in the same step; a woken thread takes it again and tests again.
* A processing thread leaves its loop after a chunk that `is_last_chunk` accepts.
* `front()` and `pop()` on an empty queue are undefined (`Point.undefined`).

Nothing throws.  `pushed` and `popped` are history variables: the chunks in the order in which they
have been put into the queue and taken out of it, with the thread that took them; `processed` is one
of a thread.
-/

namespace ConcurrencyInAction.WaitingForAnEvent

open Interleaving ExclusiveLock

variable {T V : Type*}

/-- The functions that the threads run. -/
inductive Role where
  | dataPreparationThread
  | dataProcessingThread
  deriving DecidableEq

/-- The step that a thread is about to take. -/
inductive Point (V : Type*) where
  | moreDataToPrepare
  | prepareData
  | pushLock (data : V)
  | push (data : V)
  | pushUnlock
  | notifyOne
  | prepared
  | popLock
  | waitTest
  | waitSleep
  | waiting
  | front
  | pop (data : V)
  | popUnlock (data : V)
  | process (data : V)
  | isLastChunk (data : V)
  | ended
  | undefined
  deriving DecidableEq

structure Thread (V : Type*) where
  point : Point V
  processed : List V

/-- The globals; `dataMut` is `mut`. -/
structure Shared (T V : Type*) where
  dataMut : Mutex T
  dataQueue : List V
  dataCond : ConditionVariable T
  pushed : List V
  popped : List (T × V)

/-- What the code does not decide. -/
inductive Choice (T V : Type*) where
  | moreDataToPrepare (more : Bool)
  | prepareData (data : V)
  | run
  | notify (sleeper : Option T)
  | spurious
  deriving DecidableEq

def Thread.goto (l : Thread V) (p : Point V) : Thread V := { l with point := p }

section Code

variable [DecidableEq T]

/-- `mut.lock()`. -/
def lockMut (t : T) (g : Shared T V) (l : Thread V) (next : Point V) :
    Option (Shared T V × Thread V) :=
  if g.dataMut = none then some ({ g with dataMut := some t }, l.goto next) else none

/-- The statements of the two functions. -/
def program (lastChunk : V → Bool) : Program T (Choice T V) (Shared T V) (Thread V) :=
  fun t c g l =>
    match l.point, c with
    | .moreDataToPrepare, .moreDataToPrepare more =>
        some (g, l.goto (if more then .prepareData else .prepared))
    | .prepareData, .prepareData data => some (g, l.goto (.pushLock data))
    | .pushLock data, .run => lockMut t g l (.push data)
    | .push data, .run =>
        some ({ g with dataQueue := g.dataQueue ++ [data], pushed := g.pushed ++ [data] },
          l.goto .pushUnlock)
    | .pushUnlock, .run => some ({ g with dataMut := none }, l.goto .notifyOne)
    | .notifyOne, .notify (some u) =>
        if u ∈ g.dataCond.asleep then
          some ({ g with dataCond := g.dataCond.wake u }, l.goto .moreDataToPrepare)
        else none
    | .notifyOne, .notify none =>
        if g.dataCond.asleep = ∅ then some (g, l.goto .moreDataToPrepare) else none
    | .popLock, .run => lockMut t g l .waitTest
    | .waitTest, .run => some (g, l.goto (if g.dataQueue.isEmpty then .waitSleep else .front))
    | .waitSleep, .run =>
        some ({ g with dataMut := none, dataCond := g.dataCond.sleep t }, l.goto .waiting)
    | .waiting, .spurious =>
        if t ∈ g.dataCond.asleep then some ({ g with dataCond := g.dataCond.wake t }, l) else none
    | .waiting, .run =>
        if t ∈ g.dataCond.woken then
          lockMut t { g with dataCond := g.dataCond.leave t } l .waitTest
        else none
    | .front, .run =>
        match g.dataQueue with
        | [] => some (g, l.goto .undefined)
        | data :: _ => some (g, l.goto (.pop data))
    | .pop data, .run =>
        match g.dataQueue with
        | [] => some (g, l.goto .undefined)
        | _ :: rest =>
            some ({ g with dataQueue := rest, popped := g.popped ++ [(t, data)] },
              l.goto (.popUnlock data))
    | .popUnlock data, .run => some ({ g with dataMut := none }, l.goto (.process data))
    | .process data, .run =>
        some (g, { l with point := .isLastChunk data, processed := l.processed ++ [data] })
    | .isLastChunk data, .run => some (g, l.goto (if lastChunk data then .ended else .popLock))
    | _, _ => none

end Code

/-- The first statement of the function. -/
def Role.entry : Role → Point V
  | .dataPreparationThread => .moreDataToPrepare
  | .dataProcessingThread => .popLock

/-- Nothing has happened yet. -/
def initial (role : T → Role) : Config T (Shared T V) (Thread V) where
  shared := ⟨none, [], .empty, [], []⟩
  locals t := ⟨(role t).entry, []⟩

/-! ### What a step can do -/

/-- The steps of the code. -/
inductive Step [DecidableEq T] (lastChunk : V → Bool) (t : T) (g : Shared T V) (l : Thread V) :
    Choice T V → Shared T V → Thread V → Prop
  | moreData : l.point = .moreDataToPrepare →
      Step lastChunk t g l (.moreDataToPrepare true) g (l.goto .prepareData)
  | noMoreData : l.point = .moreDataToPrepare →
      Step lastChunk t g l (.moreDataToPrepare false) g (l.goto .prepared)
  | prepares (data : V) : l.point = .prepareData →
      Step lastChunk t g l (.prepareData data) g (l.goto (.pushLock data))
  | locks {p : Point V} : (∃ data, l.point = .pushLock data ∧ p = .push data) ∨
        (l.point = .popLock ∧ p = .waitTest) →
      g.dataMut = none → Step lastChunk t g l .run { g with dataMut := some t } (l.goto p)
  | pushes (data : V) : l.point = .push data →
      Step lastChunk t g l .run
        { g with dataQueue := g.dataQueue ++ [data], pushed := g.pushed ++ [data] }
        (l.goto .pushUnlock)
  | unlocks {p : Point V} : (l.point = .pushUnlock ∧ p = .notifyOne) ∨
        (∃ data, l.point = .popUnlock data ∧ p = .process data) →
      Step lastChunk t g l .run { g with dataMut := none } (l.goto p)
  | notifies {u : T} : l.point = .notifyOne → u ∈ g.dataCond.asleep →
      Step lastChunk t g l (.notify (some u)) { g with dataCond := g.dataCond.wake u }
        (l.goto .moreDataToPrepare)
  | notifiesNobody : l.point = .notifyOne → g.dataCond.asleep = ∅ →
      Step lastChunk t g l (.notify none) g (l.goto .moreDataToPrepare)
  | findsEmpty : l.point = .waitTest → g.dataQueue = [] →
      Step lastChunk t g l .run g (l.goto .waitSleep)
  | findsChunk : l.point = .waitTest → g.dataQueue ≠ [] →
      Step lastChunk t g l .run g (l.goto .front)
  | sleeps : l.point = .waitSleep →
      Step lastChunk t g l .run { g with dataMut := none, dataCond := g.dataCond.sleep t }
        (l.goto .waiting)
  | wakesSpuriously : l.point = .waiting → t ∈ g.dataCond.asleep →
      Step lastChunk t g l .spurious { g with dataCond := g.dataCond.wake t } l
  | relocks : l.point = .waiting → t ∈ g.dataCond.woken → g.dataMut = none →
      Step lastChunk t g l .run { g with dataCond := g.dataCond.leave t, dataMut := some t }
        (l.goto .waitTest)
  | copies (data : V) (rest : List V) : l.point = .front → g.dataQueue = data :: rest →
      Step lastChunk t g l .run g (l.goto (.pop data))
  | pops (data first : V) (rest : List V) : l.point = .pop data → g.dataQueue = first :: rest →
      Step lastChunk t g l .run { g with dataQueue := rest, popped := g.popped ++ [(t, data)] }
        (l.goto (.popUnlock data))
  | processes (data : V) : l.point = .process data →
      Step lastChunk t g l .run g
        { l with point := .isLastChunk data, processed := l.processed ++ [data] }
  | breaks (data : V) : l.point = .isLastChunk data → lastChunk data = true →
      Step lastChunk t g l .run g (l.goto .ended)
  | goesOn (data : V) : l.point = .isLastChunk data → lastChunk data = false →
      Step lastChunk t g l .run g (l.goto .popLock)
  | undefined : l.point = .front ∨ (∃ data, l.point = .pop data) → g.dataQueue = [] →
      Step lastChunk t g l .run g (l.goto .undefined)

section Inversion

variable [DecidableEq T] {lastChunk : V → Bool} {t : T} {c : Choice T V} {g g' : Shared T V}
  {l l' : Thread V}

omit [DecidableEq T] in
theorem lockMut_eq_some {p : Point V} {r : Shared T V × Thread V} :
    lockMut t g l p = some r ↔ g.dataMut = none ∧ r = ({ g with dataMut := some t }, l.goto p) := by
  rw [lockMut, Option.ite_none_right_eq_some, Option.some.injEq, eq_comm (a := r)]

/-- **Inversion.** -/
theorem step_of_program (h : program lastChunk t c g l = some (g', l')) :
    Step lastChunk t g l c g' l' := by
  cases hp : l.point with
  | moreDataToPrepare =>
    cases c <;> simp only [program, hp, reduceCtorEq] at h
    rename_i more
    cases h
    cases more with
    | true => exact .moreData hp
    | false => exact .noMoreData hp
  | prepareData =>
    cases c <;> simp only [program, hp, reduceCtorEq] at h
    cases h
    exact .prepares _ hp
  | pushLock data =>
    cases c <;> simp only [program, hp, reduceCtorEq] at h
    obtain ⟨hfree, hr⟩ := lockMut_eq_some.mp h
    cases hr
    exact .locks (.inl ⟨data, hp, rfl⟩) hfree
  | push data =>
    cases c <;> simp only [program, hp, reduceCtorEq] at h
    cases h
    exact .pushes data hp
  | pushUnlock =>
    cases c <;> simp only [program, hp, reduceCtorEq] at h
    cases h
    exact .unlocks (.inl ⟨hp, rfl⟩)
  | notifyOne =>
    cases c with
    | notify sleeper =>
      cases sleeper with
      | none =>
        simp only [program, hp, Option.ite_none_right_eq_some] at h
        obtain ⟨hnone, hr⟩ := h
        cases hr
        exact .notifiesNobody hp hnone
      | some u =>
        simp only [program, hp, Option.ite_none_right_eq_some] at h
        obtain ⟨hu, hr⟩ := h
        cases hr
        exact .notifies hp hu
    | _ => simp only [program, hp, reduceCtorEq] at h
  | popLock =>
    cases c <;> simp only [program, hp, reduceCtorEq] at h
    obtain ⟨hfree, hr⟩ := lockMut_eq_some.mp h
    cases hr
    exact .locks (.inr ⟨hp, rfl⟩) hfree
  | waitTest =>
    cases c <;> simp only [program, hp, reduceCtorEq] at h
    cases h
    split
    · exact .findsEmpty hp (List.isEmpty_iff.mp ‹_›)
    · exact .findsChunk hp fun he => ‹¬ _› (List.isEmpty_iff.mpr he)
  | waitSleep =>
    cases c <;> simp only [program, hp, reduceCtorEq] at h
    cases h
    exact .sleeps hp
  | waiting =>
    cases c <;> simp only [program, hp, reduceCtorEq, Option.ite_none_right_eq_some] at h
    · obtain ⟨hw, hl⟩ := h
      obtain ⟨hfree, hr⟩ := lockMut_eq_some.mp hl
      cases hr
      exact .relocks hp hw hfree
    · obtain ⟨ha, hr⟩ := h
      cases hr
      exact .wakesSpuriously hp ha
  | front =>
    cases c <;> simp only [program, hp, reduceCtorEq] at h
    split at h
    · cases h
      exact .undefined (.inl hp) ‹_›
    · cases h
      exact .copies _ _ hp ‹_›
  | pop data =>
    cases c <;> simp only [program, hp, reduceCtorEq] at h
    split at h
    · cases h
      exact .undefined (.inr ⟨data, hp⟩) ‹_›
    · cases h
      exact .pops data _ _ hp ‹_›
  | popUnlock data =>
    cases c <;> simp only [program, hp, reduceCtorEq] at h
    cases h
    exact .unlocks (.inr ⟨data, hp, rfl⟩)
  | process data =>
    cases c <;> simp only [program, hp, reduceCtorEq] at h
    cases h
    exact .processes data hp
  | isLastChunk data =>
    cases c <;> simp only [program, hp, reduceCtorEq] at h
    cases h
    split
    · exact .breaks data hp ‹_›
    · exact .goesOn data hp (Bool.eq_false_iff.mpr ‹_›)
  | prepared | ended | undefined => cases c <;> simp only [program, hp, reduceCtorEq] at h

end Inversion

end ConcurrencyInAction.WaitingForAnEvent
