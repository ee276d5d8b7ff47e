import ConcurrencyInAction.ThreadsafeQueue.Model

/-!
# The threads around `safe_queue`: the code, step by step

`data_preparation_thread` and `data_processing_thread`, any number of each, with every step of
`push` and `wait_and_pop(T&)` on the queue that they share.

* `more_data_to_prepare` and `prepare_data` may return anything (`Choice`);
* an exception out of `push` or `wait_and_pop` leaves the function (`Point.threw`).

`prepared` and `processed` are history variables of a thread: the chunks that `prepare_data` has
returned to it, and those with which it has called `process`.  `returned` is one of the queue: the
calls that have ended, in the order in which they gave `mut` up.
-/

namespace ConcurrencyInAction.Pipeline

open Interleaving

variable {T V : Type*}

/-- The functions that the threads run. -/
inductive Role where
  | dataPreparationThread
  | dataProcessingThread
  deriving DecidableEq

/-- Where a thread is: at a condition or a call of its function, inside `push` or `wait_and_pop`, or
outside, by its end or by an exception. -/
inductive Point (V : Type*) where
  | moreDataToPrepare
  | prepareData
  | push (data : V)
  | ended
  | waitAndPop
  | popping
  | process (data : V)
  | threw
  deriving DecidableEq

/-- A thread, with its calls of the queue. -/
structure Thread (V : Type*) where
  point : Point V
  call : ThreadsafeQueue.Thread V
  prepared : List V
  processed : List V

structure Shared (T V : Type*) where
  safeQueue : ThreadsafeQueue.Shared T V
  returned : List (T × ThreadsafeQueue.Result V)

/-- What the code does not decide: what the functions on data return, and the choices inside the
queue. -/
inductive Choice (T V : Type*) where
  | moreDataToPrepare (more : Bool)
  | prepareData (data : V)
  | queue (c : ThreadsafeQueue.Choice T V)
  | run
  deriving DecidableEq

def Thread.goto (l : Thread V) (p : Point V) : Thread V := { l with point := p }

/-- The thread calls a member function of the queue. -/
def Thread.enter (l : Thread V) (p : Point V) (f : ThreadsafeQueue.Call V) : Thread V :=
  { l with point := p, call := ⟨f.entry, none⟩ }

/-- A call that has ended with the result `r`. -/
def Shared.add (g : Shared T V) (t : T) (l : ThreadsafeQueue.Thread V) :
    List (T × ThreadsafeQueue.Result V) :=
  match l.point, l.result with
  | .idle, some r => g.returned ++ [(t, r)]
  | _, _ => g.returned

/-- What comes after `push`. -/
def afterPush : Option (ThreadsafeQueue.Result V) → Point V
  | some (.pushed _) => .moreDataToPrepare
  | _ => .threw

/-- What comes after `wait_and_pop`. -/
def afterPop : Option (ThreadsafeQueue.Result V) → Point V
  | some (.popped _ v) => .process v
  | _ => .threw

section Code

variable [DecidableEq T]

/-- A step inside a member function of the queue. -/
def inQueue (t : T) (c : ThreadsafeQueue.Choice T V) (g : Shared T V) (l : Thread V) :
    Option (Shared T V × Thread V) :=
  (ThreadsafeQueue.program t c g.safeQueue l.call).map fun r =>
    (⟨r.1, g.add t r.2⟩, { l with call := r.2 })

/-- A thread inside a call of the queue, or back from it; `next` is where it goes then. -/
def calling (next : Option (ThreadsafeQueue.Result V) → Point V) (t : T) (c : Choice T V)
    (g : Shared T V) (l : Thread V) : Option (Shared T V × Thread V) :=
  match l.call.point, c with
  | .idle, .run => some (g, l.goto (next l.call.result))
  | .idle, _ => none
  | _, .queue d => inQueue t d g l
  | _, _ => none

/-- The statements of the two functions. -/
def program : Program T (Choice T V) (Shared T V) (Thread V) := fun t c g l =>
  match l.point, c with
  | .moreDataToPrepare, .moreDataToPrepare more =>
      some (g, l.goto (if more then .prepareData else .ended))
  | .prepareData, .prepareData data =>
      some (g, { l.enter (.push data) (.push data) with prepared := l.prepared ++ [data] })
  | .push _, c => calling afterPush t c g l
  | .waitAndPop, .run => some (g, l.enter .popping (.waitAndPop .byReference))
  | .popping, c => calling afterPop t c g l
  | .process data, .run =>
      some (g, { l with point := .waitAndPop, processed := l.processed ++ [data] })
  | _, _ => none

end Code

/-- The first statement of the function. -/
def Role.entry : Role → Point V
  | .dataPreparationThread => .moreDataToPrepare
  | .dataProcessingThread => .waitAndPop

/-- `safe_queue` has just been constructed, and the threads are at the start of their functions. -/
def initial (role : T → Role) : Config T (Shared T V) (Thread V) where
  shared := ⟨ThreadsafeQueue.initial.shared, []⟩
  locals t := ⟨(role t).entry, ⟨.idle, none⟩, [], []⟩

/-! ### What a step can do -/

/-- The steps of the code. -/
inductive Step [DecidableEq T] (t : T) (g : Shared T V) (l : Thread V) :
    Choice T V → Shared T V → Thread V → Prop
  | moreData : l.point = .moreDataToPrepare →
      Step t g l (.moreDataToPrepare true) g (l.goto .prepareData)
  | noMoreData : l.point = .moreDataToPrepare →
      Step t g l (.moreDataToPrepare false) g (l.goto .ended)
  | prepares (data : V) : l.point = .prepareData →
      Step t g l (.prepareData data) g
        { l.enter (.push data) (.push data) with prepared := l.prepared ++ [data] }
  | callsPop : l.point = .waitAndPop →
      Step t g l .run g (l.enter .popping (.waitAndPop .byReference))
  | queue {d : ThreadsafeQueue.Choice T V} {h : ThreadsafeQueue.Shared T V}
      {k : ThreadsafeQueue.Thread V} : (∃ data, l.point = .push data) ∨ l.point = .popping →
      l.call.point ≠ .idle → ThreadsafeQueue.program t d g.safeQueue l.call = some (h, k) →
      Step t g l (.queue d) ⟨h, g.add t k⟩ { l with call := k }
  | pushReturns {data : V} : l.point = .push data → l.call.point = .idle →
      Step t g l .run g (l.goto (afterPush l.call.result))
  | popReturns : l.point = .popping → l.call.point = .idle →
      Step t g l .run g (l.goto (afterPop l.call.result))
  | processes (data : V) : l.point = .process data →
      Step t g l .run g { l with point := .waitAndPop, processed := l.processed ++ [data] }

section Inversion

variable [DecidableEq T] {t : T} {c : Choice T V} {g g' : Shared T V} {l l' : Thread V}

/-- A thread at a call is inside it, or it comes back from it. -/
theorem calling_eq_some {next : Option (ThreadsafeQueue.Result V) → Point V}
    (h : calling next t c g l = some (g', l')) :
    (l.call.point = .idle ∧ c = .run ∧ g' = g ∧ l' = l.goto (next l.call.result)) ∨
      l.call.point ≠ .idle ∧ ∃ d r, c = .queue d ∧
        ThreadsafeQueue.program t d g.safeQueue l.call = some r ∧
        g' = ⟨r.1, g.add t r.2⟩ ∧ l' = { l with call := r.2 } := by
  unfold calling at h
  split at h
  · rename_i hidle
    cases h
    exact .inl ⟨hidle, rfl, rfl, rfl⟩
  · cases h
  · rename_i hidle
    obtain ⟨r, hr, hpair⟩ := Option.map_eq_some_iff.mp h
    cases hpair
    exact .inr ⟨hidle, _, r, rfl, hr, rfl, rfl⟩
  · cases h

/-- **Inversion.** -/
theorem step_of_program (h : program t c g l = some (g', l')) : Step t g l c g' l' := by
  cases hp : l.point with
  | moreDataToPrepare =>
    cases c <;> simp only [program, hp, reduceCtorEq] at h
    rename_i more
    cases h
    cases more with
    | true => exact .moreData hp
    | false => exact .noMoreData hp
  | prepareData =>
    cases c <;> simp only [program, hp, reduceCtorEq] at h
    cases h
    exact .prepares _ hp
  | push data =>
    simp only [program, hp] at h
    rcases calling_eq_some h with ⟨hidle, rfl, rfl, rfl⟩ | ⟨hidle, d, r, rfl, hr, rfl, rfl⟩
    · exact .pushReturns hp hidle
    · exact .queue (.inl ⟨data, hp⟩) hidle hr
  | waitAndPop =>
    cases c <;> simp only [program, hp, reduceCtorEq] at h
    cases h
    exact .callsPop hp
  | popping =>
    simp only [program, hp] at h
    rcases calling_eq_some h with ⟨hidle, rfl, rfl, rfl⟩ | ⟨hidle, d, r, rfl, hr, rfl, rfl⟩
    · exact .popReturns hp hidle
    · exact .queue (.inr hp) hidle hr
  | process data =>
    cases c <;> simp only [program, hp, reduceCtorEq] at h
    cases h
    exact .processes data hp
  | ended | threw => cases c <;> simp only [program, hp, reduceCtorEq] at h

/-- A call whose thread the queue lets go on can go on. -/
theorem calling_of_queue {next : Option (ThreadsafeQueue.Result V) → Point V}
    {d : ThreadsafeQueue.Choice T V} {r : ThreadsafeQueue.Shared T V × ThreadsafeQueue.Thread V}
    (hidle : l.call.point ≠ .idle)
    (h : ThreadsafeQueue.program t d g.safeQueue l.call = some r) :
    calling next t (.queue d) g l = some (⟨r.1, g.add t r.2⟩, { l with call := r.2 }) := by
  unfold calling
  split
  · exact absurd ‹_› hidle
  · exact absurd ‹_› hidle
  · rename_i heq _
    cases heq
    rw [inQueue, h]
    rfl
  · rename_i hno _
    exact absurd rfl (hno d)

end Inversion

end ConcurrencyInAction.Pipeline
