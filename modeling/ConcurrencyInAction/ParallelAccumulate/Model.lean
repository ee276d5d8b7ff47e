import ConcurrencyInAction.Lib.Interleaving

/-!
# `parallel_accumulate`: the code, step by step

The calling thread computes how many threads to use and how long their blocks are, in `unsigned
long` arithmetic; constructs the workers one after the other; accumulates the last block itself;
joins the workers; and folds their results.  Every element is added in a step of its own, so the
workers and the calling thread interleave in any order.

* The calling thread is `none`, the thread of `threads[i]` is `some i`.
* A `std::thread` object is empty, joinable (with the arguments of its function, and whether the
  function has ended) or joined (`Handle`).
* The construction of a thread may fail, and `+` may throw; the vector of threads is then destroyed
  with the function's other locals.  Destroying a joinable thread terminates the program, and so
  does an exception that leaves a worker's function.
* Access past the end of the sequence or of `results` is undefined (`Point.undefined`).
-/

namespace ConcurrencyInAction.ParallelAccumulate

open Interleaving

variable {α : Type*}

/-- The arguments, and the value of `std::thread::hardware_concurrency()`. -/
structure Args (α : Type*) where
  sequence : List α
  init : α
  hardwareConcurrency : UInt32

/-! ### The constants of the function -/

namespace Args

variable (a : Args α)

/-- `std::distance(first, last)` as an `unsigned long`. -/
def length : UInt64 := UInt64.ofNat a.sequence.length

def minPerThread : UInt64 := 25

def maxThreads : UInt64 := (a.length + minPerThread - 1) / minPerThread

def hardwareThreads : UInt64 := a.hardwareConcurrency.toUInt64

/-- `std::min`. -/
def stdMin (x y : UInt64) : UInt64 := if y < x then y else x

def numThreads : UInt64 :=
  stdMin (if a.hardwareThreads ≠ 0 then a.hardwareThreads else 2) a.maxThreads

def blockSize : UInt64 := a.length / a.numThreads

end Args

/-! ### The state -/

/-- A `std::thread` object. -/
inductive Handle where
  | empty
  | joinable (blockStart blockEnd : ℕ) (exited : Bool)
  | joined
  deriving DecidableEq

/-- `joinable()`. -/
def Handle.isJoinable : Handle → Bool
  | .joinable _ _ _ => true
  | _ => false

/-- The thread's function has ended. -/
def Handle.exit : Handle → Handle
  | .joinable blockStart blockEnd _ => .joinable blockStart blockEnd true
  | h => h

/-- The two vectors, and whether `std::terminate` has been called. -/
structure Shared (α : Type*) where
  results : List α
  threads : List Handle
  terminated : Bool

/-- Where a thread is.  `enterBlock` and `accumulate` are the steps of `accumulate_block`, run by
the workers and by the calling thread. -/
inductive Point (α : Type*) where
  | notStarted
  | enterBlock (first last slot : ℕ)
  | accumulate (it last slot : ℕ) (acc : α)
  | exit
  | exited
  | loop (i : UInt64) (blockStart : ℕ)
  | construct (i : UInt64) (blockStart blockEnd : ℕ)
  | join (entry : ℕ)
  | fold
  | destroy (result : Option α)
  | returned (value : α)
  | thrown
  | undefined
  deriving DecidableEq

/-- A step runs as it should, or fails: a construction of a thread fails, or `+` throws. -/
inductive Choice where
  | run
  | fault
  deriving DecidableEq

section Code

variable [Add α] [Zero α]

/-- The steps of the calling thread and of the workers. -/
def program (a : Args α) : Program (Option ℕ) Choice (Shared α) (Point α) :=
  fun t c g p =>
    if g.terminated then none else
    match t, p, c with
    -- the workers
    | some i, .notStarted, .run =>
        match g.threads[i]? with
        | some (.joinable first last false) => some (g, .enterBlock first last i)
        | _ => none
    | some i, .exit, .run => some ({ g with threads := g.threads.modify i Handle.exit }, .exited)
    | some _, .accumulate _ _ _ _, .fault => some ({ g with terminated := true }, p)
    -- `accumulate_block`
    | _, .enterBlock first last slot, .run =>
        match g.results[slot]? with
        | some result => some (g, .accumulate first last slot result)
        | none => some (g, .undefined)
    | t, .accumulate it last slot acc, .run =>
        if it = last then
          some ({ g with results := g.results.set slot acc }, if t = none then .join 0 else .exit)
        else
          match a.sequence[it]? with
          | some x => some (g, .accumulate (it + 1) last slot (acc + x))
          | none => some (g, .undefined)
    -- the calling thread
    | none, .loop i blockStart, .run =>
        if i < a.numThreads - 1 then
          some (g, .construct i blockStart (blockStart + a.blockSize.toNat))
        else some (g, .enterBlock blockStart a.sequence.length (a.numThreads - 1).toNat)
    | none, .construct i blockStart blockEnd, .run =>
        some ({ g with threads := g.threads.set i.toNat (.joinable blockStart blockEnd false) },
          .loop (i + 1) blockEnd)
    | none, .construct _ _ _, .fault => some (g, .destroy none)
    | none, .accumulate _ _ _ _, .fault => some (g, .destroy none)
    | none, .join entry, .run =>
        match g.threads[entry]? with
        | none => some (g, .fold)
        | some (.joinable _ _ false) => none
        | some (.joinable _ _ true) =>
            some ({ g with threads := g.threads.set entry .joined }, .join (entry + 1))
        | some _ => some (g, .destroy none)
    | none, .fold, .run => some (g, .destroy (some (g.results.foldl (· + ·) a.init)))
    | none, .fold, .fault => some (g, .destroy none)
    | none, .destroy result, .run =>
        if g.threads.any Handle.isJoinable then some ({ g with terminated := true }, p)
        else
          match result with
          | some value => some (g, .returned value)
          | none => some (g, .thrown)
    | _, _, _ => none

/-- The calling thread at the loop, with both vectors constructed and no worker; on the empty
sequence it has returned `init`. -/
def initial (a : Args α) : Config (Option ℕ) (Shared α) (Point α) :=
  if a.length = 0 then
    { shared := ⟨[], [], false⟩
      locals := fun t => if t = none then .returned a.init else .notStarted }
  else
    { shared := ⟨.replicate a.numThreads.toNat 0, .replicate (a.numThreads - 1).toNat .empty, false⟩
      locals := fun t => if t = none then .loop 0 0 else .notStarted }

/-- The step does not fail. -/
def noFault (_ : Config (Option ℕ) (Shared α) (Point α)) (_ : Option ℕ) (c : Choice) : Prop :=
  c = .run

/-! ### What a step can do -/

/-- The steps of the code, one case per branch. -/
inductive Step (a : Args α) (g : Shared α) :
    Option ℕ → Choice → Point α → Shared α → Point α → Prop
  | starts {i first last : ℕ} : g.threads[i]? = some (.joinable first last false) →
      Step a g (some i) .run .notStarted g (.enterBlock first last i)
  | exits {i : ℕ} :
      Step a g (some i) .run .exit { g with threads := g.threads.modify i Handle.exit } .exited
  | workerThrows {i it last slot : ℕ} {acc : α} : Step a g (some i) .fault
      (.accumulate it last slot acc) { g with terminated := true } (.accumulate it last slot acc)
  | enters {t : Option ℕ} {first last slot : ℕ} {result : α} : g.results[slot]? = some result →
      Step a g t .run (.enterBlock first last slot) g (.accumulate first last slot result)
  | adds {t : Option ℕ} {it last slot : ℕ} {acc x : α} : it ≠ last → a.sequence[it]? = some x →
      Step a g t .run (.accumulate it last slot acc) g (.accumulate (it + 1) last slot (acc + x))
  | stores {t : Option ℕ} {last slot : ℕ} {acc : α} : Step a g t .run
      (.accumulate last last slot acc) { g with results := g.results.set slot acc }
      (if t = none then .join 0 else .exit)
  | undefinedSlot {t : Option ℕ} {first last slot : ℕ} : g.results[slot]? = none →
      Step a g t .run (.enterBlock first last slot) g .undefined
  | undefinedElement {t : Option ℕ} {it last slot : ℕ} {acc : α} : it ≠ last →
      a.sequence[it]? = none → Step a g t .run (.accumulate it last slot acc) g .undefined
  | loops {i : UInt64} {blockStart : ℕ} : i < a.numThreads - 1 →
      Step a g none .run (.loop i blockStart) g
        (.construct i blockStart (blockStart + a.blockSize.toNat))
  | leavesLoop {i : UInt64} {blockStart : ℕ} : ¬ i < a.numThreads - 1 →
      Step a g none .run (.loop i blockStart) g
        (.enterBlock blockStart a.sequence.length (a.numThreads - 1).toNat)
  | constructs {i : UInt64} {blockStart blockEnd : ℕ} :
      Step a g none .run (.construct i blockStart blockEnd)
        { g with threads := g.threads.set i.toNat (.joinable blockStart blockEnd false) }
        (.loop (i + 1) blockEnd)
  | throws {p : Point α} : Step a g none .fault p g (.destroy none)
  | joins {entry first last : ℕ} : g.threads[entry]? = some (.joinable first last true) →
      Step a g none .run (.join entry) { g with threads := g.threads.set entry .joined }
        (.join (entry + 1))
  | joinThrows {entry : ℕ} {h : Handle} : g.threads[entry]? = some h → h.isJoinable = false →
      Step a g none .run (.join entry) g (.destroy none)
  | joinsAll {entry : ℕ} : g.threads[entry]? = none → Step a g none .run (.join entry) g .fold
  | folds : Step a g none .run .fold g (.destroy (some (g.results.foldl (· + ·) a.init)))
  | terminates {result : Option α} : g.threads.any Handle.isJoinable = true →
      Step a g none .run (.destroy result) { g with terminated := true } (.destroy result)
  | returns {value : α} : Step a g none .run (.destroy (some value)) g (.returned value)
  | leaves : Step a g none .run (.destroy none) g .thrown

omit [Zero α] in
/-- **Inversion.**  Every step of the code is one of the cases of `Step`. -/
theorem step_of_program {a : Args α} {t : Option ℕ} {c : Choice} {g g' : Shared α} {p p' : Point α}
    (h : program a t c g p = some (g', p')) : Step a g t c p g' p' := by
  unfold program at h
  split at h
  · exact nomatch h
  split at h
  · split at h
    · cases h
      exact .starts ‹_›
    · exact nomatch h
  · cases h
    exact .exits
  · cases h
    exact .workerThrows
  · split at h
    · cases h
      exact .enters ‹_›
    · cases h
      exact .undefinedSlot ‹_›
  · split at h
    · rename_i he
      subst he
      cases h
      exact .stores
    · split at h
      · cases h
        exact .adds ‹_› ‹_›
      · cases h
        exact .undefinedElement ‹_› ‹_›
  · split at h
    · cases h
      exact .loops ‹_›
    · cases h
      exact .leavesLoop ‹_›
  · cases h
    exact .constructs
  · cases h
    exact .throws
  · cases h
    exact .throws
  · split at h
    · cases h
      exact .joinsAll ‹_›
    · exact nomatch h
    · cases h
      exact .joins ‹_›
    · rename_i hd hrunning hexited hj
      cases h
      refine .joinThrows hj ?_
      cases hd with
      | joinable first last exited =>
        cases exited
        · exact (hrunning first last rfl).elim
        · exact (hexited first last rfl).elim
      | _ => rfl
  · cases h
    exact .folds
  · cases h
    exact .throws
  · split at h
    · cases h
      exact .terminates ‹_›
    · split at h
      · cases h
        exact .returns
      · cases h
        exact .leaves
  · exact nomatch h

end Code

/-! ### The vector of threads -/

/-- A thread of the vector after one has been replaced. -/
theorem getElem?_set_cases {threads : List Handle} {i j : ℕ} {h h' : Handle}
    (hj : (threads.set i h)[j]? = some h') : j = i ∧ h' = h ∨ j ≠ i ∧ threads[j]? = some h' := by
  by_cases hij : i = j
  · subst hij
    obtain ⟨hlt, -⟩ := List.getElem?_eq_some_iff.mp hj
    rw [List.length_set] at hlt
    rw [List.getElem?_set_self hlt] at hj
    exact .inl ⟨rfl, (Option.some.inj hj).symm⟩
  · rw [List.getElem?_set_ne hij] at hj
    exact .inr ⟨fun he => hij he.symm, hj⟩

/-- A thread of the vector after the function of one has ended. -/
theorem getElem?_exit_cases {threads : List Handle} {i j : ℕ} {h' : Handle}
    (hj : (threads.modify i Handle.exit)[j]? = some h') :
    ∃ h, threads[j]? = some h ∧ (h' = h ∨ h' = h.exit) := by
  by_cases hij : i = j
  · subst hij
    rw [List.getElem?_modify_eq] at hj
    obtain ⟨h, hold, rfl⟩ := Option.map_eq_some_iff.mp hj
    exact ⟨h, hold, .inr rfl⟩
  · rw [List.getElem?_modify_ne _ _ hij] at hj
    exact ⟨h', hj, .inl rfl⟩

/-- What holds of the blocks of all joinable threads still does when the function of one has
ended. -/
theorem forall_joinable_exit (P : ℕ → ℕ → ℕ → Prop) {threads : List Handle}
    (h : ∀ (j : ℕ) first last exited, threads[j]? = some (.joinable first last exited) →
      P j first last) (i j : ℕ) (first last : ℕ) (exited : Bool)
    (hj : (threads.modify i Handle.exit)[j]? = some (.joinable first last exited)) :
    P j first last := by
  obtain ⟨hd, hold, rfl | hexit⟩ := getElem?_exit_cases hj
  · exact h j first last exited hold
  · cases hd with
    | joinable first' last' exited' =>
      cases hexit
      exact h j first last exited' hold
    | empty | joined => exact nomatch hexit

/-- What holds of the blocks of all joinable threads still does when one has been replaced, if it
holds of the new one. -/
theorem forall_joinable_set (P : ℕ → ℕ → ℕ → Prop) {threads : List Handle} {i : ℕ} {hd : Handle}
    (h : ∀ (j : ℕ) first last exited, threads[j]? = some (.joinable first last exited) →
      P j first last)
    (hnew : ∀ first last exited, hd = .joinable first last exited → P i first last)
    (j : ℕ) (first last : ℕ) (exited : Bool)
    (hj : (threads.set i hd)[j]? = some (.joinable first last exited)) : P j first last := by
  rcases getElem?_set_cases hj with ⟨rfl, he⟩ | ⟨-, hold⟩
  · exact hnew first last exited he.symm
  · exact h j first last exited hold

end ConcurrencyInAction.ParallelAccumulate
