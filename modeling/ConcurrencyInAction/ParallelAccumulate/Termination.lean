import ConcurrencyInAction.ParallelAccumulate.Refinement
import Mathlib.Algebra.BigOperators.Group.Finset.Basic
import Mathlib.Algebra.Order.BigOperators.Group.Finset
import Mathlib.Algebra.Ring.Nat

/-!
# `parallel_accumulate` returns

* `Faultless`: without faults nothing throws, and the program is not terminated;
* `exists_step`: until the calling thread has returned, some thread can take a step; if the calling
  thread waits for a worker, that worker can;
* `work`: how many steps are left at most; every step decreases it;
* `returns_of_noFault`: a run without faults ends with the value `total`, whatever `+` is;
* `parallel_accumulate_eq_accumulate`: **the function is `std::accumulate`**, in every order of the
  steps.
-/

namespace ConcurrencyInAction.ParallelAccumulate

open Interleaving

variable {α : Type*} [Add α] [Zero α] {a : Args α} {g g' : Shared α} {p p' : Point α} {i : ℕ}
  {s s' : Config (Option ℕ) (Shared α) (Point α)}

/-! ### Runs without faults -/

/-- The calling thread is on its way out by an exception. -/
def Point.Failed : Point α → Prop
  | .destroy none | .thrown => True
  | _ => False

/-- Nothing has failed. -/
structure Faultless (s : Config (Option ℕ) (Shared α) (Point α)) : Prop where
  running : s.shared.terminated = false
  caller : ¬ (s.locals none).Failed

/-- The assertions of all threads, and nothing has failed. -/
structure Invariant (a : Args α) (s : Config (Option ℕ) (Shared α) (Point α)) : Prop where
  shared : SharedAssertion a s.shared
  locals : ∀ t, Assertion a t s.shared (s.locals t)
  faultless : Faultless s

omit [Add α] [Zero α] in
theorem Joined.not_joinable {h : Handle} (hj : Joined a (a.threadCount - 1) g)
    (hlt : i + 1 < a.threadCount) (hi : g.threads[i]? = some h) : h.isJoinable = false := by
  have hjoined := hj.before i (by omega) hlt
  rw [hi] at hjoined
  cases hjoined
  rfl

/-- When all workers are joined, the vector of threads can be destroyed. -/
theorem Joined.any_eq_false (hS : SharedAssertion a g) (hj : Joined a (a.threadCount - 1) g) :
    g.threads.any Handle.isJoinable = false := by
  rw [List.any_eq_false]
  intro h hmem
  obtain ⟨i, hi⟩ := List.mem_iff_getElem?.mp hmem
  rw [hj.not_joinable (lt_of_getElem?_threads hS.threads_length hi) hi]
  exact Bool.false_ne_true

/-- The calling thread fails only by a fault. -/
theorem CallerAssertion.faultless (hS : SharedAssertion a g) (h : CallerAssertion a g p)
    (hp : ¬ p.Failed) (hstep : Step a g none .run p g' p') :
    g'.terminated = g.terminated ∧ ¬ p'.Failed := by
  cases hstep with
  | joinThrows hentry hnot =>
    obtain ⟨-, -, hj⟩ := h
    obtain ⟨first, last, e, he⟩ :=
      hj.after _ (Nat.le_refl _) (lt_of_getElem?_threads hS.threads_length hentry)
    rw [hentry] at he
    cases he
    exact nomatch hnot
  | @terminates result hany =>
    cases result with
    | none => exact absurd trivial hp
    | some value =>
      rw [h.2.any_eq_false hS] at hany
      exact nomatch hany
  | leaves => exact absurd trivial hp
  | stores => exact ⟨rfl, id⟩
  | _ => exact ⟨rfl, id⟩

omit [Zero α] in
theorem WorkerAssertion.faultless (hstep : Step a g (some i) .run p g' p') :
    g'.terminated = g.terminated := by
  cases hstep <;> rfl

variable (hlen : a.sequence.length < 2 ^ 63)

include hlen in
theorem Invariant.step {t : Option ℕ} (h : Invariant a s)
    (hstep : s.step (program a) t .run = some s') : Invariant a s' := by
  obtain ⟨hS, hP⟩ := (relyGuarantee hlen anyStep).keeps ⟨h.shared, h.locals⟩ trivial hstep
  refine ⟨hS, hP, ?_⟩
  obtain ⟨p, hp, hcaller, hworker⟩ := Config.step_focus none hstep
  have hcode := step_of_program hp
  cases t with
  | none =>
    obtain ⟨hterm, hfailed⟩ :=
      CallerAssertion.faultless h.shared (h.locals none) h.faultless.caller hcode
    refine ⟨hterm.trans h.faultless.running, ?_⟩
    rw [hcaller rfl]
    exact hfailed
  | some i =>
    refine ⟨(WorkerAssertion.faultless hcode).trans h.faultless.running, ?_⟩
    rw [hworker (Option.some_ne_none i)]
    exact h.faultless.caller

/-! ### Progress -/

/-- A worker that is constructed and has not ended can take a step. -/
theorem WorkerAssertion.enabled {first last : ℕ} (h : WorkerAssertion a i g p)
    (hterm : g.terminated = false) (hi : g.threads[i]? = some (.joinable first last false)) :
    (program a (some i) .run g p).isSome = true := by
  cases p with
  | notStarted => simp [program, hterm, hi]
  | enterBlock first last slot => cases hr : g.results[slot]? <;> simp [program, hterm, hr]
  | accumulate it last slot acc =>
    by_cases he : it = last
    · simp [program, hterm, he]
    · cases hx : a.sequence[it]? <;> simp [program, hterm, he, hx]
  | exit => simp [program, hterm]
  | exited =>
    obtain ⟨hd, hhd, hex⟩ := h
    rw [hi] at hhd
    cases hhd
    exact hex.elim
  | _ => exact h.elim

/-- The calling thread can take a step, unless it has returned or waits for a worker. -/
theorem CallerAssertion.enabled (h : CallerAssertion a g p) (hterm : g.terminated = false)
    (hp : ¬ p.Failed) (hret : ∀ value, p ≠ .returned value) :
    (program a none .run g p).isSome = true ∨
      ∃ i first last : ℕ, g.threads[i]? = some (.joinable first last false) := by
  cases p with
  | loop i blockStart =>
    by_cases hi : i < a.numThreads - 1 <;> exact .inl (by simp [program, hterm, hi])
  | construct i blockStart blockEnd => exact .inl (by simp [program, hterm])
  | enterBlock first last slot =>
    cases hr : g.results[slot]? <;> exact .inl (by simp [program, hterm, hr])
  | accumulate it last slot acc =>
    by_cases he : it = last
    · exact .inl (by simp [program, hterm, he])
    · cases hx : a.sequence[it]? <;> exact .inl (by simp [program, hterm, he, hx])
  | join entry =>
    cases hentry : g.threads[entry]? with
    | none => exact .inl (by simp [program, hterm, hentry])
    | some hd =>
      cases hd with
      | joinable first last exited =>
        cases exited with
        | false => exact .inr ⟨entry, first, last, hentry⟩
        | true => exact .inl (by simp [program, hterm, hentry])
      | empty | joined => exact .inl (by simp [program, hterm, hentry])
  | fold => exact .inl (by simp [program, hterm])
  | destroy result =>
    cases hany : g.threads.any Handle.isJoinable <;> cases result <;>
      exact .inl (by simp [program, hterm, hany])
  | returned value => exact absurd rfl (hret value)
  | thrown => exact absurd trivial hp
  | _ => exact h.elim

/-- **Progress.**  Until the calling thread has returned, some thread can take a step. -/
theorem Invariant.exists_step (h : Invariant a s)
    (hret : ∀ value, s.locals none ≠ .returned value) :
    ∃ t, (s.step (program a) t .run).isSome = true := by
  have hterm := h.faultless.running
  rcases CallerAssertion.enabled (h.locals none) hterm h.faultless.caller hret with
    hcaller | ⟨i, first, last, hi⟩
  · refine ⟨none, ?_⟩
    rw [Config.step, Option.isSome_map]
    exact hcaller
  · refine ⟨some i, ?_⟩
    rw [Config.step, Option.isSome_map]
    exact WorkerAssertion.enabled (h.locals (some i)) hterm hi

/-! ### The number of steps -/

/-- The steps a worker has left, at most. -/
def workerWork (a : Args α) : Point α → ℕ
  | .notStarted => a.sequence.length + 4
  | .enterBlock first last _ => last - first + 3
  | .accumulate it last _ _ => last - it + 2
  | .exit => 1
  | _ => 0

/-- The steps the calling thread has left, at most. -/
def callerWork (a : Args α) : Point α → ℕ
  | .loop i _ => 2 * (a.threadCount - 1 - i.toNat) + (a.sequence.length + a.threadCount + 6)
  | .construct i _ _ => 2 * (a.threadCount - 1 - i.toNat) + (a.sequence.length + a.threadCount + 5)
  | .enterBlock first last _ => last - first + a.threadCount + 5
  | .accumulate it last _ _ => last - it + a.threadCount + 4
  | .join entry => a.threadCount - 1 - entry + 3
  | .fold => 2
  | .destroy _ => 1
  | _ => 0

/-- The steps all threads have left, at most. -/
def work (a : Args α) (s : Config (Option ℕ) (Shared α) (Point α)) : ℕ :=
  callerWork a (s.locals none) +
    ∑ i ∈ Finset.range (a.threadCount - 1), workerWork a (s.locals (some i))

theorem callerWork_lt (hS : SharedAssertion a g) (h : CallerAssertion a g p) (hp : ¬ p.Failed)
    (hstep : Step a g none .run p g' p') : callerWork a p' < callerWork a p := by
  cases hstep with
  | enters _ | loops _ => simp only [callerWork]; omega
  | adds hne _ =>
    obtain ⟨-, -, -, -, -, -, hle, -⟩ := h
    simp only [callerWork]
    omega
  | stores => simp only [callerWork, if_pos]; omega
  | undefinedSlot _ | undefinedElement _ _ | folds | returns | leaves =>
    simp only [callerWork]
    omega
  | leavesLoop _ => simp only [callerWork]; omega
  | @constructs i blockStart blockEnd =>
    obtain ⟨hlt, -⟩ := h
    have hsucc : (i + 1).toNat = i.toNat + 1 :=
      Args.toNat_succ (n := a.numThreads) (Nat.lt_of_succ_lt hlt)
    simp only [callerWork, hsucc]
    omega
  | joins hentry =>
    have hlt := lt_of_getElem?_threads hS.threads_length hentry
    simp only [callerWork]
    omega
  | joinThrows _ _ | joinsAll _ => simp only [callerWork]; omega
  | @terminates result hany =>
    cases result with
    | none => exact absurd trivial hp
    | some value =>
      rw [h.2.any_eq_false hS] at hany
      exact nomatch hany

include hlen in
theorem workerWork_lt (hS : SharedAssertion a g) (h : WorkerAssertion a i g p)
    (hstep : Step a g (some i) .run p g' p') :
    i < a.threadCount - 1 ∧ workerWork a p' < workerWork a p := by
  cases hstep with
  | starts hi =>
    have hlt := lt_of_getElem?_threads hS.threads_length hi
    obtain ⟨rfl, rfl⟩ := hS.joinable i _ _ false hi
    have hle := Args.blockEnd_le hlen (Nat.lt_of_succ_lt hlt)
    simp only [workerWork]
    omega
  | exits =>
    have hlt := h.1.1
    simp only [workerWork]
    omega
  | adds hne _ =>
    obtain ⟨⟨hlt, -⟩, -, -, -, -, hle, -⟩ := h
    simp only [workerWork]
    omega
  | stores =>
    have hlt := h.1.1
    simp only [workerWork, if_neg (Option.some_ne_none i)]
    omega
  | enters _ | undefinedSlot _ | undefinedElement _ _ =>
    have hlt := h.1.1
    simp only [workerWork]
    omega

include hlen in
/-- **Every step without a fault brings the end closer.** -/
theorem work_lt {t : Option ℕ} (h : Invariant a s) (hstep : s.step (program a) t .run = some s') :
    work a s' < work a s := by
  obtain ⟨g, p, hp, rfl⟩ := Config.step_eq_some.mp hstep
  have hcode := step_of_program hp
  cases t with
  | none =>
    have hlt := callerWork_lt h.shared (h.locals none) h.faultless.caller hcode
    simp only [work, Function.update_self, Function.update_of_ne (Option.some_ne_none _)]
    omega
  | some i =>
    obtain ⟨hi, hlt⟩ := workerWork_lt hlen h.shared (h.locals (some i)) hcode
    have hsum : ∑ j ∈ Finset.range (a.threadCount - 1),
          workerWork a (Function.update s.locals (some i) p (some j)) <
        ∑ j ∈ Finset.range (a.threadCount - 1), workerWork a (s.locals (some j)) := by
      refine Finset.sum_lt_sum (fun j _ => ?_) ⟨i, Finset.mem_range.mpr hi, ?_⟩
      · by_cases hji : j = i
        · subst hji
          rw [Function.update_self]
          exact hlt.le
        · rw [Function.update_of_ne fun he => hji (Option.some.inj he)]
      · rw [Function.update_self]
        exact hlt
    simp only [work, Function.update_of_ne (Option.some_ne_none i).symm]
    omega

/-! ### The function is `std::accumulate` -/

theorem initial_invariant (hlen : a.sequence.length < 2 ^ 63) : Invariant a (initial a) where
  shared := (initial_assertion hlen).1
  locals := (initial_assertion hlen).2
  faultless := by
    unfold initial
    split <;> exact ⟨rfl, id⟩

include hlen in
/-- **The run without faults ends**, whatever `+` is: no run is longer than a fixed number of steps,
and until the calling thread has returned some thread can take a step. -/
theorem returns_of_noFault : ∃ bound, ∀ as s, (initial a).AllSteps (program a) noFault as →
    (initial a).run (program a) as = some s → as.length ≤ bound ∧
      (s.locals none = .returned a.total ∨ ∃ t, (s.step (program a) t .run).isSome) := by
  have hstep : ∀ s t c s', Invariant a s → noFault s t c → s.step (program a) t c = some s' →
      Invariant a s' ∧ work a s' < work a s := by
    intro s t c s' h hc hstep
    obtain rfl : c = .run := hc
    exact ⟨h.step hlen hstep, work_lt hlen h hstep⟩
  refine ⟨work a (initial a), fun as s hall hrun => ?_⟩
  obtain ⟨hinv, hbound⟩ :=
    Config.run_spec (work a) hstep as (initial a) s (initial_invariant hlen) hall hrun
  refine ⟨by omega, ?_⟩
  by_cases hret : ∃ value, s.locals none = .returned value
  · obtain ⟨value, hret⟩ := hret
    have hvalue := hinv.locals none
    rw [hret] at hvalue
    obtain rfl : value = a.total := hvalue
    exact .inl hret
  · exact .inr (hinv.exists_step fun value he => hret ⟨value, he⟩)

/-- **`parallel_accumulate` is `std::accumulate`**, for an associative `+` with left unit `T{}`.
Every value it returns, faults included, is the left fold over the whole sequence from `init`.
Without faults it returns that value in every order of the steps: no run is longer than a fixed
number of steps, and until the calling thread has returned some thread can take a step. -/
theorem parallel_accumulate_eq_accumulate (hassoc : ∀ x y z : α, x + y + z = x + (y + z))
    (hzero : ∀ x : α, 0 + x = x) (a : Args α) (hlen : a.sequence.length < 2 ^ 63) :
    (∀ s, Reachable (program a) anyStep (initial a) s → ∀ value,
      s.locals none = .returned value → value = a.sequence.foldl (· + ·) a.init) ∧
    ∃ bound, ∀ as s, (initial a).AllSteps (program a) noFault as →
      (initial a).run (program a) as = some s → as.length ≤ bound ∧
        (s.locals none = .returned (a.sequence.foldl (· + ·) a.init) ∨
          ∃ t, (s.step (program a) t .run).isSome) := by
  have htotal : a.total = a.sequence.foldl (· + ·) a.init :=
    total_eq_accumulate hassoc hzero hlen
  rw [← htotal]
  refine ⟨fun s hs value hret => ?_, returns_of_noFault hlen⟩
  have h := (reachable_assertion hlen hs).2 none
  rw [hret] at h
  exact h

/-- Sixty numbers on four cores. -/
def threeThreads : Args ℕ := ⟨List.range 60, 7, 4⟩

example : threeThreads.numThreads = 3 ∧ threeThreads.blockSize = 20 := by decide

/-- The calling thread constructs both workers and sums its own block, then the workers take
turns. -/
def blocksRun : List (Option ℕ × Choice) :=
  .replicate 27 (none, .run) ++ (List.replicate 24 [(some 0, .run), (some 1, .run)]).flatten

theorem parallel_accumulate_threeThreads :
    (∀ s, Reachable (program threeThreads) anyStep (initial threeThreads) s → ∀ value,
      s.locals none = .returned value → value = 1777) ∧
    ∃ bound, ∀ as s, (initial threeThreads).AllSteps (program threeThreads) noFault as →
      (initial threeThreads).run (program threeThreads) as = some s → as.length ≤ bound ∧
        (s.locals none = .returned 1777 ∨
          ∃ t, (s.step (program threeThreads) t .run).isSome) :=
  parallel_accumulate_eq_accumulate Nat.add_assoc Nat.zero_add threeThreads (by decide)

end ConcurrencyInAction.ParallelAccumulate
