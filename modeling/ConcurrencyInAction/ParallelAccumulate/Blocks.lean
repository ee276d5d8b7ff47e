import ConcurrencyInAction.ParallelAccumulate.Partition
import Mathlib.Algebra.Ring.Nat

/-!
# The size of the blocks of `parallel_accumulate`

The number of threads is at most the number of elements divided by `min_per_thread`, rounded up; the
block size is the number of elements divided by the number of threads, rounded down.  With few
elements more than a multiple of `min_per_thread`, and enough cores, the blocks come out shorter
than `min_per_thread`.

* `HandedOut`: the blocks of the workers, and the last block of the calling thread;
* `BlockAssertion`: the bounds that the calling thread computes; `BlockAssertion.step`: the step
  lemma; `BlockAssertion.size_le`: no block is shorter than `block_size`;
* `minPerThread_le_size_iff`: the two divisions and the minimum;
* `minimumWork_iff`: **the minimum work per thread**, and when the function keeps it.
-/

namespace ConcurrencyInAction.ParallelAccumulate

open Interleaving

variable {α : Type*}

/-- The block is that of a worker, or the one that the calling thread accumulates itself. -/
def HandedOut (s : Config (Option ℕ) (Shared α) (Point α)) (first last : ℕ) : Prop :=
  (∃ (i : ℕ) (exited : Bool), s.shared.threads[i]? = some (.joinable first last exited)) ∨
    ∃ slot, s.locals none = .enterBlock first last slot

/-- With more than one thread, every block has at least `min_per_thread` elements. -/
def MinimumWork [Add α] [Zero α] (a : Args α) : Prop :=
  1 < a.numThreads → ∀ s, Reachable (program a) anyStep (initial a) s →
    ∀ first last, HandedOut s first last → Args.minPerThread.toNat ≤ last - first

/-- The bounds that the calling thread has computed. -/
def CallerBlock (a : Args α) : Point α → Prop
  | .loop i blockStart => i.toNat < a.threadCount ∧ blockStart = i.toNat * a.size
  | .construct i blockStart blockEnd => i.toNat + 1 < a.threadCount ∧
      blockStart = i.toNat * a.size ∧ blockEnd = blockStart + a.size
  | .enterBlock first last _ => first = (a.threadCount - 1) * a.size ∧ last = a.sequence.length
  | _ => True

/-- The blocks of the workers, and the bounds of the calling thread. -/
structure BlockAssertion (a : Args α) (threads : List Handle) (p : Point α) : Prop where
  worker : ∀ (i : ℕ) first last exited, threads[i]? = some (.joinable first last exited) →
    last = first + a.size
  caller : CallerBlock a p

variable {a : Args α} {g g' : Shared α} {p p' : Point α} {threads : List Handle}

/-- No block is shorter than `block_size`. -/
theorem BlockAssertion.size_le {s : Config (Option ℕ) (Shared α) (Point α)} {first last : ℕ}
    (hlen : a.sequence.length < 2 ^ 63) (hpos : 0 < a.threadCount)
    (h : BlockAssertion a s.shared.threads (s.locals none)) (hb : HandedOut s first last) :
    a.size ≤ last - first := by
  rcases hb with ⟨i, exited, hi⟩ | ⟨slot, hp⟩
  · have hlast := h.worker i first last exited hi
    omega
  · have hcaller := h.caller
    rw [hp] at hcaller
    obtain ⟨hfirst, hlast⟩ := hcaller
    have htotal := Args.threadCount_mul_size_le hlen
    have hsplit : (a.threadCount - 1) * a.size + a.size = a.threadCount * a.size := by
      rw [← Nat.succ_mul]
      congr 1
      omega
    omega

/-! ### The steps -/

section Code

variable [Add α] [Zero α]

omit [Zero α] in
/-- The end of a worker's function says nothing new about its block. -/
theorem BlockAssertion.worker_step {i : ℕ} {c : Choice} {q q' : Point α}
    (h : BlockAssertion a g.threads p) (hstep : Step a g (some i) c q g' q') :
    BlockAssertion a g'.threads p := by
  cases hstep with
  | exits =>
    exact ⟨forall_joinable_exit (fun _ first last => last = first + a.size) h.worker i, h.caller⟩
  | _ => exact h

omit [Zero α] in
/-- A step of the calling thread. -/
theorem BlockAssertion.step {c : Choice} (h : BlockAssertion a g.threads p)
    (hstep : Step a g none c p g' p') : BlockAssertion a g'.threads p' := by
  obtain ⟨hworker, hcaller⟩ := h
  cases hstep with
  | loops hi =>
    obtain ⟨hlt, hstart⟩ := hcaller
    have hi' := UInt64.lt_iff_toNat_lt.mp hi
    rw [Args.toNat_numThreads_sub_one (Nat.zero_lt_of_lt hlt)] at hi'
    exact ⟨hworker, by omega, hstart, rfl⟩
  | @leavesLoop i blockStart hi =>
    obtain ⟨hlt, hstart⟩ := hcaller
    have hi' := UInt64.le_iff_toNat_le.mp (UInt64.not_lt.mp hi)
    rw [Args.toNat_numThreads_sub_one (Nat.zero_lt_of_lt hlt)] at hi'
    have hlast : i.toNat = a.threadCount - 1 := by omega
    exact ⟨hworker, hlast ▸ hstart, rfl⟩
  | @constructs i blockStart blockEnd =>
    obtain ⟨hlt, hstart, hend⟩ := hcaller
    have hsucc : (i + 1).toNat = i.toNat + 1 :=
      Args.toNat_succ (n := a.numThreads) (Nat.lt_of_succ_lt hlt)
    refine ⟨forall_joinable_set (fun _ first last => last = first + a.size) hworker ?_, ?_, ?_⟩
    · intro first last exited he
      cases he
      exact hend
    · rw [hsucc]
      exact hlt
    · rw [hsucc, Nat.succ_mul, hend, hstart]
  | joins hentry =>
    exact ⟨forall_joinable_set (fun _ first last => last = first + a.size) hworker nofun, trivial⟩
  | stores => exact ⟨hworker, by rw [if_pos rfl]; trivial⟩
  | _ => exact ⟨hworker, trivial⟩

omit [Add α] in
theorem initial_blockAssertion (hlen : a.sequence.length < 2 ^ 63) :
    BlockAssertion a (initial a).shared.threads ((initial a).locals none) := by
  unfold initial
  split
  · exact ⟨nofun, trivial⟩
  · rename_i h
    have hpos : 0 < a.sequence.length := by
      have hne : a.length.toNat ≠ 0 := fun he => h (UInt64.toNat_inj.mp he)
      rw [Args.toNat_length hlen] at hne
      omega
    refine ⟨fun i first last exited hi => ?_, Args.threadCount_pos hlen hpos,
      (Nat.zero_mul _).symm⟩
    exact nomatch List.eq_of_mem_replicate (List.mem_of_getElem? hi)

/-- **The invariant**, with no condition on `+`. -/
theorem reachable_blockAssertion (hlen : a.sequence.length < 2 ^ 63)
    {s : Config (Option ℕ) (Shared α) (Point α)}
    (hs : Reachable (program a) anyStep (initial a) s) :
    BlockAssertion a s.shared.threads (s.locals none) := by
  induction hs with
  | init => exact initial_blockAssertion hlen
  | @step s s' t c _ _ hstep ih =>
    obtain ⟨p, hp, hcaller, hworker⟩ := Config.step_focus none hstep
    cases t with
    | none =>
      rw [hcaller rfl]
      exact ih.step (step_of_program hp)
    | some i =>
      rw [hworker (Option.some_ne_none i)]
      exact ih.worker_step (step_of_program hp)

/-! ### The sizes -/

omit [Add α] [Zero α] in
/-- **Rounded up, then down.**  The block size is at least `min_per_thread` if the number of
elements is a multiple of it, or large enough for all threads that the hardware supports. -/
theorem minPerThread_le_size_iff (hlen : a.sequence.length < 2 ^ 63) (hpos : 0 < a.threadCount) :
    Args.minPerThread.toNat ≤ a.size ↔
      25 ∣ a.sequence.length ∨ 25 * a.supported ≤ a.sequence.length := by
  have hmin : Args.minPerThread.toNat = 25 := rfl
  have hcount := Args.threadCount_eq hlen
  rw [hmin, Args.size_eq hlen, Nat.le_div_iff_mul_le hpos]
  omega

/-- The first worker gets the first block. -/
theorem exists_handedOut (hlen : a.sequence.length < 2 ^ 63) (hcount : 1 < a.threadCount) :
    ∃ s, Reachable (program a) anyStep (initial a) s ∧ HandedOut s 0 a.size := by
  have hloop : 0 < a.numThreads - 1 := by
    rw [UInt64.lt_iff_toNat_lt, Args.toNat_numThreads_sub_one (by omega)]
    exact Nat.sub_pos_of_lt hcount
  have hne : a.length ≠ 0 := by
    have hle := Args.threadCount_le hlen
    exact Args.length_ne_zero hlen (by omega)
  have hinit : initial a =
      { shared :=
          ⟨.replicate a.numThreads.toNat 0, .replicate (a.numThreads - 1).toNat .empty, false⟩
        locals := fun t => if t = none then .loop 0 0 else .notStarted } := if_neg hne
  have hsolo : Config.solo (program a) none ((initial a).shared, (initial a).locals none)
      [.run, .run] = some
        ({ (initial a).shared with
            threads := (initial a).shared.threads.set 0 (.joinable 0 a.size false) },
          .loop 1 a.size) := by
    rw [hinit]
    simp [Config.solo, program, hloop, Args.size]
  refine ⟨_, Reachable.of_run_any _ (Config.run_of_solo _ _ hsolo), .inl ⟨0, false, ?_⟩⟩
  refine List.getElem?_set_self ?_
  rw [hinit]
  show 0 < (List.replicate (a.numThreads - 1).toNat Handle.empty).length
  rw [List.length_replicate]
  exact UInt64.lt_iff_toNat_lt.mp hloop

theorem not_minimumWork (hlen : a.sequence.length < 2 ^ 63) (hcount : 1 < a.threadCount)
    (hsize : a.size < Args.minPerThread.toNat) : ¬ MinimumWork a := by
  intro h
  obtain ⟨s, hs, hb⟩ := exists_handedOut hlen hcount
  have hle := h (UInt64.lt_iff_toNat_lt.mpr hcount) s hs 0 a.size hb
  omega

/-- **The minimum work per thread.**  In every reachable state of a call with more than one thread,
every block that has been handed out has at least `min_per_thread` elements, exactly when there are
at most `min_per_thread` elements, or a multiple of that, or that many for every thread the hardware
supports. -/
theorem minimumWork_iff (a : Args α) (hlen : a.sequence.length < 2 ^ 63) :
    MinimumWork a ↔ a.sequence.length ≤ 25 ∨ 25 ∣ a.sequence.length ∨
      25 * a.supported ≤ a.sequence.length := by
  have hcount := Args.threadCount_eq hlen
  constructor
  · intro h
    by_cases hone : a.threadCount ≤ 1
    · -- one thread only: few elements, or one core
      omega
    · right
      rw [← minPerThread_le_size_iff hlen (by omega)]
      by_contra hsize
      exact not_minimumWork hlen (by omega) (by omega) h
  · intro hcond hthreads s hs first last hb
    have hmany : 1 < a.threadCount := UInt64.lt_iff_toNat_lt.mp hthreads
    have hsize : Args.minPerThread.toNat ≤ a.size := by
      rw [minPerThread_le_size_iff hlen (by omega)]
      omega
    exact Nat.le_trans hsize ((reachable_blockAssertion hlen hs).size_le hlen (by omega) hb)

end Code

/-- A hundred numbers on four cores, in four blocks of 25. -/
theorem minimumWork_iff_fourBlocks : MinimumWork (⟨List.range 100, 0, 4⟩ : Args ℕ) :=
  (minimumWork_iff ⟨List.range 100, 0, 4⟩ (by decide)).mpr (.inr (.inl (by decide)))

/-- Twenty-six numbers on two cores come in two blocks of 13. -/
theorem not_minimumWork_twentySix : ¬ MinimumWork (⟨List.range 26, 0, 2⟩ : Args ℕ) :=
  not_minimumWork (by decide) (by decide) (by decide)

end ConcurrencyInAction.ParallelAccumulate
