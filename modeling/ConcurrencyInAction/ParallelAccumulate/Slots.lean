import ConcurrencyInAction.ParallelAccumulate.Blocks
import ConcurrencyInAction.ParallelAccumulate.Termination
import Mathlib.Order.Interval.Finset.Nat

/-!
# The blocks and the slots of `parallel_accumulate`

* `ExactArithmetic`: no operation of the function's constants wraps, and no divisor is zero;
* `IsPartition`: the blocks are non-empty, in order and disjoint, and cover the sequence;
* `SlotAssertion`: whoever runs `accumulate_block` is at work on the block of its slot;
  `slotRelyGuarantee`: whatever fails, the threads keep it;
* `Written`: how often the slot of a block has been written when its thread is at a point;
* `block_partition`: the blocks that the function computes, and the slots that a run writes; a run
  without faults ends with every slot written.

Nothing is assumed about `+`.
-/

namespace ConcurrencyInAction.ParallelAccumulate

open Interleaving

variable {α : Type*}

/-! ### The constants -/

/-- The `unsigned long` arithmetic of the function is that of the natural numbers. -/
structure ExactArithmetic (a : Args α) : Prop where
  length : a.length.toNat = a.sequence.length
  add : (a.length + Args.minPerThread).toNat = a.length.toNat + Args.minPerThread.toNat
  sub : 1 ≤ a.length + Args.minPerThread
  minPerThread_ne_zero : Args.minPerThread ≠ 0
  numThreads_ne_zero : a.numThreads ≠ 0
  one_le_numThreads : 1 ≤ a.numThreads
  increment : ∀ i < a.numThreads - 1, (i + 1).toNat = i.toNat + 1

/-- The positions of block `i`. -/
def Args.interval (a : Args α) (i : ℕ) : Finset ℕ := Finset.Ico (i * a.size) (a.blockEnd i)

/-- The blocks, one for each thread, are a partition of the sequence. -/
structure IsPartition (a : Args α) : Prop where
  one_le_threadCount : 1 ≤ a.threadCount
  threadCount_le : a.threadCount ≤ a.sequence.length
  one_le_size : 1 ≤ a.size
  nonempty : ∀ i < a.threadCount, (a.interval i).Nonempty
  ordered : ∀ i j, i < j → j < a.threadCount → a.blockEnd i ≤ j * a.size
  disjoint : ∀ i < a.threadCount, ∀ j < a.threadCount, i ≠ j →
    Disjoint (a.interval i) (a.interval j)
  cover : (Finset.range a.threadCount).biUnion a.interval = Finset.range a.sequence.length
  card_last_lt : (a.interval (a.threadCount - 1)).card < a.size + a.threadCount

variable {a : Args α}

theorem exactArithmetic (hlen : a.sequence.length < 2 ^ 63) (hpos : 0 < a.threadCount) :
    ExactArithmetic a where
  length := Args.toNat_length hlen
  add := Args.toNat_length_add hlen
  sub := by
    rw [UInt64.le_iff_toNat_le, Args.toNat_length_add hlen]
    exact Nat.le_add_left 1 _
  minPerThread_ne_zero := by decide
  numThreads_ne_zero he := by
    rw [Args.threadCount, he] at hpos
    exact Nat.lt_irrefl 0 hpos
  one_le_numThreads := UInt64.le_iff_toNat_le.mpr hpos
  increment _ hi := Args.toNat_succ (UInt64.lt_iff_toNat_lt.mp hi)

namespace Args

/-- A block ends before the next ones start. -/
theorem blockEnd_le_start {i j : ℕ} (hij : i < j) (hj : j < a.threadCount) :
    a.blockEnd i ≤ j * a.size := by
  rw [blockEnd_of_worker (by omega)]
  exact Nat.mul_le_mul_right a.size hij

theorem interval_disjoint {i j : ℕ} (hij : i < j) (hj : j < a.threadCount) :
    Disjoint (a.interval i) (a.interval j) := by
  rw [Finset.disjoint_left]
  intro x hi hj'
  rw [interval, Finset.mem_Ico] at hi hj'
  have hend := blockEnd_le_start hij hj
  omega

/-- Every position is in the block of its quotient, or in the last one. -/
theorem exists_mem_interval (hsize : 0 < a.size) (hpos : 0 < a.threadCount) {x : ℕ}
    (hx : x < a.sequence.length) : ∃ i < a.threadCount, x ∈ a.interval i := by
  have hdiv : x / a.size * a.size ≤ x := Nat.div_mul_le_self x a.size
  by_cases hi : x / a.size + 1 < a.threadCount
  · refine ⟨x / a.size, by omega, Finset.mem_Ico.mpr ⟨hdiv, ?_⟩⟩
    rw [blockEnd_of_worker hi]
    exact Nat.lt_mul_of_div_lt (Nat.lt_succ_self _) hsize
  · refine ⟨a.threadCount - 1, by omega, Finset.mem_Ico.mpr ⟨?_, ?_⟩⟩
    · have hle : a.threadCount - 1 ≤ x / a.size := by omega
      exact (Nat.mul_le_mul_right a.size hle).trans hdiv
    · rw [blockEnd_last]
      exact hx

theorem biUnion_interval (hlen : a.sequence.length < 2 ^ 63) (hpos : 0 < a.threadCount) :
    (Finset.range a.threadCount).biUnion a.interval = Finset.range a.sequence.length := by
  ext x
  simp only [Finset.mem_biUnion, Finset.mem_range]
  constructor
  · intro h
    obtain ⟨i, hi, hx⟩ := h
    exact Nat.lt_of_lt_of_le (Finset.mem_Ico.mp hx).2 (blockEnd_le hlen hi)
  · exact exists_mem_interval (size_pos hlen hpos) hpos

/-- The last block has the elements that the division leaves over besides those of its own. -/
theorem card_last_lt (hlen : a.sequence.length < 2 ^ 63) (hpos : 0 < a.threadCount) :
    (a.interval (a.threadCount - 1)).card < a.size + a.threadCount := by
  rw [interval, Nat.card_Ico, blockEnd_last]
  have hsplit : (a.threadCount - 1) * a.size + a.size = a.threadCount * a.size := by
    rw [← Nat.succ_mul]
    congr 1
    omega
  have hmod := Nat.mod_lt a.sequence.length hpos
  have hdiv := Nat.div_add_mod a.sequence.length a.threadCount
  rw [← size_eq hlen] at hdiv
  omega

end Args

theorem isPartition (hlen : a.sequence.length < 2 ^ 63) (hpos : 0 < a.threadCount) :
    IsPartition a where
  one_le_threadCount := hpos
  threadCount_le := Args.threadCount_le hlen
  one_le_size := Args.size_pos hlen hpos
  nonempty _ hi := Finset.nonempty_Ico.mpr (Args.start_lt_blockEnd hlen hi)
  ordered _ _ := Args.blockEnd_le_start
  disjoint i hi j hj hne := by
    rcases Nat.lt_or_gt_of_ne hne with hij | hji
    · exact Args.interval_disjoint hij hj
    · exact (Args.interval_disjoint hji hi).symm
  cover := Args.biUnion_interval hlen hpos
  card_last_lt := Args.card_last_lt hlen hpos

/-! ### Who is at work on which block -/

/-- The thread that is to write the slot of block `j`. -/
def Args.writer (a : Args α) (j : ℕ) : Option ℕ := if j + 1 < a.threadCount then some j else none

theorem Args.writer_injective {i j : ℕ} (hi : i < a.threadCount) (hj : j < a.threadCount)
    (h : a.writer i = a.writer j) : i = j := by
  unfold writer at h
  by_cases hi' : i + 1 < a.threadCount
  · by_cases hj' : j + 1 < a.threadCount
    · rw [if_pos hi', if_pos hj'] at h
      exact Option.some.inj h
    · rw [if_pos hi', if_neg hj'] at h
      exact nomatch h
  · by_cases hj' : j + 1 < a.threadCount
    · rw [if_neg hi', if_pos hj'] at h
      exact nomatch h
    · omega

/-- A thread in `accumulate_block` is the one for its slot, and inside the block of the slot. -/
def OnBlock (a : Args α) (t : Option ℕ) : Point α → Prop
  | .enterBlock first last slot => slot < a.threadCount ∧ t = a.writer slot ∧
      first = slot * a.size ∧ last = a.blockEnd slot
  | .accumulate it last slot _ => slot < a.threadCount ∧ t = a.writer slot ∧
      slot * a.size ≤ it ∧ it ≤ last ∧ last = a.blockEnd slot
  | _ => True

/-- The workers that are constructed have their blocks. -/
structure Assigned (a : Args α) (threads : List Handle) : Prop where
  length : threads.length = a.threadCount - 1
  joinable : ∀ i first last exited, threads[i]? = some (.joinable first last exited) →
    first = i * a.size ∧ last = a.blockEnd i

/-- The workers that the calling thread has joined. -/
def JoinedBefore (a : Args α) (threads : List Handle) : Point α → Prop
  | .join entry => ∀ i < entry, i + 1 < a.threadCount → threads[i]? = some .joined
  | .fold | .destroy (some _) | .returned _ =>
      ∀ i, i + 1 < a.threadCount → threads[i]? = some .joined
  | _ => True

/-- The assertion of a thread: what it is at work on, what the calling thread has joined, and that
the function of a worker has ended where its `std::thread` object says so. -/
def SlotAssertion (a : Args α) : Option ℕ → Shared α → Point α → Prop
  | none, g, p => OnBlock a none p ∧ CallerBlock a p ∧ JoinedBefore a g.threads p
  | some i, g, p => OnBlock a (some i) p ∧
      ∀ h, g.threads[i]? = some h → h.hasExited → p = .exited

/-- What a thread relies on: a thread that is joined remains so, and nobody else ends the function
of a worker. -/
def SlotRely : Option ℕ → Shared α → Shared α → Prop
  | none, g, g' => ∀ i : ℕ, g.threads[i]? = some .joined → g'.threads[i]? = some .joined
  | some i, g, g' => ∀ h', g'.threads[i]? = some h' → h'.hasExited →
      ∃ h, g.threads[i]? = some h ∧ h.hasExited

variable {g g' : Shared α} {p p' : Point α} {i : ℕ}

theorem OnBlock.enters {t : Option ℕ} {first last slot : ℕ} {result : α}
    (hlen : a.sequence.length < 2 ^ 63) (h : OnBlock a t (.enterBlock first last slot)) :
    OnBlock a t (.accumulate first last slot result) := by
  obtain ⟨hslot, hwriter, hfirst, hlast⟩ := h
  refine ⟨hslot, hwriter, hfirst.ge, ?_, hlast⟩
  rw [hfirst, hlast]
  exact (Args.start_lt_blockEnd hlen hslot).le

theorem OnBlock.adds {t : Option ℕ} {it last slot : ℕ} {acc acc' : α} (hne : it ≠ last)
    (h : OnBlock a t (.accumulate it last slot acc)) :
    OnBlock a t (.accumulate (it + 1) last slot acc') := by
  obtain ⟨hslot, hwriter, hfirst, hle, hlast⟩ := h
  exact ⟨hslot, hwriter, by omega, by omega, hlast⟩

theorem SlotRely.of_eq {u : Option ℕ} (h : g'.threads = g.threads) : SlotRely u g g' := by
  cases u with
  | none =>
    intro i hi
    rw [h]
    exact hi
  | some i =>
    intro hd hi hex
    rw [h] at hi
    exact ⟨hd, hi, hex⟩

theorem JoinedBefore.stable (hr : SlotRely none g g') (h : JoinedBefore a g.threads p) :
    JoinedBefore a g'.threads p := by
  cases p with
  | join entry => exact fun i hi hi' => hr i (h i hi hi')
  | fold | returned value => exact fun i hi => hr i (h i hi)
  | destroy result =>
    cases result with
    | none => trivial
    | some value => exact fun i hi => hr i (h i hi)
  | _ => trivial

theorem SlotAssertion.stable {u : Option ℕ} (hr : SlotRely u g g') (h : SlotAssertion a u g p) :
    SlotAssertion a u g' p := by
  cases u with
  | none => exact ⟨h.1, h.2.1, h.2.2.stable hr⟩
  | some i =>
    refine ⟨h.1, fun hd' hhd' hex' => ?_⟩
    obtain ⟨hd, hhd, hex⟩ := hr hd' hhd' hex'
    exact h.2 hd hhd hex

/-- The function of a worker ends. -/
theorem Assigned.modify {threads : List Handle} (hS : Assigned a threads) :
    Assigned a (threads.modify i Handle.exit) where
  length := (List.length_modify _ _ _).trans hS.length
  joinable := forall_joinable_exit (fun j first last => first = j * a.size ∧ last = a.blockEnd j)
    hS.joinable i

/-- A worker is constructed with its block, or joined. -/
theorem Assigned.set {threads : List Handle} {hd : Handle} (hS : Assigned a threads)
    (hhd : ∀ first last exited, hd = .joinable first last exited →
      first = i * a.size ∧ last = a.blockEnd i) : Assigned a (threads.set i hd) where
  length := List.length_set.trans hS.length
  joinable := forall_joinable_set (fun j first last => first = j * a.size ∧ last = a.blockEnd j)
    hS.joinable hhd

/-- The end of a worker's function, as the other threads see it. -/
theorem slotRely_modify {u : Option ℕ} (hu : u ≠ some i) :
    SlotRely u g { g with threads := g.threads.modify i Handle.exit } := by
  cases u with
  | none =>
    intro j hj
    show (g.threads.modify i Handle.exit)[j]? = _
    by_cases hij : i = j
    · subst hij
      rw [List.getElem?_modify_eq, hj]
      rfl
    · rw [List.getElem?_modify_ne _ _ hij]
      exact hj
  | some j =>
    intro hd hj hex
    have hij : i ≠ j := fun he => hu (congrArg some he.symm)
    have hold : (g.threads.modify i Handle.exit)[j]? = some hd := hj
    rw [List.getElem?_modify_ne _ _ hij] at hold
    exact ⟨hd, hold, hex⟩

/-- A worker is constructed or joined, as the workers see it. -/
theorem slotRely_set {j : ℕ} {hd : Handle}
    (hhd : hd.hasExited → ∃ h, g.threads[i]? = some h ∧ h.hasExited) :
    SlotRely (some j) g { g with threads := g.threads.set i hd } := by
  intro hd' hj hex
  rcases getElem?_set_cases hj with ⟨rfl, rfl⟩ | ⟨-, hold⟩
  · exact hhd hex
  · exact ⟨hd', hold, hex⟩

section Code

variable [Add α] [Zero α]

omit [Zero α] in
/-- The steps of a worker. -/
theorem SlotAssertion.worker {c : Choice} (hlen : a.sequence.length < 2 ^ 63)
    (hS : Assigned a g.threads) (h : SlotAssertion a (some i) g p)
    (hstep : Step a g (some i) c p g' p') : Assigned a g'.threads ∧
      SlotAssertion a (some i) g' p' ∧ ∀ u, u ≠ some i → SlotRely u g g' := by
  obtain ⟨hblock, hexited⟩ := h
  have hsame (u : Option ℕ) (_ : u ≠ some i) : SlotRely u g g := SlotRely.of_eq rfl
  cases hstep with
  | @starts _ first last hi =>
    obtain ⟨hfirst, hlast⟩ := hS.joinable i first last false hi
    obtain ⟨hlt, -⟩ := List.getElem?_eq_some_iff.mp hi
    rw [hS.length] at hlt
    have hwriter : some i = a.writer i := (if_pos (by omega)).symm
    refine ⟨hS, ⟨⟨by omega, hwriter, hfirst, hlast⟩, fun hd hhd hex => ?_⟩, hsame⟩
    exact nomatch hexited hd hhd hex
  | exits => exact ⟨hS.modify, ⟨trivial, fun _ _ _ => rfl⟩, fun u hu => slotRely_modify hu⟩
  | workerThrows => exact ⟨hS, ⟨hblock, hexited⟩, fun u _ => SlotRely.of_eq rfl⟩
  | enters hresult =>
    exact ⟨hS, ⟨hblock.enters hlen, fun hd hhd hex => nomatch hexited hd hhd hex⟩, hsame⟩
  | adds hne hx =>
    exact ⟨hS, ⟨hblock.adds hne, fun hd hhd hex => nomatch hexited hd hhd hex⟩, hsame⟩
  | stores =>
    exact ⟨hS, ⟨trivial, fun hd hhd hex => nomatch hexited hd hhd hex⟩,
      fun u _ => SlotRely.of_eq rfl⟩
  | undefinedSlot _ | undefinedElement _ _ =>
    exact ⟨hS, ⟨trivial, fun hd hhd hex => nomatch hexited hd hhd hex⟩, hsame⟩

omit [Add α] [Zero α] in
/-- The workers that the calling thread sees have the size of its blocks. -/
theorem Assigned.blockAssertion (hS : Assigned a g.threads) (h : CallerBlock a p) :
    BlockAssertion a g.threads p where
  worker j first last exited hj := by
    obtain ⟨hfirst, hlast⟩ := hS.joinable j first last exited hj
    obtain ⟨hlt, -⟩ := List.getElem?_eq_some_iff.mp hj
    rw [hS.length] at hlt
    rw [hlast, hfirst, Args.blockEnd_of_worker (by omega), Nat.succ_mul]
  caller := h

omit [Zero α] in
/-- The steps of the calling thread. -/
theorem SlotAssertion.caller {c : Choice} (hlen : a.sequence.length < 2 ^ 63)
    (hS : Assigned a g.threads) (h : SlotAssertion a none g p)
    (hstep : Step a g none c p g' p') : Assigned a g'.threads ∧
      SlotAssertion a none g' p' ∧ ∀ u, u ≠ none → SlotRely u g g' := by
  obtain ⟨hblock, hcaller, hjoined⟩ := h
  have hcaller' := ((hS.blockAssertion hcaller).step hstep).caller
  have hsame (u : Option ℕ) (_ : u ≠ none) : SlotRely u g g := SlotRely.of_eq rfl
  cases hstep with
  | enters hresult => exact ⟨hS, ⟨hblock.enters hlen, hcaller', trivial⟩, hsame⟩
  | adds hne hx => exact ⟨hS, ⟨hblock.adds hne, hcaller', trivial⟩, hsame⟩
  | stores =>
    refine ⟨hS, ⟨trivial, hcaller', fun i hi => ?_⟩, fun u _ => SlotRely.of_eq rfl⟩
    exact absurd hi (Nat.not_lt_zero i)
  | loops _ | throws | undefinedSlot _ | undefinedElement _ _ | joinThrows _ _ | leaves =>
    exact ⟨hS, ⟨trivial, hcaller', trivial⟩, hsame⟩
  | @leavesLoop i blockStart hi =>
    have hpos : 0 < a.threadCount := Nat.zero_lt_of_lt hcaller.1
    have hslot := Args.toNat_numThreads_sub_one hpos
    obtain ⟨hfirst, hlast⟩ := hcaller'
    refine ⟨hS, ⟨?_, ⟨hfirst, hlast⟩, trivial⟩, hsame⟩
    show OnBlock a none (.enterBlock blockStart a.sequence.length (a.numThreads - 1).toNat)
    rw [hslot]
    exact ⟨by omega, (if_neg (by omega)).symm, hfirst, Args.blockEnd_last.symm⟩
  | @constructs i blockStart blockEnd =>
    obtain ⟨hlt, hstart, hend⟩ := hcaller
    refine ⟨hS.set ?_, ⟨trivial, hcaller', trivial⟩, fun u hu => ?_⟩
    · intro first last exited he
      cases he
      refine ⟨hstart, ?_⟩
      rw [Args.blockEnd_of_worker hlt, hend, hstart, Nat.succ_mul]
    · obtain ⟨j, rfl⟩ := Option.ne_none_iff_exists'.mp hu
      exact slotRely_set fun hex => hex.elim
  | @joins entry first last hentry =>
    refine ⟨hS.set nofun, ⟨trivial, hcaller', fun i hi hi' => ?_⟩, fun u hu => ?_⟩
    · show (g.threads.set entry .joined)[i]? = some .joined
      by_cases he : entry = i
      · subst he
        obtain ⟨hlt, -⟩ := List.getElem?_eq_some_iff.mp hentry
        exact List.getElem?_set_self hlt
      · rw [List.getElem?_set_ne he]
        exact hjoined i (by omega) hi'
    · obtain ⟨j, rfl⟩ := Option.ne_none_iff_exists'.mp hu
      exact slotRely_set fun _ => ⟨_, hentry, trivial⟩
  | @joinsAll entry hentry =>
    refine ⟨hS, ⟨trivial, hcaller', fun i hi => hjoined i ?_ hi⟩, hsame⟩
    have hle := List.getElem?_eq_none_iff.mp hentry
    rw [hS.length] at hle
    omega
  | folds | returns => exact ⟨hS, ⟨trivial, hcaller', hjoined⟩, hsame⟩
  | terminates _ => exact ⟨hS, ⟨trivial, hcaller', hjoined⟩, fun u _ => SlotRely.of_eq rfl⟩

omit [Zero α] in
theorem slotRelyGuarantee (hlen : a.sequence.length < 2 ^ 63) :
    RelyGuarantee (program a) anyStep (fun g => Assigned a g.threads) (SlotAssertion a)
      SlotRely where
  stable _ _ _ _ hr h := h.stable hr
  step s t c g l hS hP _ hp := by
    cases t with
    | none => exact (hP none).caller hlen hS (step_of_program hp)
    | some i => exact (hP (some i)).worker hlen hS (step_of_program hp)

omit [Add α] in
theorem initial_slotAssertion (hlen : a.sequence.length < 2 ^ 63)
    (hpos : 0 < a.sequence.length) : Assigned a (initial a).shared.threads ∧
      ∀ u, SlotAssertion a u (initial a).shared ((initial a).locals u) := by
  have hcount := Args.threadCount_pos hlen hpos
  have hempty {j : ℕ} {hd : Handle}
      (hj : (List.replicate (a.numThreads - 1).toNat Handle.empty)[j]? = some hd) : hd = .empty :=
    List.eq_of_mem_replicate (List.mem_of_getElem? hj)
  unfold initial
  rw [if_neg (Args.length_ne_zero hlen hpos)]
  refine ⟨⟨?_, fun j first last exited hj => ?_⟩, fun u => ?_⟩
  · exact List.length_replicate.trans (Args.toNat_numThreads_sub_one hcount)
  · exact nomatch hempty hj
  · cases u with
    | none => exact ⟨trivial, ⟨hcount, (Nat.zero_mul _).symm⟩, trivial⟩
    | some i =>
      refine ⟨trivial, fun hd hhd hex => ?_⟩
      rw [hempty hhd] at hex
      exact hex.elim

variable {s : Config (Option ℕ) (Shared α) (Point α)}

/-- **The invariant**, for every order of the steps and whatever fails. -/
theorem reachable_slotAssertion (hlen : a.sequence.length < 2 ^ 63) (hpos : 0 < a.sequence.length)
    (hs : Reachable (program a) anyStep (initial a) s) :
    Assigned a s.shared.threads ∧ ∀ u, SlotAssertion a u s.shared (s.locals u) :=
  hs.rely_guarantee (slotRelyGuarantee hlen) (initial_slotAssertion hlen hpos)

theorem reachable_onBlock (hlen : a.sequence.length < 2 ^ 63) (hpos : 0 < a.sequence.length)
    (hs : Reachable (program a) anyStep (initial a) s) (t : Option ℕ) :
    OnBlock a t (s.locals t) := by
  have ht := (reachable_slotAssertion hlen hpos hs).2 t
  cases t with
  | none => exact ht.1
  | some i => exact ht.1

/-! ### The writes -/

/-- The next step writes the slot of block `j`. -/
def Point.writes (j : ℕ) : Point α → Choice → Bool
  | .accumulate it last slot _, .run => it == last && slot == j
  | _, _ => false

/-- The step writes the slot of block `j`. -/
def writesSlot (j : ℕ) (s : Config (Option ℕ) (Shared α) (Point α)) (t : Option ℕ) (c : Choice) :
    Bool := (s.locals t).writes j c

/-- How often a thread that is to write one slot has done so. -/
def Written (n : ℕ) : Point α → Prop
  | .notStarted | .loop _ _ | .construct _ _ _ | .enterBlock _ _ _ | .accumulate _ _ _ _ => n = 0
  | .exit | .exited | .join _ | .fold | .destroy (some _) | .returned _ => n = 1
  | .destroy none | .thrown | .undefined => n ≤ 1

/-- The calling thread has joined all workers, and has their results. -/
def Point.HasResults : Point α → Prop
  | .fold | .destroy (some _) | .returned _ => True
  | _ => False

omit [Add α] [Zero α] in
theorem JoinedBefore.of_hasResults {threads : List Handle} (h : JoinedBefore a threads p)
    (hp : p.HasResults) : ∀ i, i + 1 < a.threadCount → threads[i]? = some .joined := by
  cases p with
  | fold | returned value => exact h
  | destroy result =>
    cases result with
    | some value => exact h
    | none => exact hp.elim
  | _ => exact hp.elim

omit [Add α] [Zero α] in
theorem Written.le_one {n : ℕ} (h : Written n p) : n ≤ 1 := by
  cases p with
  | destroy result => cases result <;> simp only [Written] at h <;> omega
  | _ => simp only [Written] at h; omega

omit [Add α] [Zero α] in
/-- Only the thread for a slot writes it. -/
theorem OnBlock.writes_eq_false {t : Option ℕ} {c : Choice} {j : ℕ} (h : OnBlock a t p)
    (hne : t ≠ a.writer j) : p.writes j c = false := by
  cases p with
  | accumulate it last slot acc =>
    cases c with
    | run =>
      rw [Point.writes, Bool.and_eq_false_iff]
      refine .inr (beq_eq_false_iff_ne.mpr fun he => hne ?_)
      rw [h.2.1, he]
    | fault => rfl
  | _ => rfl

omit [Zero α] in
/-- A step of the thread for block `j`. -/
theorem Written.step {t : Option ℕ} {c : Choice} {j n : ℕ} (hj : j < a.threadCount)
    (hblock : OnBlock a t p) (ht : t = a.writer j) (h : Written n p)
    (hstep : Step a g t c p g' p') : Written (n + if p.writes j c then 1 else 0) p' := by
  cases hstep with
  | @stores _ last slot acc =>
    obtain ⟨hslot, hwriter, -⟩ := hblock
    obtain rfl : slot = j := Args.writer_injective hslot hj (hwriter.symm.trans ht)
    have hwrites : (Point.accumulate last last slot acc).writes slot .run = true := by
      simp [Point.writes]
    have hzero : n = 0 := h
    rw [if_pos hwrites, hzero]
    split <;> rfl
  | @adds _ it last slot acc x hne hx =>
    have hwrites : (Point.accumulate it last slot acc).writes j .run = false := by
      simp [Point.writes, hne]
    rw [hwrites]
    exact h
  | throws =>
    have hwrites : p.writes j .fault = false := by cases p <;> rfl
    rw [hwrites]
    exact h.le_one
  | undefinedSlot _ | joinThrows _ _ => exact h.le_one
  | @undefinedElement _ it last slot acc hne hx =>
    have hwrites : (Point.accumulate it last slot acc).writes j .run = false := by
      simp [Point.writes, hne]
    rw [hwrites]
    exact h.le_one
  | _ => exact h

/-- After any run the slot of block `j` has been written as often as its thread is past it. -/
theorem run_written (hlen : a.sequence.length < 2 ^ 63) (hpos : 0 < a.sequence.length)
    {as : List (Option ℕ × Choice)} (hrun : (initial a).run (program a) as = some s) {j : ℕ}
    (hj : j < a.threadCount) :
    Written ((initial a).countSteps (program a) (writesSlot j) as) (s.locals (a.writer j)) := by
  have hstart : Written 0 ((initial a).locals (a.writer j)) := by
    rw [initial, if_neg (Args.length_ne_zero hlen hpos)]
    show Written 0 (if a.writer j = none then _ else _)
    split <;> rfl
  have hcount := Config.run_count (p := program a) (f := writesSlot j)
    (J := fun s n => Reachable (program a) anyStep (initial a) s ∧
      Written n (s.locals (a.writer j))) ?_ as (initial a) s 0 ⟨.init, hstart⟩ hrun
  · rw [Nat.zero_add] at hcount
    exact hcount.2
  · intro s t c s' n hs hstep
    obtain ⟨hr, hw⟩ := hs
    refine ⟨hr.step trivial hstep, ?_⟩
    have hblock := reachable_onBlock hlen hpos hr t
    obtain ⟨l, hp, hself, hother⟩ := Config.step_focus (a.writer j) hstep
    by_cases ht : t = a.writer j
    · rw [hself ht]
      rw [← ht] at hw
      exact hw.step hj hblock ht (step_of_program hp)
    · rw [hother ht, writesSlot, hblock.writes_eq_false ht]
      exact hw

/-- When the calling thread has all results, every thread is past its slot. -/
theorem eq_one_of_hasResults (hlen : a.sequence.length < 2 ^ 63) (hpos : 0 < a.sequence.length)
    (hs : Reachable (program a) anyStep (initial a) s) (hresults : (s.locals none).HasResults)
    {j n : ℕ} (hw : Written n (s.locals (a.writer j))) : n = 1 := by
  have hassertion := (reachable_slotAssertion hlen hpos hs).2
  unfold Args.writer at hw
  split at hw
  · rename_i hj
    have hjoined := (hassertion none).2.2.of_hasResults hresults j hj
    rw [(hassertion (some j)).2 .joined hjoined trivial] at hw
    exact hw
  · generalize s.locals none = p at hw hresults
    cases p with
    | fold | returned value => exact hw
    | destroy result =>
      cases result with
      | some value => exact hw
      | none => exact hresults.elim
    | _ => exact hresults.elim

/-- **The blocks and the slots.**  The arithmetic of the function is exact, its blocks are a
partition of the sequence, and whatever the threads do and whatever fails, each slot is written at
most once, by the thread of its block, and exactly once when the calling thread has the results.
Without faults every order of the steps comes to that: no run is longer than a fixed number of
steps, and one that cannot be continued has returned, with every slot written. -/
theorem block_partition (a : Args α) (hpos : 0 < a.sequence.length)
    (hlen : a.sequence.length < 2 ^ 63) :
    ExactArithmetic a ∧ IsPartition a ∧
      (∀ s, Reachable (program a) anyStep (initial a) s →
        (∀ i blockStart blockEnd, s.locals none = .construct i blockStart blockEnd →
          blockStart = i.toNat * a.size ∧ blockEnd = a.blockEnd i.toNat ∧
            blockEnd ≤ a.sequence.length) ∧
        ∀ t, OnBlock a t (s.locals t)) ∧
      (∀ as s, (initial a).run (program a) as = some s → ∀ j < a.threadCount,
        (initial a).countSteps (program a) (writesSlot j) as ≤ 1 ∧
        ((s.locals none).HasResults →
          (initial a).countSteps (program a) (writesSlot j) as = 1)) ∧
      ∃ bound, ∀ as s, (initial a).AllSteps (program a) noFault as →
        (initial a).run (program a) as = some s → as.length ≤ bound ∧
          (((∃ value, s.locals none = .returned value) ∧ ∀ j < a.threadCount,
              (initial a).countSteps (program a) (writesSlot j) as = 1) ∨
            ∃ t, (s.step (program a) t .run).isSome) := by
  have hcount := Args.threadCount_pos hlen hpos
  have hwritten : ∀ as s, (initial a).run (program a) as = some s → (s.locals none).HasResults →
      ∀ j < a.threadCount, (initial a).countSteps (program a) (writesSlot j) as = 1 := by
    intro as s hrun hresults j hj
    exact eq_one_of_hasResults hlen hpos (Reachable.of_run_any as hrun) hresults
      (run_written hlen hpos hrun hj)
  refine ⟨exactArithmetic hlen hcount, isPartition hlen hcount, fun s hs => ?_,
    fun as s hrun j hj => ?_, ?_⟩
  · refine ⟨fun i blockStart blockEnd hp => ?_, reachable_onBlock hlen hpos hs⟩
    have hcaller := (reachable_blockAssertion hlen hs).caller
    rw [hp] at hcaller
    obtain ⟨hlt, hstart, hend⟩ := hcaller
    have hblock : blockEnd = a.blockEnd i.toNat := by
      rw [Args.blockEnd_of_worker hlt, hend, hstart, Nat.succ_mul]
    exact ⟨hstart, hblock, hblock ▸ Args.blockEnd_le hlen (Nat.lt_of_succ_lt hlt)⟩
  · exact ⟨(run_written hlen hpos hrun hj).le_one, fun hresults => hwritten as s hrun hresults j hj⟩
  · obtain ⟨bound, hbound⟩ := returns_of_noFault (a := a) hlen
    refine ⟨bound, fun as s hall hrun => ?_⟩
    obtain ⟨hle, hreturned | hnext⟩ := hbound as s hall hrun
    · refine ⟨hle, .inl ⟨⟨a.total, hreturned⟩, hwritten as s hrun ?_⟩⟩
      rw [hreturned]
      trivial
    · exact ⟨hle, .inr hnext⟩

end Code

/-- The calling thread joins both workers, adds the three results and returns. -/
def threeThreadsRun : List (Option ℕ × Choice) := blocksRun ++ .replicate 5 (none, .run)

theorem block_partition_threeThreads : ExactArithmetic threeThreads ∧ IsPartition threeThreads ∧
    (∃ s, (initial threeThreads).run (program threeThreads) threeThreadsRun = some s ∧
      s.locals none = .returned 1777 ∧ ∀ j < 3,
        (initial threeThreads).countSteps (program threeThreads) (writesSlot j)
          threeThreadsRun = 1) ∧
    ∃ bound, ∀ as s, (initial threeThreads).AllSteps (program threeThreads) noFault as →
      (initial threeThreads).run (program threeThreads) as = some s → as.length ≤ bound ∧
        (((∃ value, s.locals none = .returned value) ∧ ∀ j < 3,
            (initial threeThreads).countSteps (program threeThreads) (writesSlot j) as = 1) ∨
          ∃ t, (s.step (program threeThreads) t .run).isSome) := by
  obtain ⟨harith, hpart, -, hslots, hends⟩ := block_partition threeThreads (by decide) (by decide)
  have hrun : ((initial threeThreads).run (program threeThreads) threeThreadsRun).isSome := by
    decide
  have hreturned : (((initial threeThreads).run (program threeThreads) threeThreadsRun).get
      hrun).locals none = .returned 1777 := by
    rfl
  refine ⟨harith, hpart, ⟨_, (Option.some_get hrun).symm, hreturned, fun j hj => ?_⟩, hends⟩
  refine (hslots threeThreadsRun _ (Option.some_get hrun).symm j hj).2 ?_
  rw [hreturned]
  trivial

end ConcurrencyInAction.ParallelAccumulate
