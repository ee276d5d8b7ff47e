import ConcurrencyInAction.ParallelAccumulate.Model
import ConcurrencyInAction.Lib.BlockFold
import Mathlib.Algebra.Group.Nat.Defs

/-!
# The blocks of `parallel_accumulate`

The `unsigned long` constants of the function in terms of natural numbers, for a sequence of fewer
than 2⁶³ elements: no operation wraps.  Block `i` starts at `i * block_size`; all blocks but the
last one have `block_size` elements, and the last one ends where the sequence ends.

* `threadCount_eq`, `size_eq`: the number of threads and the block size;
* `start_lt_blockEnd`, `blockEnd_le`: the blocks are non-empty and lie inside the sequence;
* `flatten_blocks`: one after the other they are the sequence.
-/

namespace ConcurrencyInAction.ParallelAccumulate

open BlockFold

namespace Args

variable {α : Type*} (a : Args α)

/-- The number of threads and the block size as natural numbers. -/
def threadCount : ℕ := a.numThreads.toNat

def size : ℕ := a.blockSize.toNat

variable {a}

theorem toNat_length (hlen : a.sequence.length < 2 ^ 63) : a.length.toNat = a.sequence.length := by
  rw [length, UInt64.toNat_ofNat']
  omega

theorem length_ne_zero (hlen : a.sequence.length < 2 ^ 63) (hne : 0 < a.sequence.length) :
    a.length ≠ 0 := by
  intro he
  have hzero := toNat_length hlen
  rw [he, UInt64.toNat_zero] at hzero
  omega

theorem toNat_length_add (hlen : a.sequence.length < 2 ^ 63) :
    (a.length + minPerThread).toNat = a.length.toNat + minPerThread.toNat := by
  have hn := toNat_length hlen
  have h25 : minPerThread.toNat = 25 := rfl
  rw [UInt64.toNat_add]
  omega

theorem toNat_maxThreads (hlen : a.sequence.length < 2 ^ 63) :
    a.maxThreads.toNat = (a.sequence.length + 24) / 25 := by
  have h25 : minPerThread.toNat = 25 := rfl
  have hadd : (a.length + minPerThread).toNat = a.sequence.length + 25 := by
    rw [toNat_length_add hlen, toNat_length hlen, h25]
  have hsub : (a.length + minPerThread - 1).toNat = a.sequence.length + 24 := by
    rw [UInt64.toNat_sub_of_le _ _ (UInt64.le_iff_toNat_le.mpr (by rw [hadd]; simp)), hadd]
    simp
  rw [maxThreads, UInt64.toNat_div, hsub, h25]

theorem toNat_stdMin (x y : UInt64) : (stdMin x y).toNat = min x.toNat y.toNat := by
  unfold stdMin
  split
  · rename_i h
    have h' := UInt64.lt_iff_toNat_lt.mp h
    omega
  · rename_i h
    have h' := UInt64.le_iff_toNat_le.mp (UInt64.not_lt.mp h)
    omega

/-- The number of threads the hardware supports, or two if that is not known. -/
def supported (a : Args α) : ℕ :=
  if a.hardwareConcurrency.toNat = 0 then 2 else a.hardwareConcurrency.toNat

theorem supported_pos : 0 < a.supported := by
  unfold supported
  split <;> omega

theorem threadCount_eq (hlen : a.sequence.length < 2 ^ 63) :
    a.threadCount = min a.supported ((a.sequence.length + 24) / 25) := by
  have hhw : (if a.hardwareThreads ≠ 0 then a.hardwareThreads else 2).toNat = a.supported := by
    have htoNat : a.hardwareThreads.toNat = a.hardwareConcurrency.toNat :=
      UInt32.toNat_toUInt64 _
    have hzero : a.hardwareThreads = 0 ↔ a.hardwareConcurrency.toNat = 0 := by
      rw [← htoNat, ← UInt64.toNat_inj]
      rfl
    unfold supported
    by_cases h : a.hardwareConcurrency.toNat = 0
    · rw [if_pos h, if_neg (not_not.mpr (hzero.mpr h))]
      rfl
    · rw [if_neg h, if_pos (fun he => h (hzero.mp he)), htoNat]
  rw [threadCount, numThreads, toNat_stdMin, toNat_maxThreads hlen, hhw]

theorem threadCount_le (hlen : a.sequence.length < 2 ^ 63) : a.threadCount ≤ a.sequence.length := by
  rw [threadCount_eq hlen]
  omega

theorem threadCount_pos (hlen : a.sequence.length < 2 ^ 63) (hne : 0 < a.sequence.length) :
    0 < a.threadCount := by
  have hs := a.supported_pos
  rw [threadCount_eq hlen]
  omega

theorem size_eq (hlen : a.sequence.length < 2 ^ 63) :
    a.size = a.sequence.length / a.threadCount := by
  rw [size, blockSize, UInt64.toNat_div, toNat_length hlen]
  rfl

theorem toNat_numThreads_sub_one (hpos : 0 < a.threadCount) :
    (a.numThreads - 1).toNat = a.threadCount - 1 := by
  have hone : (1 : UInt64).toNat ≤ a.numThreads.toNat := hpos
  rw [UInt64.toNat_sub_of_le _ _ (UInt64.le_iff_toNat_le.mpr hone)]
  rfl

/-- The counter of the loop does not wrap. -/
theorem toNat_succ {i n : UInt64} (h : i.toNat < n.toNat) : (i + 1).toNat = i.toNat + 1 := by
  have hmax := n.toNat_lt
  rw [UInt64.toNat_add, UInt64.toNat_one]
  omega

/-! ### The blocks -/

/-- The end of block `i`. -/
def blockEnd (a : Args α) (i : ℕ) : ℕ :=
  if i + 1 < a.threadCount then (i + 1) * a.size else a.sequence.length

/-- The elements of block `i`. -/
def block (a : Args α) (i : ℕ) : List α := segment a.sequence (i * a.size) (a.blockEnd i)

theorem blockEnd_of_worker {i : ℕ} (hi : i + 1 < a.threadCount) :
    a.blockEnd i = (i + 1) * a.size := if_pos hi

theorem blockEnd_last : a.blockEnd (a.threadCount - 1) = a.sequence.length := if_neg (by omega)

theorem size_pos (hlen : a.sequence.length < 2 ^ 63) (hpos : 0 < a.threadCount) : 0 < a.size := by
  rw [size_eq hlen]
  exact Nat.div_pos (threadCount_le hlen) hpos

theorem threadCount_mul_size_le (hlen : a.sequence.length < 2 ^ 63) :
    a.threadCount * a.size ≤ a.sequence.length := by
  rw [size_eq hlen]
  exact Nat.mul_div_le _ _

theorem succ_mul_size_le (hlen : a.sequence.length < 2 ^ 63) {i : ℕ} (hi : i < a.threadCount) :
    (i + 1) * a.size ≤ a.sequence.length :=
  Nat.le_trans (Nat.mul_le_mul_right a.size hi) (threadCount_mul_size_le hlen)

theorem blockEnd_le (hlen : a.sequence.length < 2 ^ 63) {i : ℕ} (hi : i < a.threadCount) :
    a.blockEnd i ≤ a.sequence.length := by
  unfold blockEnd
  split
  · exact succ_mul_size_le hlen hi
  · exact Nat.le_refl _

theorem start_lt_blockEnd (hlen : a.sequence.length < 2 ^ 63) {i : ℕ} (hi : i < a.threadCount) :
    i * a.size < a.blockEnd i := by
  have hsize := size_pos hlen (Nat.zero_lt_of_lt hi)
  have hstart : i * a.size < (i + 1) * a.size := by
    rw [Nat.add_mul, Nat.one_mul]
    omega
  unfold blockEnd
  split
  · exact hstart
  · exact Nat.lt_of_lt_of_le hstart (succ_mul_size_le hlen hi)

theorem block_ne_nil (hlen : a.sequence.length < 2 ^ 63) {i : ℕ} (hi : i < a.threadCount) :
    a.block i ≠ [] :=
  segment_ne_nil (start_lt_blockEnd hlen hi) (blockEnd_le hlen hi)

/-- One after the other, the blocks are the sequence. -/
theorem flatten_blocks (hpos : 0 < a.threadCount) :
    ((List.range a.threadCount).map a.block).flatten = a.sequence := by
  have hcount : a.threadCount = (a.threadCount - 1) + 1 := by omega
  have hworkers : (List.range (a.threadCount - 1)).map a.block =
      (List.range (a.threadCount - 1)).map
        fun i => segment a.sequence (i * a.size) ((i + 1) * a.size) := by
    apply List.map_congr_left
    intro i hi
    rw [List.mem_range] at hi
    rw [block, blockEnd_of_worker (by omega)]
  have hlast : a.block (a.threadCount - 1) = a.sequence.drop ((a.threadCount - 1) * a.size) := by
    rw [block, blockEnd_last, segment_length_right]
  rw [hcount, List.range_succ, List.map_append, List.flatten_append, hworkers, List.map_cons,
    List.map_nil, List.flatten_cons, List.flatten_nil, List.append_nil, hlast]
  exact flatten_segments a.sequence a.size (a.threadCount - 1)

end Args

end ConcurrencyInAction.ParallelAccumulate
