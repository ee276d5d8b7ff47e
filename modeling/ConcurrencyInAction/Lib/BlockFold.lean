import Mathlib.Data.List.Basic

/-!
# Folding a list block by block

* `segment xs first last`: the elements from position `first` up to `last`;
* `foldl_blocks`: for an associative operation with a left unit, folding the folds of non-empty
  blocks is folding the whole list;
* `flatten_segments`: the segments of one length, and the rest after them, make up the list.
-/

namespace BlockFold

variable {α : Type*} {xs : List α} {op : α → α → α} {e : α}

/-- The elements at the positions `first`, ..., `last - 1`. -/
def segment (xs : List α) (first last : ℕ) : List α := (xs.drop first).take (last - first)

theorem segment_self (xs : List α) (first : ℕ) : segment xs first first = [] := by
  rw [segment, Nat.sub_self, List.take_zero]

theorem segment_length_right (xs : List α) (first : ℕ) :
    segment xs first xs.length = xs.drop first := by
  rw [segment, ← List.length_drop, List.take_length]

/-- One element more. -/
theorem segment_succ {first it : ℕ} {x : α} (hle : first ≤ it) (hx : xs[it]? = some x) :
    segment xs first (it + 1) = segment xs first it ++ [x] := by
  have hlen : it + 1 - first = (it - first) + 1 := by omega
  have hget : (xs.drop first)[it - first]? = some x := by
    rw [List.getElem?_drop, show first + (it - first) = it by omega]
    exact hx
  rw [segment, segment, hlen, List.take_add_one, hget]
  rfl

theorem segment_ne_nil {first last : ℕ} (hlt : first < last) (hle : last ≤ xs.length) :
    segment xs first last ≠ [] := by
  rw [segment, ← List.length_pos_iff, List.length_take, List.length_drop]
  omega

/-- The first `m` segments of length `size`, and what comes after them. -/
theorem flatten_segments (xs : List α) (size m : ℕ) :
    ((List.range m).map fun i => segment xs (i * size) ((i + 1) * size)).flatten ++
      xs.drop (m * size) = xs := by
  induction m with
  | zero => simp
  | succ m ih =>
    have hseg : segment xs (m * size) ((m + 1) * size) ++ xs.drop ((m + 1) * size) =
        xs.drop (m * size) := by
      have hsize : (m + 1) * size - m * size = size := by
        rw [Nat.add_mul, Nat.one_mul, Nat.add_sub_cancel_left]
      have hdrop : xs.drop ((m + 1) * size) = (xs.drop (m * size)).drop size := by
        rw [List.drop_drop, Nat.add_mul, Nat.one_mul]
      rw [segment, hsize, hdrop, List.take_append_drop]
    rw [List.range_succ, List.map_append, List.flatten_append, List.append_assoc]
    simp only [List.map_cons, List.map_nil, List.flatten_cons, List.flatten_nil, List.append_nil]
    rw [hseg, ih]

/-- The fold of a non-empty block from the unit, added to `a`, is the fold of the block from `a`. -/
theorem op_foldl_of_ne_nil (hassoc : ∀ a b c, op (op a b) c = op a (op b c))
    (hunit : ∀ a, op e a = a) {block : List α} (hne : block ≠ []) (a : α) :
    op a (block.foldl op e) = block.foldl op a := by
  have : Std.Associative op := ⟨hassoc⟩
  cases block with
  | nil => exact absurd rfl hne
  | cons x rest => rw [List.foldl_cons, List.foldl_cons, hunit, List.foldl_assoc]

/-- **Folding block by block.** -/
theorem foldl_blocks (hassoc : ∀ a b c, op (op a b) c = op a (op b c)) (hunit : ∀ a, op e a = a)
    (blocks : List (List α)) (hne : ∀ block ∈ blocks, block ≠ []) (init : α) :
    (blocks.map (List.foldl op e)).foldl op init = blocks.flatten.foldl op init := by
  induction blocks generalizing init with
  | nil => rfl
  | cons block rest ih =>
    have hblock : block ≠ [] := hne block List.mem_cons_self
    have hrest : ∀ b ∈ rest, b ≠ [] := fun b hb => hne b (List.mem_cons_of_mem block hb)
    rw [List.map_cons, List.foldl_cons, op_foldl_of_ne_nil hassoc hunit hblock, ih hrest,
      List.flatten_cons, List.foldl_append]

end BlockFold
