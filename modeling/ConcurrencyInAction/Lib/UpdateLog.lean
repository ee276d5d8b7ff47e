import Mathlib.Logic.Function.Basic
import Mathlib.Data.Nat.Notation

/-!
# Update logs

A map that is updated at one place at a time, and the list of its updates, the first one first.

* `valuesAt f es n`: the map after the first `n` updates;
* `valuesAt_snoc`, `valuesAt_length_snoc`: another update leaves the past alone, and is the present;
* `valuesAt_eq_of_untouched`: **what is not updated in between is the same at both moments**;
* `valuesAt_eq_of_agree`, `valuesAt_eq_of_differ`: two places that agree all the time, or of two
  values always have different ones, do not change.
-/

namespace UpdateLog

variable {Y V : Type*} [DecidableEq Y]

/-- One update. -/
def update (f : Y → V) (e : Y × V) : Y → V := Function.update f e.1 e.2

/-- The map after the first `n` updates. -/
def valuesAt (f : Y → V) (es : List (Y × V)) (n : ℕ) : Y → V := (es.take n).foldl update f

/-- No update of `y` from the `a`-th to before the `b`-th. -/
def Untouched (es : List (Y × V)) (y : Y) (a b : ℕ) : Prop :=
  ∀ k v, a ≤ k → k < b → es[k]? ≠ some (y, v)

variable {f : Y → V} {es : List (Y × V)} {y : Y} {a b n : ℕ}

theorem update_of_ne {x : Y} {v : V} (h : y ≠ x) : update f (x, v) y = f y := by
  rw [update, Function.update_of_ne h]

theorem valuesAt_snoc (e : Y × V) (h : n ≤ es.length) :
    valuesAt f (es ++ [e]) n = valuesAt f es n := by
  rw [valuesAt, valuesAt, List.take_append_of_le_length h]

theorem valuesAt_length_snoc (e : Y × V) :
    valuesAt f (es ++ [e]) (es ++ [e]).length = update (valuesAt f es es.length) e := by
  rw [valuesAt, valuesAt, List.take_length, List.take_length, List.foldl_append]
  rfl

theorem valuesAt_succ_of_ne (h : ∀ v, es[n]? ≠ some (y, v)) :
    valuesAt f es (n + 1) y = valuesAt f es n y := by
  rw [valuesAt, valuesAt, List.take_add_one, List.foldl_append]
  cases he : es[n]? with
  | none => rfl
  | some e =>
    obtain ⟨x, v⟩ := e
    have hx : y ≠ x := by
      intro hyx
      subst hyx
      exact h v he
    exact update_of_ne hx

/-- **What is not updated in between is the same at both moments.** -/
theorem valuesAt_eq_of_untouched (hle : a ≤ b) (h : Untouched es y a b) :
    valuesAt f es b y = valuesAt f es a y := by
  induction hle with
  | refl => rfl
  | @step b hle ih =>
    have hlast : ∀ v, es[b]? ≠ some (y, v) := fun v => h b v hle (Nat.lt_succ_self b)
    rw [valuesAt_succ_of_ne hlast]
    exact ih fun k v hk hkb => h k v hk (Nat.lt_succ_of_lt hkb)

/-- An update changes one place at most. -/
theorem valuesAt_succ_or {x : Y} (hxy : x ≠ y) (f : Y → V) (es : List (Y × V)) (n : ℕ) :
    valuesAt f es (n + 1) x = valuesAt f es n x ∨ valuesAt f es (n + 1) y = valuesAt f es n y := by
  by_cases hx : ∀ v, es[n]? ≠ some (x, v)
  · exact .inl (valuesAt_succ_of_ne hx)
  · refine .inr (valuesAt_succ_of_ne fun v hy => hx fun w hw => hxy ?_)
    exact congrArg Prod.fst (Option.some.inj (hw.symm.trans hy))

/-- **Two places that agree all the time do not change.** -/
theorem valuesAt_eq_of_agree {x : Y} (hxy : x ≠ y) (hle : a ≤ b)
    (h : ∀ n, a ≤ n → n ≤ b → valuesAt f es n x = valuesAt f es n y) :
    valuesAt f es b x = valuesAt f es a x := by
  induction hle with
  | refl => rfl
  | @step b hle ih =>
    have hnow := h b hle (Nat.le_succ b)
    have hnext := h (b + 1) (Nat.le_succ_of_le hle) (Nat.le_refl _)
    have hpast := ih fun n hn hnb => h n hn (Nat.le_succ_of_le hnb)
    show valuesAt f es (b + 1) x = _
    rcases valuesAt_succ_or hxy f es b with hx | hy
    · rw [hx, hpast]
    · rw [hnext, hy, ← hnow, hpast]

/-- **Two places that differ all the time, with two values between them, do not change.** -/
theorem valuesAt_eq_of_differ {x : Y} (hxy : x ≠ y) (hle : a ≤ b)
    (htwo : ∀ u v w : V, u = v ∨ v = w ∨ u = w)
    (h : ∀ n, a ≤ n → n ≤ b → valuesAt f es n x ≠ valuesAt f es n y) :
    valuesAt f es b y = valuesAt f es a y := by
  induction hle with
  | refl => rfl
  | @step b hle ih =>
    have hnow := h b hle (Nat.le_succ b)
    have hnext := h (b + 1) (Nat.le_succ_of_le hle) (Nat.le_refl _)
    have hpast := ih fun n hn hnb => h n hn (Nat.le_succ_of_le hnb)
    show valuesAt f es (b + 1) y = _
    rcases valuesAt_succ_or hxy f es b with hx | hy
    · rw [hx] at hnext
      -- the place that has not changed leaves one value for the other
      rcases htwo (valuesAt f es (b + 1) y) (valuesAt f es b x) (valuesAt f es b y)
        with he | he | he
      · exact absurd he.symm hnext
      · exact absurd he hnow
      · rw [he, hpast]
    · rw [hy, hpast]

end UpdateLog
