import ConcurrencyInAction.Lib.AtomicUpdates
import Mathlib.Algebra.BigOperators.Group.Finset.Basic
import Mathlib.Algebra.BigOperators.Group.Finset.Sigma
import Mathlib.Data.Nat.Cast.Basic
import Mathlib.Data.Fintype.Card
import Mathlib.Data.Nat.Count

/-!
# `increment_with_loop` on a weak memory

Calls of `increment_with_loop` on one atomic counter, in executions that are only as ordered as
atomic operations are by themselves: whatever the memory orders of the load and of the exchanges.

* `next`: a call loads, and exchanges until an exchange has succeeded; one that fails, spuriously or
  not, is a load;
* `next_cases`: a successful exchange puts one more than it has found, and ends its call;
* `exists_upTo`: **the value counts the exchanges**;
* `no_increment_lost`: the last value of the counter is its first one and the number of calls that
  have succeeded.
-/

namespace ConcurrencyInAction.AtomicCounterOrdering

open MemoryModel MemoryModel.Execution

variable {T A : Type*}

inductive Location where
  | counter
  deriving DecidableEq

/-- Where a thread is in its calls, `calls` of which it has still to begin. -/
inductive Thread (A : Type*) where
  | outside (calls : ℕ)
  | exchange (expected : A) (calls : ℕ)
  deriving DecidableEq

/-- The operations of `increment_with_loop`; `desired` is computed from `expected` before each
exchange, and a failure writes the value of the counter to `expected`. -/
def next [DecidableEq A] [Add A] [One A] (l : Thread A) (act : Action Location A) :
    Option (Thread A) :=
  match l, act with
  | .outside (calls + 1), .load _ .counter v => some (.exchange v calls)
  | .exchange expected calls, .update _ .counter v w =>
      if v = expected ∧ w = expected + 1 then some (.outside calls) else none
  | .exchange _ calls, .load _ .counter v => some (.exchange v calls)
  | _, _ => none

/-- The executions of threads that make so many calls each. -/
structure IsExecution [DecidableEq A] [Add A] [One A] (c₀ : A) (calls : T → ℕ)
    (G : Execution T Location A) : Prop where
  initially : G.initially .counter = c₀
  follows : ∀ t, Follows next (.outside (calls t)) (G.actions t)

/-- The exchange of thread `t` at its place `i` succeeds. -/
def succeeds (G : Execution T Location A) (t : T) (i : ℕ) : Bool :=
  match G.action (.nth t i) with
  | some (.update _ _ _ _) => true
  | _ => false

/-- The calls of the thread that have succeeded. -/
def successes (G : Execution T Location A) (t : T) : ℕ :=
  Nat.count (fun i => succeeds G t i) (G.actions t).length

theorem succeeds_load {G : Execution T Location A} {t : T} {i : ℕ} {o : MemoryOrder} {x : Location}
    {v : A} (hact : G.action (.nth t i) = some (.load o x v)) :
    succeeds G t i = false := by
  rw [succeeds, hact]

theorem succeeds_update {G : Execution T Location A} {t : T} {i : ℕ} {o : MemoryOrder}
    {x : Location} {v w : A} (hact : G.action (.nth t i) = some (.update o x v w)) :
    succeeds G t i = true := by
  rw [succeeds, hact]

section Calls

variable [DecidableEq A] [Add A] [One A] {c₀ : A} {calls : T → ℕ} {G : Execution T Location A}
  {rule : Rule} {t : T} {i : ℕ} {act : Action Location A} {v w : A} {o : MemoryOrder}

/-- The calls that have not succeeded yet. -/
def Thread.unfinished : Thread A → ℕ
  | .outside calls => calls
  | .exchange _ calls => calls + 1

/-- **One operation.**  A successful exchange adds one, and ends a call. -/
theorem next_cases {l l' : Thread A} (hact : G.action (.nth t i) = some act)
    (h : next l act = some l') :
    ((∃ o v, act = .load o .counter v) ∧ succeeds G t i = false ∧
      l'.unfinished = l.unfinished) ∨
    ((∃ o v, act = .update o .counter v (v + 1)) ∧ succeeds G t i = true ∧
      l'.unfinished + 1 = l.unfinished) := by
  unfold next at h
  split at h
  · cases h
    exact .inl ⟨⟨_, _, rfl⟩, succeeds_load hact, rfl⟩
  · obtain ⟨⟨hv, hw⟩, hl⟩ := Option.ite_none_right_eq_some.mp h
    subst hv
    subst hw
    cases hl
    exact .inr ⟨⟨_, _, rfl⟩, succeeds_update hact, rfl⟩
  · cases h
    exact .inl ⟨⟨_, _, rfl⟩, succeeds_load hact, rfl⟩
  · cases h

namespace IsExecution

/-- What a thread has finished, and what it has not. -/
theorem count_add_unfinished (hG : IsExecution c₀ calls G) (t : T) :
    ∃ l : Thread A, successes G t + l.unfinished = calls t := by
  refine (hG.follows t).after _ _
    (fun i l => Nat.count (fun i => succeeds G t i) i + l.unfinished = calls t) ?_ ?_
  · rw [Nat.count_zero, Nat.zero_add]
    rfl
  · intro i l act l' hl hact hnext
    rw [Nat.count_succ]
    rcases next_cases hact hnext with ⟨-, hfails, hl'⟩ | ⟨-, hsucceeds, hl'⟩
    · rw [if_neg (Bool.eq_false_iff.mp hfails), hl']
      exact hl
    · rw [if_pos hsucceeds]
      omega

/-- What a thread does at a place. -/
theorem performs (hG : IsExecution c₀ calls G) (h : G.action (.nth t i) = some act) :
    ((∃ o v, act = .load o .counter v) ∧ succeeds G t i = false) ∨
      (∃ o v, act = .update o .counter v (v + 1)) ∧ succeeds G t i = true := by
  obtain ⟨l, l', -, hnext⟩ := (hG.follows t).before _ _ (fun _ _ => True) trivial
    (fun _ _ _ _ _ _ _ => trivial) i act h
  rcases next_cases h hnext with ⟨hload, hfails, -⟩ | ⟨hupdate, hsucceeds, -⟩
  · exact .inl ⟨hload, hfails⟩
  · exact .inr ⟨hupdate, hsucceeds⟩

theorem onlyUpdated (hG : IsExecution c₀ calls G) : G.OnlyUpdated .counter := by
  intro t i hmodifies
  obtain ⟨act, v, hact, hw⟩ := hmodifies.exists_action
  rcases hG.performs hact with ⟨⟨o, v', he⟩, -⟩ | ⟨⟨o, v', he⟩, -⟩
  · subst he
    exact nomatch hw
  · subst he
    exact ⟨o, v', v' + 1, hact⟩

/-- What modifies the counter has succeeded. -/
theorem modifies_iff (hG : IsExecution c₀ calls G) :
    G.Modifies (.nth t i) .counter ↔ succeeds G t i = true := by
  constructor
  · intro h
    obtain ⟨o, v, w, hact⟩ := hG.onlyUpdated t i h
    exact succeeds_update hact
  · intro h
    unfold succeeds at h
    split at h
    · rename_i o x v w hact
      cases x
      exact ⟨w, (writes_iff hact).mpr rfl⟩
    · exact nomatch h

end IsExecution

end Calls

/-! ### The values of the counter -/

section Values

variable [DecidableEq A] [AddMonoidWithOne A] {c₀ : A} {calls : T → ℕ} {G : Execution T Location A}
  {rule : Rule} {t : T} {i n : ℕ} {e : Event T Location} {es : List (Event T Location)} {v w : A}

/-- **The value counts the exchanges**, along the modification order. -/
theorem exists_upTo (hG : IsExecution c₀ calls G) (hc : G.Consistent rule)
    (hw : G.Writes e .counter w) :
    ∃ es, G.UpTo .counter es (G.time e) ∧ w = c₀ + es.length := by
  refine hG.onlyUpdated.induction hc (Q := fun es v => v = c₀ + es.length) ?_ ?_ hw
  · rw [hG.initially, List.length_nil, Nat.cast_zero, add_zero]
  · intro es t i o v w hact hv
    have hw : w = v + 1 := by
      rcases hG.performs hact with ⟨⟨o', v', he⟩, -⟩ | ⟨⟨o', v', he⟩, -⟩
      · exact nomatch he
      · cases he
        rfl
    rw [hw, hv, List.length_append, List.length_singleton, Nat.cast_add, Nat.cast_one, add_assoc]

/-- The exchanges up to the last write are all of them. -/
theorem length_eq_sum [Fintype T] (hG : IsExecution c₀ calls G) (hes : G.UpTo .counter es n)
    (hlast : ∀ b, G.Modifies b .counter → G.time b ≤ n) :
    es.length = ∑ t, successes G t := by
  classical
  have hall : es.toFinset = (Finset.univ.sigma fun t =>
      (Finset.range (G.actions t).length).filter fun i => succeeds G t i = true).image
        fun p => Event.nth p.1 p.2 := by
    ext b
    rw [List.mem_toFinset, hes.mem_iff]
    simp only [Finset.mem_image, Finset.mem_sigma, Finset.mem_univ, true_and, Finset.mem_filter,
      Finset.mem_range, Sigma.exists]
    constructor
    · intro h
      obtain ⟨⟨t, i, hb⟩, hmodifies, -⟩ := h
      subst hb
      exact ⟨t, i, ⟨isSome_action_nth.mp hmodifies.isSome, hG.modifies_iff.mp hmodifies⟩, rfl⟩
    · intro h
      obtain ⟨t, i, ⟨-, hsucceeds⟩, hb⟩ := h
      subst hb
      have hmodifies := hG.modifies_iff.mpr hsucceeds
      exact ⟨⟨t, i, rfl⟩, hmodifies, hlast _ hmodifies⟩
  calc es.length = es.toFinset.card := (List.toFinset_card_of_nodup hes.nodup).symm
    _ = (Finset.univ.sigma fun t =>
          (Finset.range (G.actions t).length).filter fun i => succeeds G t i = true).card := by
        rw [hall]
        refine Finset.card_image_of_injective _ fun p q hpq => ?_
        obtain ⟨t, i⟩ := p
        obtain ⟨u, j⟩ := q
        cases hpq
        rfl
    _ = ∑ t, successes G t := by
        rw [Finset.card_sigma]
        exact Finset.sum_congr rfl fun t _ => (Nat.count_eq_card_filter_range _ _).symm

/-- **No increment is lost**, whatever the memory orders.  A successful exchange has found the first
value of the counter and one for each exchange that has succeeded before it in the modification
order, and puts one more; the exchanges of a thread succeed at most as often as it calls; and the
last value of the counter accounts for every call that has succeeded. -/
theorem no_increment_lost (hG : IsExecution c₀ calls G) (hc : G.Consistent rule) :
    (∀ t i o v w, G.action (.nth t i) = some (.update o .counter v w) →
      ∃ es : List (Event T Location), es.Nodup ∧
        (∀ b, b ∈ es ↔ (∃ u j, b = .nth u j ∧ succeeds G u j = true) ∧
          G.time b < G.time (.nth t i)) ∧
        v = c₀ + es.length ∧ w = c₀ + es.length + 1) ∧
    (∀ t, successes G t ≤ calls t) ∧
    ∀ [Fintype T] e w, G.Writes e .counter w →
      (∀ b, G.Modifies b .counter → G.time b ≤ G.time e) → w = c₀ + ↑(∑ t, successes G t) := by
  refine ⟨fun t i o v w hact => ?_, fun t => ?_, fun e w hw hlast => ?_⟩
  · have hsource := hc.reads_from _ _ _ ((reads_iff hact).mpr rfl)
    obtain ⟨es, hes, hv⟩ := exists_upTo hG hc hsource
    obtain ⟨hlt, hnext⟩ := hc.update _ o .counter v w hact
    have hw : w = v + 1 := by
      rcases hG.performs hact with ⟨⟨o', v', he⟩, -⟩ | ⟨⟨o', v', he⟩, -⟩
      · exact nomatch he
      · cases he
        rfl
    refine ⟨es, hes.nodup, fun b => ?_, hv, by rw [hw, hv]⟩
    rw [hes.mem_iff]
    constructor
    · intro h
      obtain ⟨⟨u, j, hb⟩, hmodifies, hle⟩ := h
      subst hb
      exact ⟨⟨u, j, rfl, hG.modifies_iff.mp hmodifies⟩, Nat.lt_of_le_of_lt hle hlt⟩
    · intro h
      obtain ⟨⟨u, j, hb, hsucceeds⟩, hbefore⟩ := h
      subst hb
      have hmodifies := hG.modifies_iff.mpr hsucceeds
      -- nothing comes between the source and the update
      rcases hnext _ hmodifies with hle | hle
      · exact ⟨⟨u, j, rfl⟩, hmodifies, hle⟩
      · exact absurd hbefore (Nat.not_lt.mpr hle)
  · obtain ⟨l, hl⟩ := hG.count_add_unfinished t
    exact hl ▸ Nat.le_add_right _ _
  · obtain ⟨es, hes, hw⟩ := exists_upTo hG hc hw
    rw [hw, length_eq_sum hG hes hlast]

/-- The second thread has loaded the counter before the first one exchanges it, and its first
exchange fails. -/
def contended : Execution Bool Location ℕ where
  initially _ := 5
  actions
    | false => [.load .relaxed .counter 5, .update .relaxed .counter 5 6]
    | true => [.load .relaxed .counter 5, .load .relaxed .counter 6, .update .relaxed .counter 6 7]
  source
    | .nth true 1 => .nth false 1
    | .nth true 2 => .nth false 1
    | _ => .init .counter
  time
    | .init _ => 0
    | .nth false i => 2 * i + 1
    | .nth true i => if i = 0 then 2 else i + 3

theorem isExecution_contended : IsExecution 5 (fun _ : Bool => 1) contended where
  initially := rfl
  follows t := by
    cases t <;> decide

theorem mem_events_contended {e : Event Bool Location} (h : (contended.action e).isSome) :
    e ∈ contended.events [false, true] [.counter] := by
  refine mem_events (by decide) (fun x => ?_) h
  cases x
  exact List.mem_singleton_self _

theorem consistent_contended : contended.Consistent .cpp20 := by
  refine .of_interleaving (fun e he => mem_events_contended he)
    (by decide) (by decide) (by decide) fun e he => ?_
  have hreads : contended.plainReads (contended.events [false, true] [.counter]) = [] := by decide
  rw [hreads] at he
  exact absurd he List.not_mem_nil

theorem no_increment_lost_contended : 7 = 5 + ∑ t, successes contended t := by
  have hlast : ∀ b ∈ contended.events [false, true] [.counter],
      contended.time b ≤ contended.time (.nth true 2) := by decide
  exact (no_increment_lost isExecution_contended consistent_contended).2.2 (.nth true 2) 7 rfl
    fun b hb => hlast b (mem_events_contended hb.isSome)

end Values

end ConcurrencyInAction.AtomicCounterOrdering
