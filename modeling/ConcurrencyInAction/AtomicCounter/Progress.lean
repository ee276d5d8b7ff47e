import ConcurrencyInAction.AtomicCounter.Increments

/-!
# Lock-free progress

A call of `increment_with_loop` only goes round its loop because another call has got through.

* `successesSinceLoad`: the successes of the other calls since the initial load of a call;
* `Charged`: a call has failed at most as often, and less often while the counter is not what its
  `expected` says;
* `SucceededBefore`: one call got through before another one did; each failure of a call is charged
  to a call that succeeded before it (`failures_le_card`);
* `lock_free_progress`: the two bounds in every reachable state.
-/

namespace ConcurrencyInAction.AtomicCounter

open Interleaving

variable {T A : Type*} [DecidableEq T]

/-- A successful operation of another call. -/
def succeededOther (t : T) : Event T → Bool
  | .succeeded u => u ≠ t
  | _ => false

/-- The successful operations of the other calls since the initial load of the call; before that,
all of them. -/
def successesSinceLoad (t : T) (history : List (Event T)) : ℕ :=
  (history.takeWhile (· ≠ .loaded t)).countP (succeededOther t)

theorem eq_succeeded_of_other {t : T} {e : Event T} (h : succeededOther t e = true) :
    ∃ u, e = .succeeded u ∧ u ≠ t := by
  cases e with
  | succeeded u => exact ⟨u, rfl, of_decide_eq_true h⟩
  | loaded _ | failed _ | failedSpuriously _ => exact nomatch h

theorem successesSinceLoad_cons (t : T) (e : Event T) (h : List (Event T)) (he : e ≠ .loaded t) :
    successesSinceLoad t (e :: h) =
      successesSinceLoad t h + if succeededOther t e then 1 else 0 := by
  rw [successesSinceLoad, List.takeWhile_cons_of_pos (by simpa using he), List.countP_cons]
  rfl

/-- An operation that is neither the load of the call nor a success of another one. -/
theorem successesSinceLoad_quiet (t : T) (e : Event T) (h : List (Event T)) (he : e ≠ .loaded t)
    (hother : succeededOther t e = false) :
    successesSinceLoad t (e :: h) = successesSinceLoad t h := by
  rw [successesSinceLoad_cons t e h he, hother]
  rfl

/-- Only a failure of the call counts as one. -/
theorem count_failed_cons (t : T) (e : Event T) (h : List (Event T)) (he : e ≠ .failed t) :
    (e :: h).count (.failed t) = h.count (.failed t) := List.count_cons_of_ne he

/-- The value that a call expects in the counter. -/
def Point.expected : Point A → Option A
  | .compute expected => some expected
  | .exchange expected _ => some expected
  | .recompute expected _ => some expected
  | .load | .returned => none

/-- Every failure of the call is charged to a success of another one, and there is a success left
over while the counter is not what the call expects. -/
structure Charged (t : T) (g : Shared T A) (l : Point A) : Prop where
  none_at_load : l = .load → g.history.count (.failed t) = 0
  le : g.history.count (.failed t) ≤ successesSinceLoad t g.history
  lt : ∀ {expected : A}, l.expected = some expected → g.counter ≠ expected →
    g.history.count (.failed t) < successesSinceLoad t g.history

/-- The other calls leave the counter alone or get through. -/
structure Unhindered (u : T) (g g' : Shared T A) : Prop where
  failed_eq : g'.history.count (.failed u) = g.history.count (.failed u)
  quiet_or_success :
    (g'.counter = g.counter ∧
      successesSinceLoad u g'.history = successesSinceLoad u g.history) ∨
    successesSinceLoad u g'.history = successesSinceLoad u g.history + 1

theorem Charged.init (c₀ : A) (t : T) :
    Charged t (initial c₀ : Config T (Shared T A) (Point A)).shared .load where
  none_at_load _ := rfl
  le := Nat.le_refl 0
  lt hexpected := nomatch hexpected

section Steps

variable [Add A] [One A] {t u : T} {c : Choice} {g g' : Shared T A} {l l' : Point A}

omit [Add A] [One A] in
theorem Charged.stable (hr : Unhindered u g g') (h : Charged u g l) : Charged u g' l where
  none_at_load hl := hr.failed_eq.trans (h.none_at_load hl)
  le := by
    have hle := h.le
    rw [hr.failed_eq]
    rcases hr.quiet_or_success with ⟨-, hsame⟩ | hmore <;> omega
  lt := by
    intro expected hl hne
    rw [hr.failed_eq]
    rcases hr.quiet_or_success with ⟨hcounter, hsame⟩ | hmore
    · rw [hcounter] at hne
      rw [hsame]
      exact h.lt hl hne
    · have hle := h.le
      omega

omit [Add A] [One A] in
/-- An operation that leaves the counter alone does not hinder the other calls. -/
theorem unhindered_record {e : Event T} (hload : e ≠ .loaded u) (hfailed : e ≠ .failed u)
    (hother : succeededOther u e = false) : Unhindered u g (g.record e) where
  failed_eq := count_failed_cons u e g.history hfailed
  quiet_or_success := .inl ⟨rfl, successesSinceLoad_quiet u e g.history hload hother⟩

/-- **Every step keeps the account of its call**, and hinders the others only by getting
through. -/
theorem Charged.step (h : Charged t g l) (hstep : Step t g l c g' l') :
    Charged t g' l' ∧ ∀ u, u ≠ t → Unhindered u g g' := by
  cases hstep with
  | loads =>
    have hnone : (Event.loaded t :: g.history).count (.failed t) = 0 := by
      rw [count_failed_cons t (.loaded t) g.history nofun]
      exact h.none_at_load rfl
    refine ⟨⟨nofun, ?_, fun hexpected hne => ?_⟩, fun u hu => ?_⟩
    · show (Event.loaded t :: g.history).count (.failed t) ≤ _
      rw [hnone]
      exact Nat.zero_le _
    · cases hexpected
      exact absurd rfl hne
    · exact unhindered_record (fun he => hu (Event.loaded.inj he).symm) nofun rfl
  | computes expected =>
    refine ⟨⟨nofun, h.le, fun hexpected => h.lt hexpected⟩, fun u _ => ?_⟩
    exact ⟨rfl, .inl ⟨rfl, rfl⟩⟩
  | recomputes expected desired =>
    refine ⟨⟨nofun, h.le, fun hexpected => h.lt hexpected⟩, fun u _ => ?_⟩
    exact ⟨rfl, .inl ⟨rfl, rfl⟩⟩
  | succeeds desired =>
    have hfailed (u : T) := count_failed_cons u (.succeeded t) g.history nofun
    refine ⟨⟨nofun, ?_, nofun⟩, fun u hu => ⟨hfailed u, .inr ?_⟩⟩
    · have hown : succeededOther t (.succeeded t) = false := by simp [succeededOther]
      show (Event.succeeded t :: g.history).count (.failed t) ≤
        successesSinceLoad t (.succeeded t :: g.history)
      rw [hfailed, successesSinceLoad_quiet t (.succeeded t) g.history nofun hown]
      exact h.le
    · have hother : succeededOther u (.succeeded t) = true := by
        simpa [succeededOther] using Ne.symm hu
      show successesSinceLoad u (.succeeded t :: g.history) = _
      rw [successesSinceLoad_cons u (.succeeded t) g.history nofun, if_pos hother]
  | fails desired hne =>
    have hlt := h.lt rfl hne
    have hle : (Event.failed t :: g.history).count (.failed t) ≤
        successesSinceLoad t (.failed t :: g.history) := by
      rw [List.count_cons_self, successesSinceLoad_quiet t (.failed t) g.history nofun rfl]
      omega
    refine ⟨⟨nofun, hle, fun hexpected hne' => ?_⟩, fun u hu => ?_⟩
    · -- a failure has brought `expected` up to date
      cases hexpected
      exact absurd rfl hne'
    · exact unhindered_record nofun (fun he => hu (Event.failed.inj he).symm) rfl
  | failsSpuriously desired =>
    have hle : (Event.failedSpuriously t :: g.history).count (.failed t) ≤
        successesSinceLoad t (.failedSpuriously t :: g.history) := by
      rw [count_failed_cons t (.failedSpuriously t) g.history nofun,
        successesSinceLoad_quiet t (.failedSpuriously t) g.history nofun rfl]
      exact h.le
    refine ⟨⟨nofun, hle, fun hexpected hne' => ?_⟩, fun u _ => ?_⟩
    · cases hexpected
      exact absurd rfl hne'
    · exact unhindered_record nofun nofun rfl

omit [DecidableEq T] in
/-- What a step records: a failure only for the call that takes it and goes round its loop. -/
theorem Step.history_eq (hstep : Step t g l c g' l') : g'.history = g.history ∨
      ∃ e, g'.history = e :: g.history ∧ ∀ u, e = .failed u → u = t ∧ l' ≠ .returned := by
  cases hstep with
  | computes | recomputes => exact .inl rfl
  | loads | succeeds | failsSpuriously => exact .inr ⟨_, rfl, nofun⟩
  | fails desired hne =>
    refine .inr ⟨_, rfl, fun u hu => ?_⟩
    cases hu
    exact ⟨rfl, nofun⟩

end Steps

section Runs

variable [Add A] [One A] [DecidableEq A] {c₀ : A} {s : Config T (Shared T A) (Point A)}

/-- In every reachable state each call has failed at most as often as others have got through. -/
theorem reachable_charged (hs : Reachable program anyStep (initial c₀) s) (t : T) :
    Charged t s.shared (s.locals t) := by
  have h : RelyGuarantee (program (T := T) (A := A)) anyStep (fun _ => True) Charged Unhindered :=
    { stable := fun _ _ _ _ hr h => h.stable hr
      step := fun s t c g l _ hP _ hp => ⟨trivial, (hP t).step (step_of_program hp)⟩ }
  exact (hs.rely_guarantee h ⟨trivial, Charged.init c₀⟩).2 t

end Runs

/-! ### All calls together -/

/-- The call `u` got through, and the call `t` had not done so yet. -/
def SucceededBefore (u t : T) : List (Event T) → Prop
  | [] => False
  | e :: h => e = .succeeded u ∧ u ≠ t ∧ .succeeded t ∉ h ∨ SucceededBefore u t h

instance SucceededBefore.decidable (u t : T) :
    ∀ h : List (Event T), Decidable (SucceededBefore u t h)
  | [] => isFalse id
  | e :: h =>
      have : Decidable (SucceededBefore u t h) := SucceededBefore.decidable u t h
      inferInstanceAs (Decidable
        (e = .succeeded u ∧ u ≠ t ∧ .succeeded t ∉ h ∨ SucceededBefore u t h))

omit [DecidableEq T] in
theorem SucceededBefore.mem {u t : T} {h : List (Event T)} (hbefore : SucceededBefore u t h) :
    .succeeded u ∈ h := by
  induction h with
  | nil => exact hbefore.elim
  | cons e h ih =>
    rcases hbefore with ⟨rfl, -, -⟩ | hbefore
    · exact List.mem_cons_self
    · exact List.mem_cons_of_mem e (ih hbefore)

omit [DecidableEq T] in
/-- Of two calls only one can have got through before the other. -/
theorem SucceededBefore.asymm {u t : T} {h : List (Event T)} (hut : SucceededBefore u t h) :
    ¬ SucceededBefore t u h := by
  intro htu
  induction h with
  | nil => exact hut
  | cons e h ih =>
    rcases hut with ⟨rfl, hne, ht⟩ | hut
    · rcases htu with ⟨he, -, -⟩ | htu
      · exact hne (Event.succeeded.inj he)
      · exact ht htu.mem
    · rcases htu with ⟨rfl, -, hu⟩ | htu
      · exact hu hut.mem
      · exact ih hut htu

section Charges

variable [Fintype T] {t : T} {h : List (Event T)}

/-- The calls that got through before the call `t` did. -/
def predecessors (t : T) (h : List (Event T)) : Finset T :=
  Finset.univ.filter fun u => SucceededBefore u t h

theorem mem_predecessors {u : T} : u ∈ predecessors t h ↔ SucceededBefore u t h := by
  rw [predecessors, Finset.mem_filter]
  exact and_iff_right (Finset.mem_univ u)

theorem predecessors_subset_cons (t : T) (e : Event T) (h : List (Event T)) :
    predecessors t h ⊆ predecessors t (e :: h) := by
  intro u hu
  rw [mem_predecessors] at hu ⊢
  exact .inr hu

/-- While a call has not got through, the successes of the others are those of different calls. -/
theorem countP_le_card_predecessors (hcount : ∀ u, h.count (.succeeded u) ≤ 1)
    (ht : .succeeded t ∉ h) : h.countP (succeededOther t) ≤ (predecessors t h).card := by
  induction h with
  | nil => exact Nat.zero_le _
  | cons e h ih =>
    have hcount' (u : T) : h.count (.succeeded u) ≤ 1 :=
      (List.count_le_count_cons).trans (hcount u)
    have ht' : .succeeded t ∉ h := fun hmem => ht (List.mem_cons_of_mem e hmem)
    have hih := ih hcount' ht'
    rw [List.countP_cons]
    cases he : succeededOther t e with
    | false =>
      exact hih.trans (Finset.card_le_card (predecessors_subset_cons t e h))
    | true =>
      obtain ⟨u, rfl, hne⟩ := eq_succeeded_of_other he
      -- the call that gets through now has not done so before
      have hnew : u ∉ predecessors t h := by
        intro hmem
        have htwice := hcount u
        rw [List.count_cons_self] at htwice
        have hpos := List.count_pos_iff.mpr (mem_predecessors.mp hmem).mem
        omega
      have hinsert : insert u (predecessors t h) ⊆ predecessors t (.succeeded u :: h) := by
        apply Finset.insert_subset _ (predecessors_subset_cons t _ h)
        exact mem_predecessors.mpr (.inl ⟨rfl, hne, ht'⟩)
      have hcard := Finset.card_le_card hinsert
      rw [Finset.card_insert_of_notMem hnew] at hcard
      rw [if_pos rfl]
      omega

variable [Add A] [One A] [DecidableEq A] {c₀ : A} {s : Config T (Shared T A) (Point A)}

/-- While a call is running, its failures are charged to all the calls that have got through. -/
theorem failures_le_card_of_running (hs : Reachable program anyStep (initial c₀) s) {t : T}
    (ht : s.locals t ≠ .returned) :
    s.shared.history.count (.failed t) ≤ (predecessors t s.shared.history).card := by
  have hnot := (reachable_assertion hs t).not_succeeded ht
  calc s.shared.history.count (.failed t)
      ≤ successesSinceLoad t s.shared.history := (reachable_charged hs t).le
    _ ≤ s.shared.history.countP (succeededOther t) :=
        (List.takeWhile_sublist _).countP_le
    _ ≤ (predecessors t s.shared.history).card :=
        countP_le_card_predecessors (count_succeeded_le_one hs) hnot

/-- **Each failure of a call is charged to a call that got through before it.** -/
theorem failures_le_card (hs : Reachable program anyStep (initial c₀) s) (t : T) :
    s.shared.history.count (.failed t) ≤ (predecessors t s.shared.history).card := by
  revert t
  apply hs.invariant (I := fun s => ∀ t,
    s.shared.history.count (.failed t) ≤ (predecessors t s.shared.history).card)
  · exact fun t => Nat.zero_le _
  · intro s u c g l hr hI hok hp t
    have hr' := hr.step hok (Config.step_eq_some.mpr ⟨g, l, hp, rfl⟩)
    by_cases ht : Function.update s.locals u l t = .returned
    · -- a call that has returned fails no more, and its predecessors remain
      rcases (step_of_program hp).history_eq with hsame | ⟨e, hcons, hfailed⟩
      · show g.history.count _ ≤ (predecessors t g.history).card
        rw [hsame]
        exact hI t
      · have hquiet : e ≠ .failed t := by
          intro he
          obtain ⟨rfl, hl⟩ := hfailed t he
          rw [Function.update_self] at ht
          exact hl ht
        show g.history.count _ ≤ (predecessors t g.history).card
        rw [hcons, count_failed_cons t e s.shared.history hquiet]
        exact (hI t).trans (Finset.card_le_card (predecessors_subset_cons t e _))
    · exact failures_le_card_of_running hr' ht

end Charges

/-- **Lock-free progress.** -/
theorem lock_free_progress [Add A] [One A] [DecidableEq A] {c₀ : A}
    {s : Config T (Shared T A) (Point A)} (hs : Reachable program anyStep (initial c₀) s) :
    (∀ t, s.shared.history.count (.failed t) ≤ successesSinceLoad t s.shared.history) ∧
      ∀ _ : Fintype T, ∑ t, s.shared.history.count (.failed t) ≤
        Fintype.card T * (Fintype.card T - 1) / 2 := by
  refine ⟨fun t => (reachable_charged hs t).le, fun _ => ?_⟩
  calc ∑ t, s.shared.history.count (.failed t)
      ≤ ∑ t, (predecessors t s.shared.history).card :=
        Finset.sum_le_sum fun t _ => failures_le_card hs t
    _ ≤ Fintype.card T * (Fintype.card T - 1) / 2 :=
        sum_charges_le (fun u t => SucceededBefore u t s.shared.history) fun _ _ h => h.asymm

theorem lock_free_progress_contendedRun :
    ∑ t, (((initial (5 : ℤ)).run program contendedRun).get (by decide)).shared.history.count
      (.failed t) ≤ Fintype.card Bool * (Fintype.card Bool - 1) / 2 := by
  have hr := Reachable.of_run_any contendedRun
    (Option.some_get (x := (initial (5 : ℤ)).run program contendedRun) (by decide)).symm
  exact (lock_free_progress hr).2 inferInstance

end ConcurrencyInAction.AtomicCounter
