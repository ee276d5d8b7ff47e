import ConcurrencyInAction.MultithreadCompareExchange.Outcome

/-!
# How the function ends

* `weight`: the steps that a party has still to take, while nobody changes the counter.  An exchange
  that succeeds makes every other call go round once more, and pays for that;
* `Step.weight_lt`: **every step but a spurious failure is paid for**;
* `exists_step`: until the function has ended, somebody can take a step;
* `function_ends`: every run ends, with all threads finished, unless a thread could not be started.
-/

namespace ConcurrencyInAction.MultithreadCompareExchange

open Interleaving

variable {A : Type*} {n : ℕ} [DecidableEq A]

/-- The steps that a party has still to take, with the counter at `counter`.  A call holds as much
more as its success will cost the others. -/
def weight (n : ℕ) (counter : A) : Thread A → ℕ
  | .reserve => 2 * n + 5
  | .emplaceBack i => n - i + (n + 4)
  | .join i => n - i + 3
  | .destroy _ => 2
  | .left _ | .terminated => 0
  | .unstarted => 2 * (n + 1) + 7
  | .call .load => 2 * (n + 1) + 6
  | .call (.compute expected) => 2 * (n + 1) + if expected = counter then 3 else 5
  | .call (.exchange expected _) => 2 * (n + 1) + if expected = counter then 2 else 4
  | .call (.recompute expected _) => 2 * (n + 1) + if expected = counter then 3 else 5
  | .call .returned => 1
  | .finished | .undefined => 0

/-- Another value of the counter makes a call go round once more. -/
theorem weight_le (counter counter' : A) (l : Thread A) :
    weight n counter' l ≤ weight n counter l + 2 := by
  cases l with
  | call k => cases k <;> simp only [weight] <;> (try split) <;> (try split) <;> omega
  | _ => exact Nat.le_add_right _ _

variable [Add A] [One A]

/-- A step inside a call. -/
theorem weight_call_lt {i : Fin n} {d : AtomicCounter.Choice}
    {g g' : AtomicCounter.Shared (Party n) A} {l l' : AtomicCounter.Point A}
    (hd : d ≠ .spurious) (hstep : AtomicCounter.Step (some i) g l d g' l') :
    ∃ k, (∀ l, weight n g'.counter l ≤ weight n g.counter l + k) ∧
      weight n g'.counter (.call l') + k * (n + 1) < weight n g.counter (.call l) := by
  have hquiet : ∀ l : Thread A, weight n g.counter l ≤ weight n g.counter l + 0 :=
    fun l => Nat.le_refl _
  cases hstep with
  | loads =>
    refine ⟨0, hquiet, ?_⟩
    simp only [weight, AtomicCounter.Shared.record, if_true]
    omega
  | computes expected =>
    refine ⟨0, hquiet, ?_⟩
    simp only [weight]
    split <;> omega
  | succeeds desired =>
    refine ⟨2, weight_le _ _, ?_⟩
    simp only [weight, if_true]
    omega
  | fails desired hne =>
    refine ⟨0, hquiet, ?_⟩
    simp only [weight, AtomicCounter.Shared.record, if_true, if_neg hne.symm]
    omega
  | failsSpuriously desired => exact absurd rfl hd
  | recomputes expected desired =>
    refine ⟨0, hquiet, ?_⟩
    simp only [weight]
    split <;> omega

/-- **Every step is paid for.** -/
theorem Step.weight_lt {t : Party n} {c : Choice} {g g' : Shared n A} {l l' : Thread A}
    (hc : c ≠ .spurious) (hstep : Step n g t c l g' l') :
    ∃ k, (∀ l, weight n g'.counter.counter l ≤ weight n g.counter.counter l + k) ∧
      weight n g'.counter.counter l' + k * (n + 1) < weight n g.counter.counter l := by
  have hquiet : ∀ l : Thread A,
      weight n g.counter.counter l ≤ weight n g.counter.counter l + 0 := fun l => Nat.le_refl _
  cases hstep with
  | reserves | reserveThrows | starts _ | startThrows _ | startedAll _ | joins _ _ | joinedAll _
  | terminates _ | leaves _ | begins _ | finishes =>
    refine ⟨0, hquiet, ?_⟩
    simp only [weight]
    omega
  | calls hd hp =>
    refine weight_call_lt ?_ (AtomicCounter.step_of_program hp)
    intro hspurious
    subst hspurious
    cases c with
    | spurious => exact hc rfl
    | run | throws => exact nomatch hd
  | @dangles i c l hgone =>
    refine ⟨0, hquiet, ?_⟩
    cases l with
    | returned =>
      show 0 + 0 * (n + 1) < 1
      omega
    | load | compute _ | exchange _ _ | recompute _ _ =>
      simp only [weight]
      omega

/-! ### Who can go on -/

/-- The function has ended, or the program with it. -/
def Ended (s : Config (Party n) (Shared n A) (Thread A)) : Prop :=
  (∃ o, s.locals none = .left o) ∨ s.locals none = .terminated

def notSpurious (_ : Config (Party n) (Shared n A) (Thread A)) (_ : Party n) (c : Choice) : Prop :=
  c ≠ .spurious

variable {c₀ : A} {s : Config (Party n) (Shared n A) (Thread A)}

theorem not_terminated (hs : Reachable (program n) anyStep (initial n c₀) s) (hend : ¬ Ended s) :
    s.shared.terminated = false := by
  have hprogress := reachable_progress hs
  rw [Ended, not_or, not_exists] at hend
  generalize s.locals none = l at hprogress hend
  cases l with
  | reserve | emplaceBack i | join i => exact hprogress.2.1
  | destroy o => cases o <;> exact hprogress.2.1
  | left o => exact absurd rfl (hend.1 o)
  | terminated => exact absurd rfl hend.2
  | unstarted | call _ | finished | undefined => exact hprogress.elim

/-- A call goes on until it has got through. -/
theorem exists_call_step {i : Fin n} {g : Shared n A} (halive : g.alive = true)
    (k : AtomicCounter.Point A) : ∃ r, thread i g (.call k) .run = some r := by
  have hinCall : (∃ r, AtomicCounter.program (some i) .run g.counter k = some r) →
      k ≠ .returned → ∃ r, thread i g (.call k) .run = some r := by
    intro h hk
    obtain ⟨r, hr⟩ := h
    refine ⟨({ g with counter := r.1 }, .call r.2), ?_⟩
    cases k with
    | returned => exact absurd rfl hk
    | load | compute _ | exchange _ _ | recompute _ _ =>
      simp only [thread, halive, Bool.not_true, Bool.and_false, Bool.false_eq_true, if_false,
        Choice.inCall, Option.bind_some, hr, Option.map_some]
  cases k with
  | returned => exact ⟨_, rfl⟩
  | load | compute _ | recompute _ _ => exact hinCall ⟨_, rfl⟩ nofun
  | exchange expected desired =>
    refine hinCall ?_ nofun
    by_cases hc : g.counter.counter = expected
    · exact ⟨_, if_pos hc⟩
    · exact ⟨_, if_neg hc⟩

/-- A thread that the function waits for can take a step. -/
theorem exists_thread_step (hs : Reachable (program n) anyStep (initial n c₀) s) {i : Fin n}
    (hi : i < s.shared.started) (hnot : s.shared.finished i ≠ true) :
    ∃ r, thread i s.shared (s.locals (some i)) .run = some r := by
  have hthread := reachable_inThread hs i
  rcases hthread.point with hp | hp | ⟨k, hp⟩
  · rw [hp]
    exact ⟨_, if_pos hi⟩
  · exact absurd (hthread.finished_iff.mpr hp) hnot
  · rw [hp] at hthread ⊢
    exact exists_call_step (hthread.alive (reachable_assertion hs).1) k

/-- Until the function has ended, somebody can take a step. -/
theorem exists_step (hs : Reachable (program n) anyStep (initial n c₀) s) (hend : ¬ Ended s) :
    ∃ t s', s.step (program n) t .run = some s' := by
  have hgoes : ¬ s.shared.terminated = true := Bool.eq_false_iff.mp (not_terminated hs hend)
  have hthread : ∀ i, (∃ r, thread i s.shared (s.locals (some i)) .run = some r) →
      ∃ t s', s.step (program n) t .run = some s' := by
    intro i h
    obtain ⟨r, hr⟩ := h
    exact ⟨some i, _, Config.step_eq_some.mpr ⟨r.1, r.2, (if_neg hgoes).trans hr, rfl⟩⟩
  have hfunction : (∃ r, statements n s.shared (s.locals none) .run = some r) →
      ∃ t s', s.step (program n) t .run = some s' := by
    intro h
    obtain ⟨r, hr⟩ := h
    exact ⟨none, _, Config.step_eq_some.mpr ⟨r.1, r.2, (if_neg hgoes).trans hr, rfl⟩⟩
  have hprogress := reachable_progress hs
  rw [Ended, not_or, not_exists] at hend
  cases hl : s.locals none with
  | reserve => exact hfunction ⟨_, by rw [hl]; rfl⟩
  | emplaceBack i =>
    refine hfunction ?_
    rw [hl]
    by_cases hi : i < n
    · exact ⟨_, if_pos hi⟩
    · exact ⟨_, if_neg hi⟩
  | join i =>
    rw [hl] at hprogress
    obtain ⟨-, -, hstarted, -, -⟩ := hprogress
    by_cases hi : i < n
    · by_cases hfinished : s.shared.finished ⟨i, hi⟩ = true
      · have hjoin : statements n s.shared (.join i : Thread A) .run = _ :=
          (dif_pos hi).trans (if_pos hfinished)
        exact hfunction ⟨_, hl ▸ hjoin⟩
      · exact hthread _ (exists_thread_step hs (hstarted.symm ▸ hi) hfinished)
    · have hjoin : statements n s.shared (.join i : Thread A) .run = _ := dif_neg hi
      exact hfunction ⟨_, hl ▸ hjoin⟩
  | destroy o =>
    refine hfunction ?_
    rw [hl]
    by_cases hlt : s.shared.joined < s.shared.started
    · exact ⟨_, if_pos hlt⟩
    · exact ⟨_, if_neg hlt⟩
  | left o => exact absurd hl (hend.1 o)
  | terminated => exact absurd hl hend.2
  | unstarted | call _ | finished | undefined =>
    rw [hl] at hprogress
    exact hprogress.elim

/-- **The function ends.**  From every reachable state, the runs without spurious failures are
bounded, and only stop when the function has ended; so the threads never make each other go round
for ever, and the function does not wait for a thread that is gone. -/
theorem function_ends (hs : Reachable (program n) anyStep (initial n c₀) s) :
    Config.Completes (program n) notSpurious Ended s := by
  refine Config.completes_of_measure (I := Reachable (program n) anyStep (initial n c₀))
    (fun s => ∑ t, weight n s.shared.counter.counter (s.locals t)) ?_ ?_ hs
  · intro s t c s' hr hc hstep
    obtain ⟨g, l, hp, rfl⟩ := Config.step_eq_some.mp hstep
    obtain ⟨k, hothers, hpays⟩ := (step_of_program hp).2.weight_lt hc
    refine ⟨hr.step trivial hstep, Config.sum_lt_of_pays s.locals t l k hothers ?_⟩
    rw [Fintype.card_option, Fintype.card_fin]
    exact hpays
  · intro s hr hend
    obtain ⟨t, s', hstep⟩ := exists_step hr hend
    exact ⟨t, .run, s', nofun, hstep⟩

/-- Both threads are about to exchange the counter, and expect the same in it. -/
theorem function_ends_twoThreads :
    ∃ s : Config (Party 2) (Shared 2 ℤ) (Thread ℤ),
      (initial 2 (5 : ℤ)).run (program 2) (twoThreads.take 10) = some s ∧
      s.locals (some 0) = s.locals (some 1) ∧ Config.Completes (program 2) notSpurious Ended s := by
  have hrun : ((initial 2 (5 : ℤ)).run (program 2) (twoThreads.take 10)).isSome := by decide
  exact ⟨_, (Option.some_get hrun).symm, rfl,
    function_ends (.of_run_any (twoThreads.take 10) (Option.some_get hrun).symm)⟩

end ConcurrencyInAction.MultithreadCompareExchange
