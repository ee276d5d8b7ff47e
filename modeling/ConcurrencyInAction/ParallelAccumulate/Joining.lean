import ConcurrencyInAction.ParallelAccumulate.Termination

/-!
# Leaving `parallel_accumulate`

On every way out the vector of threads is destroyed, and a thread that is joinable then terminates
the program.  The function joins its workers after its own block only: an exception before that
finds the workers that are constructed joinable.

* `JoinedAtExit`: when the calling thread is on its way out, no thread is joinable;
  `terminates_iff_not_joinedAtExit`: what the destruction of the vector does then;
* `CallerHandles`: which threads are joinable at each point of the calling thread;
  `CallerHandles.step`, `CallerHandles.worker`: the step lemmas;
* `SafeFault`: the exceptions that find no joinable thread;
* `joinedAtExit_iff_safeFaults`: **the workers are joined on every way out** exactly when every
  exception is one of those.
-/

namespace ConcurrencyInAction.ParallelAccumulate

open Interleaving

variable {α : Type*}

/-- The calling thread is about to destroy the vector of threads, or has left the function. -/
def Point.Leaving : Point α → Prop
  | .destroy _ | .returned _ | .thrown => True
  | _ => False

/-- No worker is joinable when the function is left. -/
def JoinedAtExit (s : Config (Option ℕ) (Shared α) (Point α)) : Prop :=
  (s.locals none).Leaving → s.shared.threads.any Handle.isJoinable = false

/-- The exceptions that find no joinable thread: the construction of the first worker fails, the
calling thread works alone, or all workers are joined. -/
def Point.SafeFault (a : Args α) : Point α → Prop
  | .construct i _ _ => i = 0
  | .accumulate _ _ _ _ => a.numThreads = 1
  | _ => True

instance Point.SafeFault.decidable (a : Args α) : (p : Point α) → Decidable (p.SafeFault a)
  | .construct i _ _ => inferInstanceAs (Decidable (i = 0))
  | .accumulate _ _ _ _ => inferInstanceAs (Decidable (a.numThreads = 1))
  | .notStarted | .enterBlock _ _ _ | .exit | .exited | .loop _ _ | .join _ | .fold | .destroy _
  | .returned _ | .thrown | .undefined => isTrue trivial

/-- If the calling thread throws, then where it is safe. -/
def safeFaults (a : Args α) (s : Config (Option ℕ) (Shared α) (Point α)) (t : Option ℕ)
    (c : Choice) : Prop :=
  t = none → c = .fault → (s.locals none).SafeFault a

instance safeFaults.decidable (a : Args α) (s : Config (Option ℕ) (Shared α) (Point α))
    (t : Option ℕ) (c : Choice) : Decidable (safeFaults a s t c) :=
  inferInstanceAs (Decidable (t = none → c = .fault → (s.locals none).SafeFault a))

/-! ### The joinable threads -/

/-- The joinable threads are those in `P`. -/
def JoinableExactly (P : ℕ → Prop) (threads : List Handle) : Prop :=
  ∀ j h, threads[j]? = some h → (h.isJoinable = true ↔ P j)

/-- The first `m` workers are joinable, the others not. -/
structure Started (a : Args α) (m : ℕ) (threads : List Handle) : Prop where
  length : threads.length = (a.numThreads - 1).toNat
  le : m ≤ (a.numThreads - 1).toNat
  joinable : JoinableExactly (· < m) threads

/-- Which threads are joinable at each point of the calling thread. -/
def CallerHandles (a : Args α) (threads : List Handle) : Point α → Prop
  | .loop i _ => Started a i.toNat threads
  | .construct i _ _ => i.toNat < (a.numThreads - 1).toNat ∧ Started a i.toNat threads
  | .enterBlock _ _ _ | .accumulate _ _ _ _ => Started a (a.numThreads - 1).toNat threads
  | .join entry => JoinableExactly (entry ≤ ·) threads
  | .fold | .destroy _ | .returned _ | .thrown => JoinableExactly (fun _ => False) threads
  | .undefined => True
  | _ => False

variable {a : Args α} {g g' : Shared α} {p p' : Point α} {threads : List Handle} {P P' : ℕ → Prop}
  {i m : ℕ}

theorem JoinableExactly.any_eq_false (h : JoinableExactly (fun _ => False) threads) :
    threads.any Handle.isJoinable = false := by
  rw [List.any_eq_false]
  intro hd hmem hj
  obtain ⟨j, hj'⟩ := List.mem_iff_getElem?.mp hmem
  exact (h j hd hj').mp hj

/-- One thread of those that are started is enough. -/
theorem Started.any_eq_true (h : Started a m threads) (hm : 0 < m) :
    threads.any Handle.isJoinable = true := by
  have hlt : 0 < threads.length := by
    rw [h.length]
    exact Nat.lt_of_lt_of_le hm h.le
  rw [List.any_eq_true]
  exact ⟨threads[0], List.getElem_mem hlt,
    (h.joinable 0 _ (List.getElem?_eq_getElem hlt)).mpr hm⟩

/-- The end of a worker's function leaves its thread joinable. -/
theorem JoinableExactly.modify (h : JoinableExactly P threads) :
    JoinableExactly P (threads.modify i Handle.exit) := by
  intro j hd' hj
  obtain ⟨hd, hold, hexit⟩ := getElem?_exit_cases hj
  rw [← h j hd hold]
  rcases hexit with rfl | rfl
  · exact Iff.rfl
  · cases hd <;> exact Iff.rfl

/-- One thread is constructed or joined. -/
theorem JoinableExactly.set {hd : Handle} (h : JoinableExactly P threads)
    (hi : hd.isJoinable = true ↔ P' i) (hother : ∀ j, j ≠ i → (P' j ↔ P j)) :
    JoinableExactly P' (threads.set i hd) := by
  intro j hd' hj
  rcases getElem?_set_cases hj with ⟨rfl, rfl⟩ | ⟨hji, hold⟩
  · exact hi
  · rw [hother j hji]
    exact h j hd' hold

theorem CallerHandles.modify (h : CallerHandles a threads p) :
    CallerHandles a (threads.modify i Handle.exit) p := by
  have hlength : (threads.modify i Handle.exit).length = threads.length := List.length_modify _ _ _
  cases p with
  | loop i' blockStart => exact ⟨hlength.trans h.length, h.le, h.joinable.modify⟩
  | construct i' blockStart blockEnd =>
    exact ⟨h.1, hlength.trans h.2.length, h.2.le, h.2.joinable.modify⟩
  | enterBlock first last slot | accumulate it last slot acc =>
    exact ⟨hlength.trans h.length, h.le, h.joinable.modify⟩
  | join entry | fold | destroy result | returned value | thrown => exact JoinableExactly.modify h
  | undefined => trivial
  | _ => exact h.elim

/-- On the way out nothing is joinable. -/
theorem CallerHandles.any_eq_false (h : CallerHandles a threads p) (hp : p.Leaving) :
    threads.any Handle.isJoinable = false := by
  cases p with
  | destroy result | returned value | thrown => exact JoinableExactly.any_eq_false h
  | _ => exact hp.elim

/-! ### The steps -/

section Code

variable [Add α] [Zero α]

omit [Zero α] in
/-- Where the calling thread can throw. -/
theorem fault_of_program (h : program a none .fault g p = some (g', p')) :
    (g' = g ∧ p' = .destroy none) ∧
      ((∃ i blockStart blockEnd, p = .construct i blockStart blockEnd) ∨
        (∃ it last slot acc, p = .accumulate it last slot acc) ∨ p = .fold) := by
  unfold program at h
  split at h
  · exact nomatch h
  · cases p <;> cases h
    · exact ⟨⟨rfl, rfl⟩, .inr (.inl ⟨_, _, _, _, rfl⟩)⟩
    · exact ⟨⟨rfl, rfl⟩, .inl ⟨_, _, _, rfl⟩⟩
    · exact ⟨⟨rfl, rfl⟩, .inr (.inr rfl)⟩

omit [Zero α] in
/-- A worker leaves every joinable thread joinable. -/
theorem CallerHandles.worker {c : Choice} {q q' : Point α} (h : CallerHandles a g.threads p)
    (hstep : Step a g (some i) c q g' q') : CallerHandles a g'.threads p := by
  cases hstep with
  | exits => exact h.modify
  | _ => exact h

omit [Zero α] in
/-- A step of the calling thread that does not throw. -/
theorem CallerHandles.step (h : CallerHandles a g.threads p)
    (hstep : Step a g none .run p g' p') : CallerHandles a g'.threads p' := by
  cases hstep with
  | enters _ | adds _ _ | folds | terminates _ | returns | leaves => exact h
  | undefinedSlot _ | undefinedElement _ _ => trivial
  | @stores _ last slot acc =>
    intro j hd hj
    obtain ⟨hlt, -⟩ := List.getElem?_eq_some_iff.mp hj
    rw [h.joinable j hd hj]
    exact iff_of_true (h.length ▸ hlt) (Nat.zero_le j)
  | loops hi => exact ⟨UInt64.lt_iff_toNat_lt.mp hi, h⟩
  | @leavesLoop i blockStart hi =>
    have hge := UInt64.le_iff_toNat_le.mp (UInt64.not_lt.mp hi)
    have hall : i.toNat = (a.numThreads - 1).toNat := Nat.le_antisymm h.le hge
    show Started a _ g.threads
    rw [← hall]
    exact h
  | @constructs i blockStart blockEnd =>
    obtain ⟨hlt, hstarted⟩ := h
    have hsucc : (i + 1).toNat = i.toNat + 1 := Args.toNat_succ hlt
    refine ⟨List.length_set.trans hstarted.length, hsucc ▸ hlt, hstarted.joinable.set ?_ ?_⟩
    · exact iff_of_true rfl (hsucc ▸ Nat.lt_succ_self _)
    · intro j hj
      rw [hsucc]
      omega
  | @joins entry first last hentry =>
    refine JoinableExactly.set h ?_ ?_
    · exact iff_of_false Bool.false_ne_true (Nat.not_succ_le_self entry)
    · intro j hj
      omega
  | @joinThrows entry hd hentry hnot =>
    -- all threads from `entry` on are joinable
    have hyes := (h entry hd hentry).mpr (Nat.le_refl entry)
    exact nomatch hnot.symm.trans hyes
  | @joinsAll entry hentry =>
    intro j hd hj
    obtain ⟨hlt, -⟩ := List.getElem?_eq_some_iff.mp hj
    have hle := List.getElem?_eq_none_iff.mp hentry
    rw [h j hd hj, iff_false]
    omega

omit [Zero α] in
/-- **An exception in the calling thread** leaves a joinable thread exactly when it is not a safe
one. -/
theorem CallerHandles.fault (h : CallerHandles a g.threads p)
    (hstep : program a none .fault g p = some (g', p')) :
    (p.SafeFault a → CallerHandles a g'.threads p') ∧
      (¬ p.SafeFault a → p'.Leaving ∧ g'.threads.any Handle.isJoinable = true) := by
  obtain ⟨⟨rfl, rfl⟩, hp⟩ := fault_of_program hstep
  have hnone : ∀ {m}, Started a m g'.threads → m = 0 →
      JoinableExactly (fun _ => False) g'.threads := by
    intro m hstarted hm j hd hj
    rw [hstarted.joinable j hd hj, iff_false]
    omega
  rcases hp with ⟨i, blockStart, blockEnd, rfl⟩ | ⟨it, last, slot, acc, rfl⟩ | rfl
  · obtain ⟨-, hstarted⟩ := h
    refine ⟨fun hi => hnone hstarted ?_, fun hi => ⟨trivial, hstarted.any_eq_true ?_⟩⟩
    · rw [show i = 0 from hi]
      rfl
    · have hne : i.toNat ≠ 0 := fun he => hi (UInt64.toNat_inj.mp he)
      omega
  · refine ⟨fun hone => hnone h ?_, fun hone => ⟨trivial, Started.any_eq_true h ?_⟩⟩
    · rw [show a.numThreads = 1 from hone]
      rfl
    · have hne : (a.numThreads - 1).toNat ≠ 0 := by
        intro he
        have hzero : a.numThreads - 1 = 0 := UInt64.toNat_inj.mp he
        exact hone (UInt64.sub_eq_iff_eq_add.mp hzero)
      omega
  · exact ⟨fun _ => h, fun hno => absurd trivial hno⟩

variable {s s' : Config (Option ℕ) (Shared α) (Point α)}

omit [Zero α] in
/-- **What the destruction of the vector does.** -/
theorem terminates_iff_not_joinedAtExit {result : Option α} (hp : s.locals none = .destroy result)
    (hterm : s.shared.terminated = false) :
    ∃ s', s.step (program a) none .run = some s' ∧
      (s'.shared.terminated = true ↔ ¬ JoinedAtExit s) := by
  have hjoined : JoinedAtExit s ↔ s.shared.threads.any Handle.isJoinable = false := by
    unfold JoinedAtExit
    rw [hp]
    exact true_imp_iff
  rw [hjoined]
  cases hany : s.shared.threads.any Handle.isJoinable with
  | true =>
    refine ⟨_, Config.step_eq_some.mpr ⟨{ s.shared with terminated := true }, .destroy result,
      by simp [program, hp, hterm, hany], rfl⟩, iff_of_true rfl nofun⟩
  | false =>
    cases result with
    | none =>
      exact ⟨_, Config.step_eq_some.mpr ⟨s.shared, .thrown,
        by simp [program, hp, hterm, hany], rfl⟩, by simp [hterm]⟩
    | some value =>
      exact ⟨_, Config.step_eq_some.mpr ⟨s.shared, .returned value,
        by simp [program, hp, hterm, hany], rfl⟩, by simp [hterm]⟩

omit [Add α] in
theorem initial_callerHandles (a : Args α) :
    CallerHandles a (initial a).shared.threads ((initial a).locals none) := by
  unfold initial
  split
  · intro j hd hj
    exact nomatch hj
  · refine ⟨List.length_replicate, Nat.zero_le _, fun j hd hj => ?_⟩
    rw [replicate_empty hj]
    exact iff_of_false Bool.false_ne_true (Nat.not_lt_zero j)

/-- **When the workers are joined on every way out.**  In every run, whatever the threads do and
wherever the calling thread throws, no worker is joinable when the function is left, exactly when
the calling thread throws only where no worker is joinable. -/
theorem joinedAtExit_iff_safeFaults (a : Args α) (as : List (Option ℕ × Choice))
    (hrun : ((initial a).run (program a) as).isSome) :
    (initial a).AllStates (program a) JoinedAtExit as ↔
      (initial a).AllSteps (program a) (safeFaults a) as := by
  refine Config.allStates_iff_allSteps
    (I := fun s => CallerHandles a s.shared.threads (s.locals none))
    (fun s hs hp => hs.any_eq_false hp) ?_ ?_ as (initial a) (initial_callerHandles a) hrun
  · intro s t c s' hs hok hstep
    obtain ⟨p, hp, hcaller, hworker⟩ := Config.step_focus none hstep
    cases t with
    | some i =>
      rw [hworker (Option.some_ne_none i)]
      exact hs.worker (step_of_program hp)
    | none =>
      rw [hcaller rfl]
      cases c with
      | run => exact hs.step (step_of_program hp)
      | fault => exact (hs.fault hp).1 (hok rfl rfl)
  · intro s t c s' hs hno hstep hjoined
    simp only [safeFaults, Classical.not_imp] at hno
    obtain ⟨rfl, rfl, hunsafe⟩ := hno
    obtain ⟨p, hp, hcaller, -⟩ := Config.step_focus none hstep
    obtain ⟨hleaving, hany⟩ := (hs.fault hp).2 hunsafe
    have hnone := hjoined (by rw [hcaller rfl]; exact hleaving)
    exact nomatch hany.symm.trans hnone

end Code

/-- Both workers are started and joined, then `+` throws in the final fold. -/
def foldFails : List (Option ℕ × Choice) :=
  blocksRun ++ [(none, .run), (none, .run), (none, .run), (none, .fault), (none, .run)]

theorem joinedAtExit_iff_safeFaults_foldFails :
    ((initial threeThreads).run (program threeThreads) foldFails).isSome ∧
      (initial threeThreads).AllStates (program threeThreads) JoinedAtExit foldFails :=
  ⟨by decide, (joinedAtExit_iff_safeFaults threeThreads foldFails (by decide)).mpr
    (by decide +kernel)⟩

/-- The construction of the second worker fails. -/
def secondConstructionFails : List (Option ℕ × Choice) :=
  [(none, .run), (none, .run), (none, .run), (none, .fault)]

/-- The first worker is joinable when the vector is destroyed, and the program terminates. -/
theorem not_joinedAtExit_secondConstructionFails :
    ∃ s, (initial threeThreads).run (program threeThreads) secondConstructionFails = some s ∧
      ¬ JoinedAtExit s ∧ ∃ s', s.step (program threeThreads) none .run = some s' ∧
        s'.shared.terminated = true := by
  have hdestroy : (((initial threeThreads).run (program threeThreads) secondConstructionFails).get
      (by decide)).locals none = .destroy none := by decide
  have hjoinable : ¬ JoinedAtExit (((initial threeThreads).run (program threeThreads)
      secondConstructionFails).get (by decide)) := by
    intro h
    exact nomatch (h (by trivial) : true = false)
  obtain ⟨s', hstep, hterminated⟩ := terminates_iff_not_joinedAtExit hdestroy (by decide)
  exact ⟨_, (Option.some_get _).symm, hjoinable, s', hstep, hterminated.mpr hjoinable⟩

end ConcurrencyInAction.ParallelAccumulate
