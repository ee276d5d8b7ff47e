import ConcurrencyInAction.HierachicalMutex.Representation

/-!
# The representation invariant at rest, and what `unlock` does

* `Unlocking`: where a call of `unlock` stands, compared with the thread's state before the call;
  it is kept by every step of every thread (`Unlocking.step`);
* `unlockWork`: the steps the call has left; every step of its thread decreases it;
* `UnlockEnds`: how the call ends, normally for the mutex acquired last and with a `logic_error`
  that changes nothing for any other held mutex;
* `representation_invariant`: the three equations for a thread outside every operation, and that
  `unlock` ends after at most three steps of its own, with `UnlockEnds`, for each mutex the thread
  holds, whatever the other threads do in the meantime.
-/

namespace ConcurrencyInAction.HierachicalMutex

open Interleaving ExclusiveLock

variable {T M : Type*} {hierarchyValue : M → UInt64}

theorem level_eq_head? (ms : List M) :
    level hierarchyValue ms = (ms.head?.map hierarchyValue).getD ulongMax := by
  cases ms <;> rfl

/-- The steps of a run during which thread `t` only goes on with the call it is in. -/
def duringCall [DecidableEq T] [DecidableEq M] (t : T) (s : Config T (Shared T M) (Thread M))
    (u : T) (c : Choice M) : Prop :=
  unlocksHeld s u c ∧ (u = t → ∀ f, c ≠ .call f)

/-- A call of `unlock` on `m` in progress or just ended; `l₀` is the thread before the call. -/
def Unlocking (m : M) (l₀ l : Thread M) : Prop :=
  match l.point with
  | .unlockCheck x => x = m ∧ l.acquired = l₀.acquired ∧
      l.thisThreadHierarchyValue = l₀.thisThreadHierarchyValue
  | .unlockRestore x | .unlockRelease x => x = m ∧ l.acquired = l₀.acquired ∧
      l₀.acquired.head? = some m
  | .idle =>
      (l₀.acquired.head? = some m ∧ l.outcome = some .returned ∧ l.acquired = l₀.acquired.tail) ∨
      (l₀.acquired.head? ≠ some m ∧ l.outcome = some (.logicError hierarchyViolated) ∧
        l.acquired = l₀.acquired ∧ l.thisThreadHierarchyValue = l₀.thisThreadHierarchyValue)
  | _ => False

/-- The steps a call of `unlock` has left, at most. -/
def unlockWork : Point M → ℕ
  | .unlockCheck _ => 3
  | .unlockRestore _ => 2
  | .unlockRelease _ => 1
  | _ => 0

/-- The steps of thread `t`. -/
def ownStep [DecidableEq T] (t : T) (_ : Config T (Shared T M) (Thread M)) (u : T)
    (_ : Choice M) : Bool := decide (u = t)

/-- The saved levels of the held mutexes are a function of the list, so a thread at rest with the
same list has the same saved levels. -/
theorem Assertion.saved_eq {t : T} {g g' : Shared T M} {l l' : Thread M}
    (h : Assertion hierarchyValue t g l) (h' : Assertion hierarchyValue t g' l')
    (hp : l.point = .idle) (hp' : l'.point = .idle) (hacq : l'.acquired = l.acquired) {x : M}
    (hx : x ∈ l.acquired) : g'.previousHierarchyValue x = g.previousHierarchyValue x := by
  have hat := h.atPoint
  have hat' := h'.atPoint
  simp only [AtPoint, hp] at hat
  simp only [AtPoint, hp'] at hat'
  obtain ⟨later, earlier, hsplit⟩ := List.append_of_mem hx
  have h₁ := hat.2
  have h₂ := hat'.2
  rw [hsplit] at h₁
  rw [hacq, hsplit] at h₂
  rw [h₁.entry, h₂.entry]

/-- How a call of `unlock` on the held mutex `m` ends, from the state `s` before the call to the
state `s'` in which the thread is outside every operation again. -/
structure UnlockEnds (t : T) (m : M) (s s' : Config T (Shared T M) (Thread M)) : Prop where
  /-- The mutex acquired last is released, and the call returns. -/
  last : (s.locals t).acquired.head? = some m →
    (s'.locals t).outcome = some .returned ∧ (s'.locals t).acquired = (s.locals t).acquired.tail ∧
      s'.shared.internalMutex m ≠ some t
  /-- On any other mutex the call throws, and nothing of the thread's has changed. -/
  other : (s.locals t).acquired.head? ≠ some m →
    (s'.locals t).outcome = some (.logicError hierarchyViolated) ∧
      (s'.locals t).acquired = (s.locals t).acquired ∧
      (s'.locals t).thisThreadHierarchyValue = (s.locals t).thisThreadHierarchyValue ∧
      (∀ x, s'.shared.internalMutex x = some t ↔ s.shared.internalMutex x = some t) ∧
      ∀ x, s.shared.internalMutex x = some t →
        s'.shared.previousHierarchyValue x = s.shared.previousHierarchyValue x

theorem unlockEnds_of_unlocking {s s' : Config T (Shared T M) (Thread M)} {t : T} {m : M}
    (ha : Assertion hierarchyValue t s.shared (s.locals t))
    (ha' : Assertion hierarchyValue t s'.shared (s'.locals t)) (hidle : (s.locals t).point = .idle)
    (hidle' : (s'.locals t).point = .idle) (h : Unlocking m (s.locals t) (s'.locals t)) :
    UnlockEnds t m s s' := by
  simp only [Unlocking, hidle'] at h
  constructor
  · intro hlast
    obtain ⟨-, hout, hacq⟩ | ⟨hne, -⟩ := h
    · refine ⟨hout, hacq, fun hown => ?_⟩
      obtain ⟨rest, hrest⟩ := List.head?_eq_some_iff.mp hlast
      have hd : Descending hierarchyValue (m :: rest) := hrest ▸ ha.descending
      have hm := (ha'.owns m).mpr hown
      rw [hacq, hrest, List.tail_cons] at hm
      exact hd.not_mem hm
    · exact absurd hlast hne
  · intro hother
    obtain ⟨hlast, -⟩ | ⟨-, hout, hacq, hthis⟩ := h
    · exact absurd hlast hother
    · refine ⟨hout, hacq, hthis, fun x => ?_, fun x hx => ?_⟩
      · rw [← ha'.owns x, ← ha.owns x, hacq]
      · exact ha.saved_eq ha' hidle hidle' hacq ((ha.owns x).mpr hx)

section Steps

variable [DecidableEq M]

/-- **The step lemma** of a call of `unlock`: only the first step decides, by comparing levels, and
levels tell the mutex acquired last from all others. -/
theorem Unlocking.step {t : T} {g g' : Shared T M} {l₀ l l' : Thread M} {m : M} {c : Choice M}
    (h : Unlocking m l₀ l) (ha : Assertion hierarchyValue t g l) (hc : ∀ f, c ≠ .call f)
    (hstep : Step hierarchyValue t g l c g' l') : Unlocking m l₀ l' := by
  have hat := ha.atPoint
  cases hstep with
  | callLock _ | callTryLock _ | callUnlock _ => exact absurd rfl (hc _)
  | checkThrows hp _ => rcases hp with hp | hp <;> simp [Unlocking, hp] at h
  | takes hp _ => rcases hp with hp | hp <;> simp [Unlocking, hp] at h
  | lockCheckPasses hp _ | tryCheckPasses hp _ | tryFails hp _ | tryFailsSpuriously hp
  | savesPrevious hp | setsThis hp =>
    simp [Unlocking, hp] at h
  | unlockThrows hp hne =>
    simp only [Unlocking, hp] at h
    simp only [AtPoint, hp] at hat
    obtain ⟨rfl, hacq, hthis⟩ := h
    refine .inr ⟨fun hhead => hne ?_, rfl, hacq, hthis⟩
    rw [hat.2.1, level_eq_head?, hacq, hhead]
    rfl
  | unlockPasses hp he =>
    simp only [Unlocking, hp] at h
    simp only [AtPoint, hp] at hat
    obtain ⟨rfl, hacq, hthis⟩ := h
    obtain ⟨rest, hrest⟩ := ha.descending.eq_cons hat.1 (hat.2.1.symm.trans he)
    exact ⟨rfl, hacq, by rw [← hacq, hrest]; rfl⟩
  | restores hp =>
    simp only [Unlocking, hp] at h
    exact h
  | @releases x hp _ =>
    simp only [Unlocking, hp] at h
    obtain ⟨rfl, hacq, hhead⟩ := h
    refine .inl ⟨hhead, rfl, ?_⟩
    show l.acquired.erase x = l₀.acquired.tail
    obtain ⟨rest, hrest⟩ := List.head?_eq_some_iff.mp hhead
    rw [hacq, hrest, List.erase_cons_head, List.tail_cons]
  | releasesForeign hp hforeign =>
    simp only [AtPoint, hp] at hat
    obtain ⟨ms, hms, -⟩ := hat
    exact absurd ((ha.owns _).mp (hms ▸ List.mem_cons_self)) hforeign

/-- Every step inside `unlock` brings its end closer. -/
theorem Unlocking.work_lt {t : T} {g g' : Shared T M} {l₀ l l' : Thread M} {m : M} {c : Choice M}
    (h : Unlocking m l₀ l) (hc : ∀ f, c ≠ .call f) (hstep : Step hierarchyValue t g l c g' l') :
    unlockWork l'.point < unlockWork l.point := by
  cases hstep with
  | callLock _ | callTryLock _ | callUnlock _ => exact absurd rfl (hc _)
  | checkThrows hp _ => rcases hp with hp | hp <;> simp [Unlocking, hp] at h
  | takes hp _ => rcases hp with hp | hp <;> simp [Unlocking, hp] at h
  | lockCheckPasses hp _ | tryCheckPasses hp _ | tryFails hp _ | tryFailsSpuriously hp
  | savesPrevious hp | setsThis hp =>
    simp [Unlocking, hp] at h
  | unlockThrows hp _ | unlockPasses hp _ | restores hp | releases hp _ | releasesForeign hp _ =>
    simp [Thread.goto, Thread.finish, unlockWork, hp]

variable [DecidableEq T]

/-- A thread inside `unlock` is never blocked. -/
theorem Unlocking.enabled {t : T} {g : Shared T M} {l₀ l : Thread M} {m : M}
    (h : Unlocking m l₀ l) (hidle : l.point ≠ .idle) :
    (program hierarchyValue t .run g l).isSome = true := by
  unfold Unlocking at h
  split at h
  case h_1 x hp =>
    by_cases he : l.thisThreadHierarchyValue = hierarchyValue x <;> simp [program, hp, he]
  case h_2 hp => simp [program, hp]
  case h_3 x hp =>
    by_cases hx : g.internalMutex x = some t <;> simp [program, hp, hx]
  case h_4 hp => exact absurd hp hidle
  case h_5 => exact h.elim

/-- **A whole call of `unlock`**, interleaved with anything the other threads do. -/
theorem unlocking_of_reachable {s s₁ s' : Config T (Shared T M) (Thread M)} {t : T} {m : M}
    (hs : Reachable (program hierarchyValue) unlocksHeld initial s)
    (hown : s.shared.internalMutex m = some t)
    (hcall : s.step (program hierarchyValue) t (.call (.unlock m)) = some s₁)
    (hs' : Reachable (program hierarchyValue) (duringCall t) s₁ s') :
    Reachable (program hierarchyValue) unlocksHeld initial s' ∧
      Unlocking m (s.locals t) (s'.locals t) := by
  have hs₁ : Reachable (program hierarchyValue) unlocksHeld initial s₁ :=
    hs.step (fun x hx => by cases hx; exact hown) hcall
  induction hs' with
  | init =>
    refine ⟨hs₁, ?_⟩
    obtain ⟨g, l, hp, rfl⟩ := Config.step_eq_some.mp hcall
    cases (program_eq_some hierarchyValue).mp hp with
    | callUnlock _ =>
      simp only [Function.update_self]
      exact ⟨rfl, rfl, rfl⟩
  | @step s₂ s₃ u c _ hok hst ih =>
    refine ⟨ih.1.step hok.1 hst, ?_⟩
    obtain ⟨l, hp, hself, hother⟩ := Config.step_focus t hst
    by_cases hu : u = t
    · rw [hself hu]
      subst hu
      exact ih.2.step (reachable_assertion ih.1 u) (hok.2 rfl)
        ((program_eq_some hierarchyValue).mp hp)
    · rw [hother hu]
      exact ih.2

/-- The call ends after at most three steps of its thread. -/
theorem unlock_countSteps_le {s s₁ s' : Config T (Shared T M) (Thread M)} {t : T} {m : M}
    (hs : Reachable (program hierarchyValue) unlocksHeld initial s)
    (hown : s.shared.internalMutex m = some t)
    (hcall : s.step (program hierarchyValue) t (.call (.unlock m)) = some s₁)
    {as : List (T × Choice M)} (hall : s₁.AllSteps (program hierarchyValue) (duringCall t) as)
    (hrun : s₁.run (program hierarchyValue) as = some s') :
    s₁.countSteps (program hierarchyValue) (ownStep t) as ≤ 3 := by
  have hstart : unlockWork (s₁.locals t).point = 3 := by
    obtain ⟨g, l, hp, rfl⟩ := Config.step_eq_some.mp hcall
    cases (program_eq_some hierarchyValue).mp hp with
    | callUnlock _ =>
      simp only [Function.update_self]
      rfl
  have hcount := Config.countSteps_le (f := ownStep t)
    (I := Reachable (program hierarchyValue) (duringCall t) s₁)
    (fun s => unlockWork (s.locals t).point) ?_ as s₁ s' .init hall hrun
  · have hle := hcount.2
    rw [hstart] at hle
    omega
  · intro s₂ u c s₃ hs₂ hok hstep
    refine ⟨hs₂.step hok hstep, ?_⟩
    obtain ⟨l, hp, hself, hother⟩ := Config.step_focus t hstep
    by_cases hu : u = t
    · have hunlocking := (unlocking_of_reachable hs hown hcall hs₂).2
      rw [hself hu, ownStep, if_pos (decide_eq_true hu)]
      subst hu
      have hlt := hunlocking.work_lt (hok.2 rfl) ((program_eq_some hierarchyValue).mp hp)
      omega
    · rw [hother hu, ownStep, decide_eq_false hu, if_neg Bool.false_ne_true, Nat.zero_add]

/-- **The representation invariant.**  For a thread outside every operation, the mutexes it holds,
in the order of acquisition, have strictly decreasing levels; its own level is that of the last one;
each of them has saved the level of the one before it.  Hence a call of `unlock` on a held mutex
ends: whatever the other threads do, it is never blocked and takes at most three steps.  It returns
exactly when that mutex was acquired last, and otherwise throws and changes nothing. -/
theorem representation_invariant (hierarchyValue : M → UInt64)
    {s : Config T (Shared T M) (Thread M)}
    (hs : Reachable (program hierarchyValue) unlocksHeld initial s) (t : T)
    (hidle : (s.locals t).point = .idle) :
    ∃ held : List M, held = (s.locals t).acquired.reverse ∧
      (∀ m, m ∈ held ↔ s.shared.internalMutex m = some t) ∧
      held.Pairwise (fun a b => hierarchyValue b < hierarchyValue a) ∧
      (s.locals t).thisThreadHierarchyValue =
        (held.getLast?.map hierarchyValue).getD ulongMax ∧
      (∀ before m after, held = before ++ m :: after → s.shared.previousHierarchyValue m =
        (before.getLast?.map hierarchyValue).getD ulongMax) ∧
      ∀ m, s.shared.internalMutex m = some t →
        ∃ s₁, s.step (program hierarchyValue) t (.call (.unlock m)) = some s₁ ∧
          ∀ as s', s₁.AllSteps (program hierarchyValue) (duringCall t) as →
            s₁.run (program hierarchyValue) as = some s' →
            s₁.countSteps (program hierarchyValue) (ownStep t) as ≤ 3 ∧
            ((s'.locals t).point ≠ .idle → (s'.step (program hierarchyValue) t .run).isSome) ∧
            ((s'.locals t).point = .idle → UnlockEnds t m s s') := by
  have ha := reachable_assertion hs t
  have hat := ha.atPoint
  simp only [AtPoint, hidle] at hat
  refine ⟨_, rfl, fun m => ?_, ?_, ?_, ?_, ?_⟩
  · rw [List.mem_reverse]
    exact ha.owns m
  · rw [List.pairwise_reverse]
    exact ha.descending
  · rw [hat.1, level_eq_head?, List.getLast?_reverse]
  · intro before m after hsplit
    have hacq : (s.locals t).acquired = after.reverse ++ m :: before.reverse := by
      rw [← List.reverse_reverse (s.locals t).acquired, hsplit]
      simp
    have hsv := hat.2
    rw [hacq] at hsv
    rw [hsv.entry, level_eq_head?, List.head?_reverse]
  · intro m hown
    have hcall : s.step (program hierarchyValue) t (.call (.unlock m)) =
        some ⟨s.shared, Function.update s.locals t ((s.locals t).enter (.unlockCheck m))⟩ := by
      simp [Config.step, program, hidle]
    refine ⟨_, hcall, fun as s' hall hrun => ⟨unlock_countSteps_le hs hown hcall hall hrun, ?_⟩⟩
    obtain ⟨hr, hu⟩ := unlocking_of_reachable hs hown hcall (.of_run as _ s' .init hall hrun)
    constructor
    · intro hne
      rw [Config.step, Option.isSome_map]
      exact hu.enabled hne
    · exact fun hidle' =>
        unlockEnds_of_unlocking ha (reachable_assertion hr t) hidle hidle' hu

end Steps

/-- One thread locks the high level mutex, then the low level mutex. -/
def lockBoth : List (Unit × Choice GlobalMutex) :=
  [((), .call (.lock .highLevelMutex)), ((), .run), ((), .run), ((), .run), ((), .run),
   ((), .call (.lock .lowLevelMutex)), ((), .run), ((), .run), ((), .run), ((), .run)]

/-- The same thread calls `unlock` and takes `n` steps. -/
def unlockRun (m : GlobalMutex) (n : ℕ) : List (Unit × Choice GlobalMutex) :=
  ((), .call (.unlock m)) :: .replicate n ((), .run)

theorem allSteps_duringCall (s : Config Unit (Shared Unit GlobalMutex) (Thread GlobalMutex))
    (n : ℕ) :
    s.AllSteps (program globalHierarchyValue) (duringCall ()) (.replicate n ((), .run)) := by
  refine .of_forall fun a ha s => ?_
  rw [List.eq_of_mem_replicate ha]
  exact ⟨fun _ h => (nomatch h), fun _ _ h => (nomatch h)⟩

theorem representation_invariant_lockBoth :
    ∃ s, initial.run (program globalHierarchyValue) lockBoth = some s ∧
      (s.locals ()).acquired.reverse = [.highLevelMutex, .lowLevelMutex] ∧
      (∃ s', s.run (program globalHierarchyValue) (unlockRun .lowLevelMutex 3) = some s' ∧
        (s'.locals ()).outcome = some .returned ∧ UnlockEnds () .lowLevelMutex s s') ∧
      ∃ s', s.run (program globalHierarchyValue) (unlockRun .highLevelMutex 1) = some s' ∧
        (s'.locals ()).outcome = some (.logicError hierarchyViolated) ∧
        UnlockEnds () .highLevelMutex s s' := by
  have hr : Reachable (program globalHierarchyValue) unlocksHeld initial
      ((initial.run (program globalHierarchyValue) lockBoth).get (by decide)) :=
    Reachable.of_run lockBoth _ _ .init (by decide) (Option.some_get _).symm
  obtain ⟨held, -, -, -, -, -, hunlock⟩ :=
    representation_invariant globalHierarchyValue hr () (by decide)
  refine ⟨_, (Option.some_get (by decide)).symm, by decide, ?_⟩
  generalize hs : (initial.run (program globalHierarchyValue) lockBoth).get _ = s at hunlock ⊢
  have hends : ∀ m n s', s.shared.internalMutex m = some () →
      s.run (program globalHierarchyValue) (unlockRun m n) = some s' →
      (s'.locals ()).point = .idle → UnlockEnds () m s s' := by
    intro m n s' hown hrun hidle
    obtain ⟨s₁, hs₁, h⟩ := hunlock m hown
    obtain ⟨s₂, hs₂, hrest⟩ := Config.run_cons_eq_some.mp hrun
    obtain rfl : s₂ = s₁ := Option.some.inj (hs₂.symm.trans hs₁)
    exact (h _ s' (allSteps_duringCall s₂ n) hrest).2.2 hidle
  subst hs
  constructor
  · exact ⟨_, (Option.some_get (by decide)).symm, by decide,
      hends .lowLevelMutex 3 _ (by decide) (Option.some_get (by decide)).symm (by decide)⟩
  · exact ⟨_, (Option.some_get (by decide)).symm, by decide,
      hends .highLevelMutex 1 _ (by decide) (Option.some_get (by decide)).symm (by decide)⟩

end ConcurrencyInAction.HierachicalMutex
