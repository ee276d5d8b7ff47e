import ConcurrencyInAction.HierachicalMutex.Checks

/-!
# `unlock` on any mutex, at any time

Nothing keeps a thread from calling `unlock` on a mutex that it does not hold.  The comparison of
the two levels may pass all the same, and the thread then releases a lock that is not its own, which
is undefined; it takes no further step of the model.

* `Straying`: a thread inside such a call;
* `Free`: what is true of a thread when every call is allowed, the assertion of the representation
  invariant or `Straying`; `Free.step`: a thread that strays changes nothing for the others;
* `rejects_unlock_iff`: `unlock` throws and changes nothing exactly when the level of the mutex is
  not that of the thread, whoever holds the mutex.
-/

namespace ConcurrencyInAction.HierachicalMutex

open Interleaving ExclusiveLock

variable {T M : Type*} {hierarchyValue : M → UInt64}

/-- The thread is inside `unlock` on a mutex that it does not hold, or has released it.  Up to the
check it is otherwise as the invariant says. -/
inductive Straying (hierarchyValue : M → UInt64) (t : T) (g : Shared T M) (l : Thread M) : Prop
  | check {m : M} (hp : l.point = .unlockCheck m) (hm : g.internalMutex m ≠ some t)
      (h : Assertion hierarchyValue t g (l.goto .idle))
  | passed {m : M} (hp : l.point = .unlockRestore m ∨ l.point = .unlockRelease m)
      (hm : g.internalMutex m ≠ some t)
  | released (hp : l.point = .undefined)

/-- What is true of a thread when every call is allowed. -/
def Free (hierarchyValue : M → UInt64) (t : T) (g : Shared T M) (l : Thread M) : Prop :=
  Assertion hierarchyValue t g l ∨ Straying hierarchyValue t g l

variable {t u : T} {g g' : Shared T M} {l l' : Thread M}

theorem Free.stable (hr : Rely u g g') (h : Free hierarchyValue u g l) :
    Free hierarchyValue u g' l := by
  have hforeign : ∀ m, g.internalMutex m ≠ some u → g'.internalMutex m ≠ some u :=
    fun m hm he => hm ((hr.1 m).mp he)
  rcases h with h | ⟨hp, hm, h⟩ | ⟨hp, hm⟩ | hp
  · exact .inl (h.stable hr)
  · exact .inr (.check hp (hforeign _ hm) (h.stable hr))
  · exact .inr (.passed hp (hforeign _ hm))
  · exact .inr (.released hp)

/-- A thread outside every member function has not strayed. -/
theorem Free.assertion (h : Free hierarchyValue t g l) (hp : l.point = .idle) :
    Assertion hierarchyValue t g l := by
  rcases h with h | ⟨hp', -, -⟩ | ⟨hp' | hp', -⟩ | hp'
  · exact h
  all_goals
    rw [hp] at hp'
    exact nomatch hp'

section Steps

variable [DecidableEq M]

/-- A step of a thread that strays: at worst it releases a lock that is not its own, and no other
thread notices. -/
theorem Straying.step {c : Choice M} (h : Straying hierarchyValue t g l)
    (hstep : Step hierarchyValue t g l c g' l') : g' = g ∧ Free hierarchyValue t g l' := by
  cases h with
  | @check m hp hm h =>
    have hat := h.atPoint
    cases hstep with
    | callLock hp' | callTryLock hp' | callUnlock hp' => exact nomatch hp.symm.trans hp'
    | checkThrows hp' _ | takes hp' _ =>
      rcases hp' with hp' | hp' <;> exact nomatch hp.symm.trans hp'
    | lockCheckPasses hp' _ | tryCheckPasses hp' _ | tryFails hp' _ | tryFailsSpuriously hp'
    | savesPrevious hp' | setsThis hp' | restores hp' | releases hp' _ | releasesForeign hp' _ =>
      exact nomatch hp.symm.trans hp'
    | unlockThrows _ _ => exact ⟨rfl, .inl (h.move rfl hat)⟩
    | unlockPasses hp' _ =>
      cases hp.symm.trans hp'
      exact ⟨rfl, .inr (.passed (.inl rfl) hm)⟩
  | @passed m hp hm =>
    cases hstep with
    | restores hp' =>
      rcases hp with hp | hp
      · cases hp.symm.trans hp'
        exact ⟨rfl, .inr (.passed (.inr rfl) hm)⟩
      · exact nomatch hp.symm.trans hp'
    | releases hp' hown =>
      rcases hp with hp | hp
      · exact nomatch hp.symm.trans hp'
      · cases hp.symm.trans hp'
        exact absurd hown hm
    | releasesForeign _ _ => exact ⟨rfl, .inr (.released rfl)⟩
    | callLock hp' | callTryLock hp' | callUnlock hp' | lockCheckPasses hp' _
    | tryCheckPasses hp' _ | tryFails hp' _ | tryFailsSpuriously hp' | savesPrevious hp'
    | setsThis hp' | unlockThrows hp' _ | unlockPasses hp' _ =>
      rcases hp with hp | hp <;> exact nomatch hp.symm.trans hp'
    | checkThrows hp' _ | takes hp' _ =>
      rcases hp with hp | hp <;> rcases hp' with hp' | hp' <;> exact nomatch hp.symm.trans hp'
  | released hp =>
    cases hstep with
    | callLock hp' | callTryLock hp' | callUnlock hp' | lockCheckPasses hp' _
    | tryCheckPasses hp' _ | tryFails hp' _ | tryFailsSpuriously hp' | savesPrevious hp'
    | setsThis hp' | unlockThrows hp' _ | unlockPasses hp' _ | restores hp' | releases hp' _
    | releasesForeign hp' _ => exact nomatch hp.symm.trans hp'
    | checkThrows hp' _ | takes hp' _ =>
      rcases hp' with hp' | hp' <;> exact nomatch hp.symm.trans hp'

/-- **The step lemma** when every call is allowed. -/
theorem Free.step {s : Config T (Shared T M) (Thread M)} {c : Choice M}
    (h : Free hierarchyValue t s.shared (s.locals t))
    (hstep : Step hierarchyValue t s.shared (s.locals t) c g' l') :
    Free hierarchyValue t g' l' ∧ ∀ u, u ≠ t → Rely u s.shared g' := by
  rcases h with h | h
  · by_cases hok : unlocksHeld s t c
    · obtain ⟨h', hrely⟩ := h.step hok hstep
      exact ⟨.inl h', hrely⟩
    · -- the one thing the client may do now that it might not do before
      obtain ⟨m, hc, hm⟩ : ∃ m, c = .call (.unlock m) ∧ s.shared.internalMutex m ≠ some t := by
        simpa only [unlocksHeld, not_forall, exists_prop] using hok
      subst hc
      have hat := h.atPoint
      cases hstep with
      | callUnlock hp =>
        simp only [AtPoint, hp] at hat
        exact ⟨.inr (.check rfl hm (h.move rfl hat)), fun u _ => Rely.refl u _⟩
  · obtain ⟨rfl, h'⟩ := h.step hstep
    exact ⟨h', fun u _ => Rely.refl u _⟩

variable [DecidableEq T]

/-- **The invariant**, with no restriction on the calls. -/
theorem reachable_free {s : Config T (Shared T M) (Thread M)}
    (hs : Reachable (program hierarchyValue) anyStep initial s) (t : T) :
    Free hierarchyValue t s.shared (s.locals t) := by
  have h : RelyGuarantee (program (T := T) hierarchyValue) anyStep (fun _ => True)
      (Free hierarchyValue) Rely :=
    { stable := fun _ _ _ _ hr h => h.stable hr
      step := fun _ t _ _ _ _ hP _ hp =>
        ⟨trivial, (hP t).step ((program_eq_some hierarchyValue).mp hp)⟩ }
  exact (hs.rely_guarantee h ⟨trivial, fun u => .inl (Assertion.init u)⟩).2 t

/-- The thread only goes on with its call; all others do as they like. -/
def staysInCall (t : T) (_ : Config T (Shared T M) (Thread M)) (u : T) (c : Choice M) : Prop :=
  u = t → ∀ f, c ≠ .call f

/-- **When `unlock` throws**, on any mutex, held by the thread or not: exactly when the level of the
mutex is not that of the mutex acquired last and still held, or `ULONG_MAX` if there is none. -/
theorem rejects_unlock_iff (hierarchyValue : M → UInt64) {s : Config T (Shared T M) (Thread M)}
    (hs : Reachable (program hierarchyValue) anyStep initial s) {t : T}
    (hidle : (s.locals t).point = .idle) (m : M) :
    (∀ x, x ∈ (s.locals t).acquired ↔ s.shared.internalMutex x = some t) ∧
      (Rejects hierarchyValue (staysInCall t) t (.unlock m) s ↔
        hierarchyValue m ≠ ((s.locals t).acquired.head?.map hierarchyValue).getD ulongMax) := by
  have ha := (reachable_free hs t).assertion hidle
  have hat := ha.atPoint
  simp only [AtPoint, hidle] at hat
  refine ⟨ha.owns, ?_⟩
  rw [rejects_iff (fun _ _ _ hok hu => hok hu) hidle, ← level_eq_head?, ← hat.1]
  exact ne_comm

end Steps

/-- One thread locks a mutex. -/
def lockOne (m : M) : List (Unit × Choice M) :=
  [((), .call (.lock m)), ((), .run), ((), .run), ((), .run), ((), .run)]

theorem rejects_unlock_iff_lockLow :
    ∃ s, initial.run (program globalHierarchyValue) (lockOne .lowLevelMutex) = some s ∧
      s.shared.internalMutex .highLevelMutex ≠ some () ∧
      Rejects globalHierarchyValue (staysInCall ()) () (.unlock .highLevelMutex) s := by
  have hr : Reachable (program globalHierarchyValue) anyStep initial
      ((initial.run (program globalHierarchyValue) (lockOne .lowLevelMutex)).get (by decide)) :=
    Reachable.of_run_any _ (Option.some_get _).symm
  refine ⟨_, (Option.some_get (by decide)).symm, by decide, ?_⟩
  exact (rejects_unlock_iff globalHierarchyValue hr (by decide) .highLevelMutex).2.mpr (by decide)

/-- A thread that holds one of two mutexes with the same level can unlock the other one. -/
theorem not_rejects_unlock_sameLevel :
    ∃ s, initial.run (program fun _ : Bool => 5000) (lockOne false) = some s ∧
      (s.locals ()).point = .idle ∧ s.shared.internalMutex true ≠ some () ∧
      ¬ Rejects (fun _ : Bool => 5000) (staysInCall ()) () (.unlock true) s := by
  refine ⟨(initial.run (program fun _ : Bool => 5000) (lockOne false)).get (by decide),
    (Option.some_get _).symm, by decide, by decide, fun h => ?_⟩
  rw [rejects_iff (fun _ _ _ hok hu => hok hu) (by decide)] at h
  exact h (by decide)

end ConcurrencyInAction.HierachicalMutex
