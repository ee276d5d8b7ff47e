import ConcurrencyInAction.HierachicalMutex.Model
import Mathlib.Data.List.Pairwise

/-!
# The representation invariant of `hierachical_mutex`

`previous_hierarchy_value` lives in a shared object, but it holds one entry of a private stack: the
level that its owner had before.  The invariant says so, for every thread at every program point.

* `Settled`: the thread's level is the level of the mutex it acquired last, and every mutex it holds
  has saved the level of the one acquired before it;
* `AtPoint`: what is left of that in the middle of an operation;
* `Assertion`: `acquired` lists the held mutexes in strictly descending levels, and `AtPoint`;
* `reachable_assertion`: every reachable state satisfies it, by rely and guarantee.  A thread relies
  on nobody else changing the owner or the saved level of a mutex that it holds.
-/

namespace ConcurrencyInAction.HierachicalMutex

open Interleaving ExclusiveLock

variable {T M : Type*} (hierarchyValue : M → UInt64)

/-! ### Stacks of levels -/

/-- The level of a thread that holds these mutexes, the most recent first. -/
def level : List M → UInt64
  | [] => ulongMax
  | m :: _ => hierarchyValue m

/-- Levels strictly descend in the order of acquisition (the list starts with the last one). -/
def Descending (ms : List M) : Prop := ms.Pairwise fun a b => hierarchyValue a < hierarchyValue b

/-- Every mutex of the list has saved the level of the mutexes acquired before it. -/
def Saved (previous : M → UInt64) : List M → Prop
  | [] => True
  | m :: ms => previous m = level hierarchyValue ms ∧ Saved previous ms

variable {hierarchyValue}

theorem Descending.level_le {ms : List M} (h : Descending hierarchyValue ms) {m : M} (hm : m ∈ ms) :
    level hierarchyValue ms ≤ hierarchyValue m := by
  cases ms with
  | nil => cases hm
  | cons a as =>
    rcases List.mem_cons.mp hm with rfl | hm
    · exact UInt64.le_refl _
    · exact UInt64.le_of_lt ((List.pairwise_cons.mp h).1 m hm)

theorem Descending.cons {ms : List M} (h : Descending hierarchyValue ms) {m : M}
    (hlt : hierarchyValue m < level hierarchyValue ms) : Descending hierarchyValue (m :: ms) :=
  List.pairwise_cons.mpr ⟨fun _ hx => UInt64.lt_of_lt_of_le hlt (h.level_le hx), h⟩

theorem Descending.not_mem {ms : List M} {m : M} (h : Descending hierarchyValue (m :: ms)) :
    m ∉ ms := by
  intro hm
  exact UInt64.lt_irrefl _ ((List.pairwise_cons.mp h).1 m hm)

/-- A held mutex at the thread's own level is the one acquired last. -/
theorem Descending.eq_cons {ms : List M} (h : Descending hierarchyValue ms) {m : M} (hm : m ∈ ms)
    (hl : level hierarchyValue ms = hierarchyValue m) : ∃ rest, ms = m :: rest := by
  cases ms with
  | nil => cases hm
  | cons a as =>
    rcases List.mem_cons.mp hm with rfl | hm
    · exact ⟨as, rfl⟩
    · have hlt : hierarchyValue a < hierarchyValue m := (List.pairwise_cons.mp h).1 m hm
      rw [show hierarchyValue a = hierarchyValue m from hl] at hlt
      exact absurd hlt (UInt64.lt_irrefl _)

theorem Saved.congr {previous previous' : M → UInt64} {ms : List M}
    (hsame : ∀ m ∈ ms, previous' m = previous m) (h : Saved hierarchyValue previous ms) :
    Saved hierarchyValue previous' ms := by
  induction ms with
  | nil => trivial
  | cons m ms ih =>
    exact ⟨(hsame m List.mem_cons_self).trans h.1,
      ih (fun x hx => hsame x (List.mem_cons_of_mem m hx)) h.2⟩

/-- The saved levels entry by entry: `m` has saved the level of the mutexes acquired before it. -/
theorem Saved.entry {previous : M → UInt64} {later earlier : List M} {m : M}
    (h : Saved hierarchyValue previous (later ++ m :: earlier)) :
    previous m = level hierarchyValue earlier := by
  induction later with
  | nil => exact h.1
  | cons _ _ ih => exact ih h.2

/-! ### The assertion of one thread -/

variable (hierarchyValue)

/-- The thread's level and the saved levels of a thread outside the critical steps. -/
def Settled (previous : M → UInt64) (l : Thread M) : Prop :=
  l.thisThreadHierarchyValue = level hierarchyValue l.acquired ∧
    Saved hierarchyValue previous l.acquired

/-- What holds at each program point. -/
def AtPoint (previous : M → UInt64) (l : Thread M) : Prop :=
  match l.point with
  | .idle | .lockCheck _ | .tryCheck _ => Settled hierarchyValue previous l
  | .lockAcquire m | .tryAcquire m =>
      Settled hierarchyValue previous l ∧ hierarchyValue m < l.thisThreadHierarchyValue
  -- the new mutex is already on the list, its saved level and the thread's level are not yet set
  | .savePrevious m => ∃ ms, l.acquired = m :: ms ∧
      l.thisThreadHierarchyValue = level hierarchyValue ms ∧ Saved hierarchyValue previous ms
  | .setThis m => ∃ ms, l.acquired = m :: ms ∧
      l.thisThreadHierarchyValue = level hierarchyValue ms ∧ Saved hierarchyValue previous (m :: ms)
  | .unlockCheck m => m ∈ l.acquired ∧ Settled hierarchyValue previous l
  | .unlockRestore m => ∃ ms, l.acquired = m :: ms ∧
      l.thisThreadHierarchyValue = hierarchyValue m ∧ Saved hierarchyValue previous (m :: ms)
  | .unlockRelease m => ∃ ms, l.acquired = m :: ms ∧
      l.thisThreadHierarchyValue = level hierarchyValue ms ∧ Saved hierarchyValue previous (m :: ms)
  | .undefined => False

/-- The assertion of thread `t`. -/
structure Assertion (t : T) (g : Shared T M) (l : Thread M) : Prop where
  owns : ∀ m, m ∈ l.acquired ↔ g.internalMutex m = some t
  descending : Descending hierarchyValue l.acquired
  atPoint : AtPoint hierarchyValue g.previousHierarchyValue l

/-- What thread `u` relies on. -/
def Rely (u : T) (g g' : Shared T M) : Prop :=
  SameHolder u g.internalMutex g'.internalMutex ∧
    ∀ m, g.internalMutex m = some u → g'.previousHierarchyValue m = g.previousHierarchyValue m

variable {hierarchyValue}

theorem AtPoint.congr {previous previous' : M → UInt64} {l : Thread M}
    (hsame : ∀ m ∈ l.acquired, previous' m = previous m) (h : AtPoint hierarchyValue previous l) :
    AtPoint hierarchyValue previous' l := by
  have hsettled : Settled hierarchyValue previous l → Settled hierarchyValue previous' l :=
    fun hs => ⟨hs.1, hs.2.congr hsame⟩
  unfold AtPoint at h ⊢
  split at h
  all_goals try exact hsettled h
  all_goals try exact ⟨hsettled h.1, h.2⟩
  all_goals try exact ⟨h.1, hsettled h.2⟩
  · obtain ⟨ms, hms, ht, hsv⟩ := h
    exact ⟨ms, hms, ht, hsv.congr fun x hx => hsame x (hms ▸ List.mem_cons_of_mem _ hx)⟩
  all_goals try
    obtain ⟨ms, hms, ht, hsv⟩ := h
    exact ⟨ms, hms, ht, hsv.congr fun x hx => hsame x (hms ▸ hx)⟩
  exact h

theorem Assertion.stable {u : T} {g g' : Shared T M} {l : Thread M} (hr : Rely u g g')
    (h : Assertion hierarchyValue u g l) : Assertion hierarchyValue u g' l where
  owns m := (h.owns m).trans (hr.1 m).symm
  descending := h.descending
  atPoint := h.atPoint.congr fun m hm => hr.2 m ((h.owns m).mp hm)

/-! ### What the other threads see -/

theorem Rely.refl (u : T) (g : Shared T M) : Rely u g g := ⟨SameHolder.refl u _, fun _ _ => rfl⟩

theorem Assertion.init (t : T) :
    Assertion hierarchyValue t (initial (T := T) (M := M)).shared (initial.locals t) where
  owns m := by simp [initial]
  descending := List.Pairwise.nil
  atPoint := ⟨rfl, trivial⟩

/-- A step that leaves the mutexes and the list alone only has to establish `AtPoint`. -/
theorem Assertion.move {t : T} {g : Shared T M} {l l' : Thread M}
    (h : Assertion hierarchyValue t g l)
    (hacq : l'.acquired = l.acquired) (hat : AtPoint hierarchyValue g.previousHierarchyValue l') :
    Assertion hierarchyValue t g l' where
  owns m := by rw [hacq]; exact h.owns m
  descending := by rw [hacq]; exact h.descending
  atPoint := hat

section Steps

variable [DecidableEq M]

theorem Rely.take {g : Shared T M} {t u : T} {m : M} (hfree : g.internalMutex m = none)
    (hu : u ≠ t) : Rely u g (g.take t m) :=
  ⟨SameHolder.lock hfree hu, fun _ _ => rfl⟩

theorem Rely.release {g : Shared T M} {t u : T} {m : M} (hheld : g.internalMutex m = some t)
    (hu : u ≠ t) : Rely u g (g.release m) :=
  ⟨SameHolder.unlock hheld hu, fun _ _ => rfl⟩

/-- Only the owner of a mutex writes its saved level. -/
theorem Rely.save {g : Shared T M} {t u : T} {m : M} (hheld : g.internalMutex m = some t)
    (hu : u ≠ t) (v : UInt64) :
    Rely u g (g.save m v) := by
  refine ⟨SameHolder.refl u _, fun x hx => ?_⟩
  have hne : x ≠ m := by
    rintro rfl
    exact hu (Option.some.inj (hx.symm.trans hheld))
  exact Function.update_of_ne hne _ _

/-! ### One step -/

/-- The internal lock of `m` is acquired: past the check, `m` lies below everything held. -/
theorem Assertion.takes {t : T} {g : Shared T M} {l : Thread M} {m : M}
    (h : Assertion hierarchyValue t g l) (hs : Settled hierarchyValue g.previousHierarchyValue l)
    (hlt : hierarchyValue m < l.thisThreadHierarchyValue) :
    Assertion hierarchyValue t (g.take t m)
      { l.goto (.savePrevious m) with acquired := m :: l.acquired } where
  owns x := by
    by_cases hx : x = m
    · subst hx
      simp [Shared.take]
    · simp [Shared.take, hx, h.owns x]
  descending := h.descending.cons (hs.1 ▸ hlt)
  atPoint := ⟨l.acquired, rfl, hs⟩

/-- `update_hierarchy_value` saves the thread's level in the mutex just acquired. -/
theorem Assertion.savesPrevious {t : T} {g : Shared T M} {l : Thread M} {m : M}
    (h : Assertion hierarchyValue t g l) (hp : l.point = .savePrevious m) :
    Assertion hierarchyValue t (g.save m l.thisThreadHierarchyValue) (l.goto (.setThis m)) where
  owns := h.owns
  descending := h.descending
  atPoint := by
    have ha := h.atPoint
    simp only [AtPoint, hp] at ha
    obtain ⟨ms, hms, ht, hsv⟩ := ha
    have hd : Descending hierarchyValue (m :: ms) := hms ▸ h.descending
    refine ⟨ms, hms, ht, ?_, ?_⟩
    · simp [Shared.save, ht]
    · refine hsv.congr fun x hx => ?_
      have hne : x ≠ m := fun he => hd.not_mem (he ▸ hx)
      exact Function.update_of_ne hne _ _

/-- `unlock` gives the internal lock of `m` back. -/
theorem Assertion.releases {t : T} {g : Shared T M} {l : Thread M} {m : M}
    (h : Assertion hierarchyValue t g l) (hp : l.point = .unlockRelease m) :
    Assertion hierarchyValue t (g.release m)
      { l.finish .returned with acquired := l.acquired.erase m } := by
  have ha := h.atPoint
  simp only [AtPoint, hp] at ha
  obtain ⟨ms, hms, ht, hsv⟩ := ha
  have hd : Descending hierarchyValue (m :: ms) := hms ▸ h.descending
  have herase : l.acquired.erase m = ms := by rw [hms, List.erase_cons_head]
  refine ⟨fun x => ?_, ?_, ?_⟩
  · have hx := h.owns x
    rw [hms] at hx
    show x ∈ l.acquired.erase m ↔ Function.update g.internalMutex m none x = some t
    rw [herase]
    by_cases hxm : x = m
    · subst hxm
      simp [hd.not_mem]
    · rw [Function.update_of_ne hxm, ← hx, List.mem_cons]
      simp [hxm]
  · show Descending hierarchyValue (l.acquired.erase m)
    rw [herase]
    exact (List.pairwise_cons.mp hd).2
  · show l.thisThreadHierarchyValue = level hierarchyValue (l.acquired.erase m) ∧
      Saved hierarchyValue g.previousHierarchyValue (l.acquired.erase m)
    rw [herase]
    exact ⟨ht, hsv.2⟩

/-- **The step lemma.**  A step of `t` re-establishes the assertion of `t`, and every other thread
sees a step it relies on. -/
theorem Assertion.step {s : Config T (Shared T M) (Thread M)} {t : T} {c : Choice M}
    {g' : Shared T M} {l' : Thread M} (h : Assertion hierarchyValue t s.shared (s.locals t))
    (hok : unlocksHeld s t c)
    (hstep : Step hierarchyValue t s.shared (s.locals t) c g' l') :
    Assertion hierarchyValue t g' l' ∧ ∀ u, u ≠ t → Rely u s.shared g' := by
  have ha := h.atPoint
  cases hstep with
  | callLock hp | callTryLock hp =>
    simp only [AtPoint, hp] at ha
    exact ⟨h.move rfl ha, fun u _ => Rely.refl u _⟩
  | callUnlock hp =>
    simp only [AtPoint, hp] at ha
    exact ⟨h.move rfl ⟨(h.owns _).mpr (hok _ rfl), ha⟩, fun u _ => Rely.refl u _⟩
  | checkThrows hp hle =>
    rcases hp with hp | hp
    all_goals
      simp only [AtPoint, hp] at ha
      exact ⟨h.move rfl ha, fun u _ => Rely.refl u _⟩
  | lockCheckPasses hp hlt | tryCheckPasses hp hlt =>
    simp only [AtPoint, hp] at ha
    exact ⟨h.move rfl ⟨ha, hlt⟩, fun u _ => Rely.refl u _⟩
  | takes hp hfree =>
    rcases hp with hp | hp
    all_goals
      simp only [AtPoint, hp] at ha
      exact ⟨h.takes ha.1 ha.2, fun u hu => Rely.take hfree hu⟩
  | tryFails hp _ | tryFailsSpuriously hp =>
    simp only [AtPoint, hp] at ha
    exact ⟨h.move rfl ha.1, fun u _ => Rely.refl u _⟩
  | @savesPrevious m hp =>
    simp only [AtPoint, hp] at ha
    obtain ⟨ms, hms, -⟩ := ha
    have hheld : s.shared.internalMutex m = some t :=
      (h.owns m).mp (hms ▸ List.mem_cons_self)
    exact ⟨h.savesPrevious hp, fun u hu => Rely.save hheld hu _⟩
  | setsThis hp =>
    simp only [AtPoint, hp] at ha
    obtain ⟨ms, hms, -, hsv⟩ := ha
    refine ⟨h.move rfl ⟨?_, ?_⟩, fun u _ => Rely.refl u _⟩
    · rw [show ((s.locals t).finish .returned).acquired = _ from hms]
      rfl
    · rw [show ((s.locals t).finish .returned).acquired = _ from hms]
      exact hsv
  | unlockThrows hp _ =>
    simp only [AtPoint, hp] at ha
    exact ⟨h.move rfl ha.2, fun u _ => Rely.refl u _⟩
  | unlockPasses hp he =>
    simp only [AtPoint, hp] at ha
    obtain ⟨hm, hl, hsv⟩ := ha
    -- levels are distinct along the list, so the mutex at the thread's level is its head
    obtain ⟨rest, hrest⟩ := h.descending.eq_cons hm (hl.symm.trans he)
    exact ⟨h.move rfl ⟨rest, hrest, he, hrest ▸ hsv⟩, fun u _ => Rely.refl u _⟩
  | restores hp =>
    simp only [AtPoint, hp] at ha
    obtain ⟨ms, hms, -, hsv⟩ := ha
    exact ⟨h.move rfl ⟨ms, hms, hsv.1, hsv⟩, fun u _ => Rely.refl u _⟩
  | releases hp hheld => exact ⟨h.releases hp, fun u hu => Rely.release hheld hu⟩
  | releasesForeign hp hforeign =>
    simp only [AtPoint, hp] at ha
    obtain ⟨ms, hms, -⟩ := ha
    exact absurd ((h.owns _).mp (hms ▸ List.mem_cons_self)) hforeign

/-! ### Every run -/

variable [DecidableEq T]

variable (hierarchyValue) in
theorem relyGuarantee :
    RelyGuarantee (program (T := T) hierarchyValue) unlocksHeld (fun _ => True)
      (Assertion hierarchyValue) Rely where
  stable _ _ _ _ hr h := h.stable hr
  step _ t _ _ _ _ hP hok hp :=
    ⟨trivial, (hP t).step hok ((program_eq_some hierarchyValue).mp hp)⟩

/-- **The invariant.**  Every thread satisfies its assertion in every reachable state. -/
theorem reachable_assertion {s : Config T (Shared T M) (Thread M)}
    (hs : Reachable (program hierarchyValue) unlocksHeld initial s) (t : T) :
    Assertion hierarchyValue t s.shared (s.locals t) :=
  (hs.rely_guarantee (relyGuarantee hierarchyValue) ⟨trivial, Assertion.init⟩).2 t

end Steps

end ConcurrencyInAction.HierachicalMutex
