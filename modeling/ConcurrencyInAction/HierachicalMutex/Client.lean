import ConcurrencyInAction.HierachicalMutex.Deadlock

/-!
# Clients that respect the hierarchy

What a client can rely on that locks downwards and unlocks in the reverse order.

* `Respects`: the calls of such a client, with the mutexes held before and after;
* `Calling`: a thread that is about to make a call, or inside it;
* `Calling.step`: the call never throws, and it ends with the expected mutexes held;
* `Calling.ready_or_waits`: inside a call a thread can take its next step, or waits for a mutex that
  some thread holds;
* `Point.stepsLeft`: a bound on the steps left of a call, which every step brings down.
-/

namespace ConcurrencyInAction.HierachicalMutex

open Interleaving ExclusiveLock

variable {T M : Type*} {hierarchyValue : M → UInt64}

/-- `lock` below everything that is held, `unlock` of the mutex acquired last; the mutexes held
before the call and after it, the most recent first. -/
inductive Respects (hierarchyValue : M → UInt64) : Call M → List M → List M → Prop
  | lock {m : M} {held : List M} : hierarchyValue m < level hierarchyValue held →
      Respects hierarchyValue (.lock m) held (m :: held)
  | unlock {m : M} {held : List M} : Respects hierarchyValue (.unlock m) (m :: held) held

/-- The thread is about to call `f` with the mutexes `held`, or inside that call. -/
def Calling (f : Call M) (held : List M) (l : Thread M) : Prop :=
  match l.point with
  | .idle => l.acquired = held
  | .lockCheck m | .lockAcquire m => f = .lock m ∧ l.acquired = held
  | .savePrevious m | .setThis m => f = .lock m ∧ l.acquired = m :: held
  | .unlockCheck m | .unlockRestore m | .unlockRelease m => f = .unlock m ∧ l.acquired = held
  | .tryCheck _ | .tryAcquire _ | .undefined => False

/-- The next step of a thread that is to call `f`, or inside that call. -/
def Thread.choice (l : Thread M) (f : Call M) : Choice M :=
  match l.point with
  | .idle => .call f
  | _ => .run

/-- No check of the thread's last call has thrown. -/
def Thread.NoLogicError (l : Thread M) : Prop := ∀ what, l.outcome ≠ some (.logicError what)

variable {t : T} {g g' : Shared T M} {l l' : Thread M} {f : Call M} {held after : List M}

theorem Thread.choice_of_idle (hp : l.point = .idle) : l.choice f = .call f := by
  simp only [choice, hp]

theorem Thread.choice_of_ne (hp : l.point ≠ .idle) : l.choice f = .run := by
  unfold choice
  split
  · exact absurd ‹_› hp
  · rfl

/-- The check of `lock` passes: the thread's level is that of the mutexes it holds. -/
theorem Respects.lt_level {m : M} (hr : Respects hierarchyValue (.lock m) held after)
    (h : Assertion hierarchyValue t g l) (hp : l.point = .lockCheck m) (hacq : l.acquired = held) :
    hierarchyValue m < l.thisThreadHierarchyValue := by
  have ha := h.atPoint
  simp only [AtPoint, hp] at ha
  rw [ha.1, hacq]
  cases hr with
  | lock hlt => exact hlt

/-- The check of `unlock` passes. -/
theorem Respects.eq_level {m : M} (hr : Respects hierarchyValue (.unlock m) held after)
    (h : Assertion hierarchyValue t g l) (hp : l.point = .unlockCheck m)
    (hacq : l.acquired = held) : l.thisThreadHierarchyValue = hierarchyValue m := by
  have ha := h.atPoint
  simp only [AtPoint, hp] at ha
  rw [ha.2.1, hacq]
  cases hr with
  | unlock => rfl

section Steps

variable [DecidableEq M]

/-- **The contract of the member functions.**  A step of the call throws nothing; either the call
has returned, with the mutexes that it should leave held, or the thread is still inside. -/
theorem Calling.step (hr : Respects hierarchyValue f held after)
    (h : Assertion hierarchyValue t g l) (hc : Calling f held l) (hno : l.NoLogicError)
    (hstep : Step hierarchyValue t g l (l.choice f) g' l') :
    l'.NoLogicError ∧ (l'.point = .idle ∧ l'.acquired = after ∨
      l'.point ≠ .idle ∧ Calling f held l') := by
  unfold Calling at hc
  generalize hch : l.choice f = c at hstep
  cases hstep with
  | callLock hp | callUnlock hp =>
    rw [Thread.choice_of_idle hp] at hch
    cases hch
    rw [hp] at hc
    exact ⟨nofun, .inr ⟨nofun, rfl, hc⟩⟩
  | callTryLock hp =>
    rw [Thread.choice_of_idle hp] at hch
    cases hch
    cases hr
  | checkThrows hp hle =>
    rcases hp with hp | hp
    · rw [hp] at hc
      obtain ⟨rfl, hacq⟩ := hc
      exact absurd hle (UInt64.not_le.mpr (hr.lt_level h hp hacq))
    · rw [hp] at hc
      exact hc.elim
  | lockCheckPasses hp _ | unlockPasses hp _ | restores hp =>
    rw [hp] at hc
    exact ⟨hno, .inr ⟨nofun, hc⟩⟩
  | takes hp _ =>
    rcases hp with hp | hp
    · rw [hp] at hc
      obtain ⟨hf, hacq⟩ := hc
      exact ⟨hno, .inr ⟨nofun, hf, congrArg (List.cons _) hacq⟩⟩
    · rw [hp] at hc
      exact hc.elim
  | savesPrevious hp =>
    rw [hp] at hc
    exact ⟨hno, .inr ⟨nofun, hc⟩⟩
  | setsThis hp =>
    rw [hp] at hc
    obtain ⟨rfl, hacq⟩ := hc
    cases hr with
    | lock _ => exact ⟨nofun, .inl ⟨rfl, hacq⟩⟩
  | unlockThrows hp hne =>
    rw [hp] at hc
    obtain ⟨rfl, hacq⟩ := hc
    exact absurd (hr.eq_level h hp hacq) hne
  | releases hp _ =>
    rw [hp] at hc
    obtain ⟨rfl, hacq⟩ := hc
    cases hr with
    | unlock =>
      refine ⟨nofun, .inl ⟨rfl, ?_⟩⟩
      show l.acquired.erase _ = after
      rw [hacq, List.erase_cons_head]
  | releasesForeign hp hforeign =>
    have ha := h.atPoint
    simp only [AtPoint, hp] at ha
    obtain ⟨ms, hms, -⟩ := ha
    exact absurd ((h.owns _).mp (hms ▸ List.mem_cons_self)) hforeign
  | tryCheckPasses hp _ | tryFails hp _ | tryFailsSpuriously hp =>
    rw [hp] at hc
    exact hc.elim

omit [DecidableEq M] in
/-- Such a client unlocks only what it holds. -/
theorem Calling.unlocksHeld {s : Config T (Shared T M) (Thread M)}
    (hr : Respects hierarchyValue f held after)
    (h : Assertion hierarchyValue t s.shared (s.locals t))
    (hc : Calling f held (s.locals t)) : unlocksHeld s t ((s.locals t).choice f) := by
  intro m hm
  by_cases hp : (s.locals t).point = .idle
  · rw [Thread.choice_of_idle hp] at hm
    cases hm
    unfold Calling at hc
    rw [hp] at hc
    cases hr with
    | unlock => exact (h.owns m).mp (hc ▸ List.mem_cons_self)
  · rw [Thread.choice_of_ne hp] at hm
    cases hm

/-- **Only a held mutex keeps a call waiting.** -/
theorem Calling.ready_or_waits (hierarchyValue : M → UInt64) (t : T) (g : Shared T M)
    (hc : Calling f held l) :
    (∃ g' l', Step hierarchyValue t g l (l.choice f) g' l') ∨
      ∃ m u, l.point = .lockAcquire m ∧ g.internalMutex m = some u := by
  unfold Calling at hc
  cases hp : l.point with
  | idle =>
    rw [Thread.choice_of_idle hp]
    cases f with
    | lock m => exact .inl ⟨_, _, .callLock hp⟩
    | tryLock m => exact .inl ⟨_, _, .callTryLock hp⟩
    | unlock m => exact .inl ⟨_, _, .callUnlock hp⟩
  | tryCheck m | tryAcquire m | undefined =>
    rw [hp] at hc
    exact hc.elim
  | lockCheck m =>
    rw [Thread.choice_of_ne (by rw [hp]; nofun)]
    by_cases hle : l.thisThreadHierarchyValue ≤ hierarchyValue m
    · exact .inl ⟨_, _, .checkThrows (.inl hp) hle⟩
    · exact .inl ⟨_, _, .lockCheckPasses hp (UInt64.not_le.mp hle)⟩
  | lockAcquire m =>
    rw [Thread.choice_of_ne (by rw [hp]; nofun)]
    cases hown : g.internalMutex m with
    | none => exact .inl ⟨_, _, .takes (.inl hp) hown⟩
    | some u => exact .inr ⟨m, u, rfl, hown⟩
  | savePrevious m =>
    rw [Thread.choice_of_ne (by rw [hp]; nofun)]
    exact .inl ⟨_, _, .savesPrevious hp⟩
  | setThis m =>
    rw [Thread.choice_of_ne (by rw [hp]; nofun)]
    exact .inl ⟨_, _, .setsThis hp⟩
  | unlockCheck m =>
    rw [Thread.choice_of_ne (by rw [hp]; nofun)]
    by_cases he : l.thisThreadHierarchyValue = hierarchyValue m
    · exact .inl ⟨_, _, .unlockPasses hp he⟩
    · exact .inl ⟨_, _, .unlockThrows hp he⟩
  | unlockRestore m =>
    rw [Thread.choice_of_ne (by rw [hp]; nofun)]
    exact .inl ⟨_, _, .restores hp⟩
  | unlockRelease m =>
    rw [Thread.choice_of_ne (by rw [hp]; nofun)]
    by_cases hown : g.internalMutex m = some t
    · exact .inl ⟨_, _, .releases hp hown⟩
    · exact .inl ⟨_, _, .releasesForeign hp hown⟩

/-! ### The length of a call -/

/-- The steps left of a call, at most; for a thread that is about to make one, of the whole call. -/
def Point.stepsLeft : Point M → ℕ
  | .idle => 5
  | .lockCheck _ | .tryCheck _ => 4
  | .lockAcquire _ | .tryAcquire _ | .unlockCheck _ => 3
  | .savePrevious _ | .unlockRestore _ => 2
  | .setThis _ | .unlockRelease _ => 1
  | .undefined => 0

omit [DecidableEq M] in
theorem Calling.stepsLeft_pos (hc : Calling f held l) : 0 < l.point.stepsLeft := by
  unfold Calling at hc
  cases hp : l.point with
  | undefined =>
    rw [hp] at hc
    exact hc.elim
  | _ => exact Nat.succ_pos _

/-- A step that does not end the call brings its end closer. -/
theorem Step.stepsLeft_lt {c : Choice M} (hstep : Step hierarchyValue t g l c g' l')
    (hp' : l'.point ≠ .idle) : l'.point.stepsLeft < l.point.stepsLeft := by
  cases hstep with
  | callLock hp | callTryLock hp | callUnlock hp | lockCheckPasses hp _ | tryCheckPasses hp _
  | savesPrevious hp | unlockPasses hp _ | restores hp | releasesForeign hp _ =>
    simp [hp, Thread.enter, Thread.goto, Point.stepsLeft]
  | takes hp _ => rcases hp with hp | hp <;> simp [hp, Thread.goto, Point.stepsLeft]
  | checkThrows _ _ | tryFails _ _ | tryFailsSpuriously _ | setsThis _ | unlockThrows _ _
  | releases _ _ => exact absurd rfl hp'

end Steps

end ConcurrencyInAction.HierachicalMutex
