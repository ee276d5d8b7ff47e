import ConcurrencyInAction.Lib.Interleaving

/-!
# `spinlock_mutex`: mutual exclusion

Any number of threads that lock and unlock one `spinlock_mutex` again and again:

* `flag.test_and_set()` and `flag.clear()` are atomic steps, and the test of the loop on the
  returned value is a step of its own; the shared state records the operations on the flag, the
  newest first;
* `Obtained`: the last operation of the thread is a `test_and_set` that returned `false`;
* `holder`: the thread that the history leaves in possession of the lock;
* `mutual_exclusion`: at most one thread has obtained the lock, and the flag says whether there is
  one.
-/

namespace ConcurrencyInAction.SpinlockMutex

open Interleaving

variable {T : Type*}

/-! ### The code -/

/-- An operation on the flag: the thread, and what it read. -/
inductive Event (T : Type*) where
  | testAndSet (thread : T) (value : Bool)
  | clear (thread : T)
  deriving DecidableEq

/-- The flag, and the operations on it so far. -/
structure Shared (T : Type*) where
  flag : Bool
  history : List (Event T)

/-- Where a thread is: outside the lock, at a statement of `lock` or `unlock`, or past `lock`. -/
inductive Point where
  | outside
  | testAndSet
  | test (value : Bool)
  | locked
  | clear
  deriving DecidableEq

/-- The client calls `lock` or `unlock`, or the thread takes the next step of the call. -/
inductive Choice where
  | lock
  | unlock
  | run
  deriving DecidableEq

/-- The statements of `lock` and `unlock`; `unlock` is only called when `lock` has returned. -/
def program : Program T Choice (Shared T) Point := fun t c g l =>
  match l, c with
  | .outside, .lock => some (g, .testAndSet)
  | .testAndSet, .run => some (⟨true, .testAndSet t g.flag :: g.history⟩, .test g.flag)
  | .test value, .run => some (g, if value then .testAndSet else .locked)
  | .locked, .unlock => some (g, .clear)
  | .clear, .run => some (⟨false, .clear t :: g.history⟩, .outside)
  | _, _ => none

/-- The constructor leaves the flag clear. -/
def initial : Config T (Shared T) Point where
  shared := ⟨false, []⟩
  locals := fun _ => .outside

/-! ### Possession of the lock -/

def Event.thread : Event T → T
  | .testAndSet t _ => t
  | .clear t => t

/-- The last operation of the thread is a `test_and_set` that returned `false`. -/
def Obtained [DecidableEq T] (t : T) (history : List (Event T)) : Prop :=
  history.find? (fun e => e.thread = t) = some (.testAndSet t false)

instance [DecidableEq T] (t : T) (history : List (Event T)) : Decidable (Obtained t history) :=
  inferInstanceAs (Decidable (_ = _))

/-- The thread that the history leaves in possession of the lock. -/
def holder : List (Event T) → Option T
  | [] => none
  | .testAndSet t false :: _ => some t
  | .testAndSet _ true :: es => holder es
  | .clear _ :: _ => none

/-- The thread is between its successful `test_and_set` and its `clear`. -/
def Point.Inside : Point → Prop
  | .test false => True
  | .locked => True
  | .clear => True
  | _ => False

variable [DecidableEq T] {t u : T} {c : Choice} {g g' : Shared T} {l l' : Point}

theorem obtained_cons_self {e : Event T} {es : List (Event T)} (he : e.thread = t) :
    Obtained t (e :: es) ↔ e = .testAndSet t false := by
  unfold Obtained
  rw [List.find?_cons_of_pos (by simpa using he), Option.some.injEq]

theorem obtained_cons_of_ne {e : Event T} {es : List (Event T)} (he : e.thread ≠ t) :
    Obtained t (e :: es) ↔ Obtained t es := by
  unfold Obtained
  rw [List.find?_cons_of_neg (by simpa using he)]

/-! ### The invariant -/

/-- The flag is set exactly when somebody holds the lock. -/
def FlagSet (g : Shared T) : Prop := g.flag = (holder g.history).isSome

/-- A thread holds the lock exactly inside, and has obtained it exactly then. -/
structure Assertion (t : T) (g : Shared T) (l : Point) : Prop where
  holds : holder g.history = some t ↔ l.Inside
  obtained : Obtained t g.history ↔ l.Inside

/-- The other threads neither take the lock from a thread nor give it to it. -/
structure Rely (u : T) (g g' : Shared T) : Prop where
  holds : holder g'.history = some u ↔ holder g.history = some u
  obtained : Obtained u g'.history ↔ Obtained u g.history

theorem Assertion.stable (hr : Rely u g g') (h : Assertion u g l) : Assertion u g' l where
  holds := hr.holds.trans h.holds
  obtained := hr.obtained.trans h.obtained

/-- A step inside a thread, without an operation on the flag. -/
theorem keeps_of_quiet (hflag : FlagSet g) (h : Assertion t g l) (hl : l'.Inside ↔ l.Inside) :
    FlagSet g ∧ Assertion t g l' ∧ ∀ u, u ≠ t → Rely u g g :=
  ⟨hflag, ⟨h.holds.trans hl.symm, h.obtained.trans hl.symm⟩, fun _ _ => ⟨Iff.rfl, Iff.rfl⟩⟩

/-- `test_and_set` on a flag that is set leaves everything to the holder. -/
theorem keeps_of_spin (hflag : FlagSet g) (h : Assertion t g l) (hset : g.flag = true)
    (hl : ¬ l.Inside) :
    FlagSet ⟨true, .testAndSet t true :: g.history⟩ ∧
      Assertion t ⟨true, .testAndSet t true :: g.history⟩ (.test true) ∧
      ∀ u, u ≠ t → Rely u g ⟨true, .testAndSet t true :: g.history⟩ := by
  have hnot : ¬ (Point.test true).Inside := id
  refine ⟨hset.symm.trans hflag, ⟨?_, ?_⟩, fun u hu => ⟨Iff.rfl, obtained_cons_of_ne hu.symm⟩⟩
  · exact h.holds.trans (iff_of_false hl hnot)
  · exact (obtained_cons_self rfl).trans (iff_of_false nofun hnot)

/-- `test_and_set` on a clear flag takes the lock. -/
theorem keeps_of_take (hflag : FlagSet g) (hclear : g.flag = false) :
    FlagSet ⟨true, .testAndSet t false :: g.history⟩ ∧
      Assertion t ⟨true, .testAndSet t false :: g.history⟩ (.test false) ∧
      ∀ u, u ≠ t → Rely u g ⟨true, .testAndSet t false :: g.history⟩ := by
  have hfree : holder g.history = none := by
    rw [← Option.not_isSome_iff_eq_none, ← hflag, hclear]
    exact Bool.false_ne_true
  refine ⟨rfl, ⟨iff_of_true rfl trivial, ?_⟩, fun u hu => ⟨?_, obtained_cons_of_ne hu.symm⟩⟩
  · exact (obtained_cons_self rfl).trans (iff_of_true rfl trivial)
  · rw [hfree]
    exact iff_of_false (fun he => hu (Option.some.inj he).symm) nofun

/-- `clear` releases the lock of the thread that holds it. -/
theorem keeps_of_clear (h : Assertion t g l) (hl : l.Inside) :
    FlagSet ⟨false, .clear t :: g.history⟩ ∧
      Assertion t ⟨false, .clear t :: g.history⟩ .outside ∧
      ∀ u, u ≠ t → Rely u g ⟨false, .clear t :: g.history⟩ := by
  have hnot : ¬ Point.outside.Inside := id
  refine ⟨rfl, ⟨iff_of_false nofun hnot, ?_⟩, fun u hu => ⟨?_, obtained_cons_of_ne hu.symm⟩⟩
  · exact (obtained_cons_self rfl).trans (iff_of_false nofun hnot)
  · rw [h.holds.mpr hl]
    exact iff_of_false nofun (fun he => hu (Option.some.inj he).symm)

theorem relyGuarantee :
    RelyGuarantee (program (T := T)) anyStep FlagSet Assertion Rely where
  stable _ _ _ _ hr h := h.stable hr
  step s t c g' l' hflag hP _ hp := by
    have h := hP t
    generalize s.locals t = l at h hp
    unfold program at hp
    split at hp
    · cases hp
      exact keeps_of_quiet hflag h Iff.rfl
    · cases hf : s.shared.flag with
      | false =>
        rw [hf] at hp
        cases hp
        exact keeps_of_take hflag hf
      | true =>
        rw [hf] at hp
        cases hp
        exact keeps_of_spin hflag h hf id
    · rename_i value _
      cases hp
      cases value with
      | false => exact keeps_of_quiet hflag h Iff.rfl
      | true => exact keeps_of_quiet hflag h Iff.rfl
    · cases hp
      exact keeps_of_quiet hflag h Iff.rfl
    · cases hp
      exact keeps_of_clear h trivial
    · cases hp

variable {s : Config T (Shared T) Point}

theorem reachable_assertion (hs : Reachable program anyStep initial s) :
    FlagSet s.shared ∧ ∀ t, Assertion t s.shared (s.locals t) := by
  refine hs.rely_guarantee relyGuarantee ⟨?_, fun t => ⟨?_, ?_⟩⟩
  · rfl
  · exact iff_of_false (Option.some_ne_none _).symm id
  · exact iff_of_false (Option.some_ne_none _).symm id

/-- At most one thread is past `lock`. -/
theorem inside_unique (hs : Reachable program anyStep initial s) {t u : T}
    (ht : (s.locals t).Inside) (hu : (s.locals u).Inside) : t = u := by
  obtain ⟨-, h⟩ := reachable_assertion hs
  have he := ((h t).holds.mpr ht).symm.trans ((h u).holds.mpr hu)
  exact Option.some.inj he

/-- **Mutual exclusion of `spinlock_mutex`.** -/
theorem mutual_exclusion (hs : Reachable program anyStep initial s) :
    (∀ t u, Obtained t s.shared.history → Obtained u s.shared.history → t = u) ∧
      (s.shared.flag = true ↔ ∃ t, Obtained t s.shared.history) := by
  obtain ⟨hflag, h⟩ := reachable_assertion hs
  refine ⟨fun t u ht hu => ?_, ?_⟩
  · exact inside_unique hs ((h t).obtained.mp ht) ((h u).obtained.mp hu)
  · rw [hflag, Option.isSome_iff_exists]
    apply exists_congr
    intro t
    exact (h t).holds.trans (h t).obtained.symm

/-- One thread has the lock and has not tested the result yet, and another one spins. -/
def spinningRun : List (Bool × Choice) :=
  [(false, .lock), (true, .lock), (false, .run), (true, .run), (true, .run), (true, .run)]

theorem mutual_exclusion_spinningRun :
    ∃ t, Obtained t ((initial.run program spinningRun).get (by decide)).shared.history := by
  have hr := Reachable.of_run_any spinningRun
    (Option.some_get (x := initial.run program spinningRun) (by decide)).symm
  exact (mutual_exclusion hr).2.mp (by decide)

end ConcurrencyInAction.SpinlockMutex
