import ConcurrencyInAction.Lib.Interleaving
import Mathlib.Data.Finset.Basic

/-!
# Regions guarded by a reader/writer lock

A reader/writer lock is held by one thread exclusively or by any number of threads together, and
guards a resource: who reads leaves it alone, who writes restores its invariant.

* `SharedMutex` and its four operations; `SharedMutex.Excludes`: a writer keeps the readers out;
* `SharedRegion`: the lock, the resource, its invariant, and what a thread inside knows at each
  point;
* `Free`, `Assertion`, `Rely`: the assertions of the rely/guarantee rule that belong to a region;
* `Move`: the kinds of steps, with what each has to establish; `Move.keeps`: **the rule of shared
  regions**;
* `relyGuarantee`: the rule for a whole program; `not_shared_of_exclusive`: exclusion, by points.
-/

open Interleaving

variable {T C G L R : Type*}

/-- A reader/writer lock by its holders. -/
structure SharedMutex (T : Type*) where
  exclusive : Option T
  shared : Finset T

namespace SharedMutex

/-- Nobody holds the lock. -/
def free : SharedMutex T := ⟨none, ∅⟩

/-- A writer keeps the readers out. -/
def Excludes (m : SharedMutex T) : Prop := m.exclusive ≠ none → m.shared = ∅

variable [DecidableEq T]

/-- A reader waits for the writer. -/
def lockShared (m : SharedMutex T) (t : T) : Option (SharedMutex T) :=
  if m.exclusive = none then some { m with shared := insert t m.shared } else none

def unlockShared (m : SharedMutex T) (t : T) : SharedMutex T :=
  { m with shared := m.shared.erase t }

/-- A writer waits for the readers and for another writer. -/
def lock (m : SharedMutex T) (t : T) : Option (SharedMutex T) :=
  if m.exclusive = none ∧ m.shared = ∅ then some { m with exclusive := some t } else none

omit [DecidableEq T] in
def unlock (m : SharedMutex T) : SharedMutex T := { m with exclusive := none }

theorem lockShared_eq_some {m m' : SharedMutex T} {t : T} :
    m.lockShared t = some m' ↔
      m.exclusive = none ∧ m' = { m with shared := insert t m.shared } := by
  rw [lockShared, Option.ite_none_right_eq_some, Option.some.injEq, eq_comm (a := m')]

theorem lock_eq_some {m m' : SharedMutex T} {t : T} :
    m.lock t = some m' ↔
      (m.exclusive = none ∧ m.shared = ∅) ∧ m' = { m with exclusive := some t } := by
  rw [lock, Option.ite_none_right_eq_some, Option.some.injEq, eq_comm (a := m')]

end SharedMutex

/-- How a thread holds the lock. -/
inductive Access where
  | shared
  | exclusive
  deriving DecidableEq

/-- A lock, the resource it guards, how a thread holds the lock at its points, the invariant of the
resource, and what a thread inside knows of the resource. -/
structure SharedRegion (T G L R : Type*) where
  mutex : G → SharedMutex T
  resource : G → R
  access : L → Option Access
  Invariant : R → Prop
  Known : L → R → Prop

namespace SharedRegion

variable (γ : SharedRegion T G L R)

/-- The lock excludes, and while nobody writes the invariant holds. -/
structure Free (g : G) : Prop where
  excludes : (γ.mutex g).Excludes
  invariant : (γ.mutex g).exclusive = none → γ.Invariant (γ.resource g)

/-- A thread holds the lock as its point says, and inside it knows what it should. -/
structure Assertion (t : T) (g : G) (l : L) : Prop where
  shares : t ∈ (γ.mutex g).shared ↔ γ.access l = some .shared
  owns : (γ.mutex g).exclusive = some t ↔ γ.access l = some .exclusive
  known : γ.access l ≠ none → γ.Known l (γ.resource g)

/-- Other threads neither take nor release the lock for `u`, and leave the resource alone while `u`
is inside. -/
structure Rely (u : T) (g g' : G) : Prop where
  shares : u ∈ (γ.mutex g').shared ↔ u ∈ (γ.mutex g).shared
  owns : (γ.mutex g').exclusive = some u ↔ (γ.mutex g).exclusive = some u
  resource : u ∈ (γ.mutex g).shared ∨ (γ.mutex g).exclusive = some u →
    γ.resource g' = γ.resource g

variable [DecidableEq T]

/-- What a step of thread `t` does, as far as the region is concerned. -/
inductive Move (t : T) (g : G) (l : L) (g' : G) (l' : L) : Prop
  | stay (hmutex : γ.mutex g' = γ.mutex g) (haccess : γ.access l' = γ.access l)
      (hres : γ.access l ≠ some .exclusive → γ.resource g' = γ.resource g)
      (hknown : γ.access l ≠ none → γ.Known l (γ.resource g) → γ.Known l' (γ.resource g'))
  | lockShared (hmutex : (γ.mutex g).lockShared t = some (γ.mutex g'))
      (hres : γ.resource g' = γ.resource g) (hl' : γ.access l' = some .shared)
      (hknown : γ.Invariant (γ.resource g) → γ.Known l' (γ.resource g))
  | unlockShared (hmutex : γ.mutex g' = (γ.mutex g).unlockShared t)
      (hres : γ.resource g' = γ.resource g) (hl : γ.access l = some .shared)
      (hl' : γ.access l' = none)
  | lock (hmutex : (γ.mutex g).lock t = some (γ.mutex g')) (hl' : γ.access l' = some .exclusive)
      (hknown : γ.Invariant (γ.resource g) → γ.Known l' (γ.resource g'))
  | unlock (hmutex : γ.mutex g' = (γ.mutex g).unlock) (hl : γ.access l = some .exclusive)
      (hl' : γ.access l' = none) (hinv : γ.Known l (γ.resource g) → γ.Invariant (γ.resource g'))

variable {γ} {t u : T} {g g' : G} {l l' : L}

omit [DecidableEq T] in
theorem Assertion.stable (h : γ.Assertion u g l) (hr : γ.Rely u g g') : γ.Assertion u g' l where
  shares := hr.shares.trans h.shares
  owns := hr.owns.trans h.owns
  known hl := by
    have hin : u ∈ (γ.mutex g).shared ∨ (γ.mutex g).exclusive = some u := by
      cases ha : γ.access l with
      | none => exact absurd ha hl
      | some a =>
        cases a with
        | shared => exact .inl (h.shares.mpr ha)
        | exclusive => exact .inr (h.owns.mpr ha)
    rw [hr.resource hin]
    exact h.known hl

omit [DecidableEq T] in
/-- Whoever holds the lock exclusively is alone. -/
theorem Free.alone (hfree : γ.Free g) (hown : (γ.mutex g).exclusive = some t) (hu : u ≠ t) :
    u ∉ (γ.mutex g).shared ∧ (γ.mutex g).exclusive ≠ some u := by
  constructor
  · rw [hfree.excludes (by rw [hown]; exact Option.some_ne_none t)]
    exact Finset.notMem_empty u
  · rw [hown]
    exact fun he => hu (Option.some.inj he).symm

/-- **The rule of shared regions.**  Every move keeps the assertion of the region and that of its
thread, and the other threads rely on it. -/
theorem Move.keeps (hfree : γ.Free g) (h : γ.Assertion t g l) (hm : γ.Move t g l g' l') :
    γ.Free g' ∧ γ.Assertion t g' l' ∧ ∀ u, u ≠ t → γ.Rely u g g' := by
  cases hm with
  | stay hmutex haccess hres hknown =>
    refine ⟨⟨?_, fun hnone => ?_⟩, ⟨?_, ?_, fun hin => ?_⟩, fun u hu => ⟨?_, ?_, fun hin => ?_⟩⟩
    · rw [hmutex]
      exact hfree.excludes
    · rw [hmutex] at hnone
      have hl : γ.access l ≠ some .exclusive := by
        rw [ne_eq, ← h.owns, hnone]
        exact (Option.some_ne_none t).symm
      rw [hres hl]
      exact hfree.invariant hnone
    · rw [hmutex, haccess, h.shares]
    · rw [hmutex, haccess, h.owns]
    · rw [haccess] at hin
      exact hknown hin (h.known hin)
    · rw [hmutex]
    · rw [hmutex]
    · apply hres
      intro hl
      exact (not_or.mpr (hfree.alone (h.owns.mpr hl) hu) hin).elim
  | lockShared hmutex hres hl' hknown =>
    obtain ⟨hnone, hm'⟩ := SharedMutex.lockShared_eq_some.mp hmutex
    refine ⟨⟨?_, ?_⟩, ⟨?_, ?_, fun _ => ?_⟩, fun u hu => ⟨?_, ?_, fun _ => hres⟩⟩
    · rw [hm']
      exact fun hex => absurd hnone hex
    · rw [hres]
      exact fun _ => hfree.invariant hnone
    · rw [hm', hl']
      exact iff_of_true (Finset.mem_insert_self t _) rfl
    · rw [hm', hl']
      show (γ.mutex g).exclusive = some t ↔ _
      rw [hnone]
      exact iff_of_false (Option.some_ne_none t).symm nofun
    · rw [hres]
      exact hknown (hfree.invariant hnone)
    · rw [hm', Finset.mem_insert]
      exact or_iff_right hu
    · rw [hm']
  | unlockShared hmutex hres hl hl' =>
    refine ⟨⟨?_, ?_⟩, ⟨?_, ?_, fun hin => absurd hl' hin⟩, fun u hu => ⟨?_, ?_, fun _ => hres⟩⟩
    · rw [hmutex]
      intro hex
      show (γ.mutex g).shared.erase t = ∅
      rw [hfree.excludes hex, Finset.erase_empty]
    · rw [hmutex, hres]
      exact hfree.invariant
    · rw [hmutex, hl']
      exact iff_of_false (Finset.notMem_erase t _) nofun
    · rw [hmutex, hl']
      exact h.owns.trans (by rw [hl]; exact iff_of_false nofun nofun)
    · rw [hmutex]
      exact Finset.mem_erase.trans (and_iff_right hu)
    · rw [hmutex]
      exact Iff.rfl
  | lock hmutex hl' hknown =>
    obtain ⟨⟨hnone, hempty⟩, hm'⟩ := SharedMutex.lock_eq_some.mp hmutex
    refine ⟨⟨?_, ?_⟩, ⟨?_, ?_, fun _ => ?_⟩, fun u hu => ⟨?_, ?_, ?_⟩⟩
    · rw [hm']
      exact fun _ => hempty
    · rw [hm']
      exact nofun
    · rw [hm', hl']
      show t ∈ (γ.mutex g).shared ↔ _
      rw [hempty]
      exact iff_of_false (Finset.notMem_empty t) nofun
    · rw [hm', hl']
      exact iff_of_true rfl rfl
    · exact hknown (hfree.invariant hnone)
    · rw [hm']
    · rw [hm', hnone]
      exact iff_of_false (fun he => hu (Option.some.inj he).symm) (Option.some_ne_none u).symm
    · rw [hempty, hnone]
      intro h
      rcases h with hin | hex
      · exact absurd hin (Finset.notMem_empty u)
      · exact absurd hex.symm (Option.some_ne_none u)
  | unlock hmutex hl hl' hinv =>
    have hown := h.owns.mpr hl
    have hinv' := hinv (h.known (by rw [hl]; exact Option.some_ne_none _))
    refine ⟨⟨?_, fun _ => hinv'⟩, ⟨?_, ?_, fun hin => absurd hl' hin⟩, fun u hu => ⟨?_, ?_, ?_⟩⟩
    · rw [hmutex]
      exact fun hex => absurd rfl hex
    · rw [hmutex, hl']
      exact h.shares.trans (by rw [hl]; exact iff_of_false nofun nofun)
    · rw [hmutex, hl']
      exact iff_of_false (Option.some_ne_none t).symm nofun
    · rw [hmutex]
      exact Iff.rfl
    · rw [hmutex]
      exact iff_of_false (Option.some_ne_none u).symm (hfree.alone hown hu).2
    · exact fun hin => (not_or.mpr (hfree.alone hown hu) hin).elim

/-- **Programs with one shared region.**  If every step of a thread that satisfies its assertion is
a move, the assertions are those of a rely/guarantee proof. -/
theorem relyGuarantee {p : Program T C G L} {ok : Config T G L → T → C → Prop}
    (hmove : ∀ t c g l g' l', γ.Assertion t g l → p t c g l = some (g', l') →
      γ.Move t g l g' l') :
    RelyGuarantee p ok γ.Free γ.Assertion γ.Rely where
  stable _ _ _ _ hr h := h.stable hr
  step s t c g' l' hfree hP _ hp :=
    (hmove t c s.shared (s.locals t) g' l' (hP t) hp).keeps hfree (hP t)

omit [DecidableEq T] in
/-- Nobody reads while somebody writes. -/
theorem not_shared_of_exclusive {k : L} (hfree : γ.Free g) (ht : γ.Assertion t g l)
    (hu : γ.Assertion u g k) (hl : γ.access l = some .exclusive) : γ.access k ≠ some .shared := by
  intro hk
  have hex := hfree.excludes (by rw [ht.owns.mpr hl]; exact Option.some_ne_none t)
  have hin := hu.shares.mpr hk
  rw [hex] at hin
  exact Finset.notMem_empty u hin

end SharedRegion
