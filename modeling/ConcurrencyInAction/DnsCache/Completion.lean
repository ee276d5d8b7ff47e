import ConcurrencyInAction.DnsCache.AtomicMap
import ConcurrencyInAction.Lib.Completion

/-!
# Lookups and updates end

* `Point.work`: the steps that a thread has still to take;
* `exists_run_of_access`: whoever holds the mutex can go on, in whichever way it holds it;
* `lookups_complete`: **the calls in progress end**, whatever the order of their steps, and leave
  the abstract map in the cache.
-/

namespace ConcurrencyInAction.DnsCache

open Interleaving

variable {T E : Type*}

/-- The steps that a thread has still to take. -/
def Point.work : Point E → ℕ
  | .idle | .undefined => 0
  | .findLock _ | .updateLock _ _ => 4
  | .find _ _ | .insert _ _ => 3
  | .copy _ _ _ | .assign _ _ => 2
  | .findUnlock _ _ _ | .updateUnlock _ => 1

/-- No new call. -/
def inProgress (_ : Config T (Shared T E) (Point E)) (_ : T) (c : Choice E) : Prop := c = .run

/-- No call is in progress, and the entries are those of the abstract map. -/
structure Settled (s : Config T (Shared T E) (Point E)) : Prop where
  idle : ∀ t, s.locals t = .idle
  entries : s.shared.entries = lastUpdate s.shared.updates

variable [DecidableEq T] [Inhabited E] {t : T} {g g' : Shared T E} {l l' : Point E}
  {s : Config T (Shared T E) (Point E)}

theorem Step.work_lt (hidle : l ≠ .idle) (hstep : Step t g l g' l') : l'.work < l.work := by
  cases hstep with
  | callsFind | callsUpdate => exact absurd rfl hidle
  | dangles => exact Nat.zero_lt_succ 1
  | locksShared | finds | misses | copies | unlocksShared | locks | inserts | assigns | unlocks =>
    exact Nat.lt_succ_self _

theorem ne_idle_of_run (h : program t .run g l = some (g', l')) : l ≠ .idle := by
  intro hl
  rw [hl] at h
  exact nomatch h

/-- Whoever holds the mutex can go on. -/
theorem exists_run_of_access (hl : l.access ≠ none) : ∃ r, program t .run g l = some r := by
  cases l with
  | idle | findLock | updateLock | undefined => exact absurd rfl hl
  | find | findUnlock | insert | assign | updateUnlock => exact ⟨_, rfl⟩
  | copy domain before it =>
    cases it with
    | none => exact ⟨_, rfl⟩
    | some key =>
      cases he : g.entries key with
      | none => exact ⟨(g, .undefined), by simp only [program, he]⟩
      | some second => exact ⟨(g, .findUnlock domain before second), by simp only [program, he]⟩

theorem reachable_defined (hs : Reachable program anyStep initial s) (t : T) :
    s.locals t ≠ .undefined := by
  refine hs.local_invariant (P := fun _ l => l ≠ .undefined) ?_ ?_ t
  · intro u h
    cases h
  · intro s t c g l hr _ _ hp hl
    subst hl
    have hknown := ((reachable_region hr).2 t).known
    generalize s.locals t = k at hp hknown
    cases step_of_program hp with
    | dangles domain before hnone =>
      exact (hknown (Option.some_ne_none _)).copied.2.2.2 hnone

/-- While a call is in progress, one of those in progress can take its next step. -/
theorem exists_enabled (hs : Reachable program anyStep initial s) (hbusy : s.locals t ≠ .idle) :
    ∃ u s', s.step program u .run = some s' := by
  obtain ⟨-, hall⟩ := reachable_region hs
  have hstep : ∀ u, (∃ r, program u .run s.shared (s.locals u) = some r) →
      ∃ u s', s.step program u .run = some s' := by
    intro u hu
    obtain ⟨r, hr⟩ := hu
    exact ⟨u, _, Config.step_eq_some.mpr ⟨r.1, r.2, hr, rfl⟩⟩
  have hinside : ∀ u, (s.locals u).access ≠ none → ∃ u s', s.step program u .run = some s' :=
    fun u hu => hstep u (exists_run_of_access hu)
  have hwriter : ∀ u, s.shared.entryMutex.exclusive = some u →
      ∃ u s', s.step program u .run = some s' := by
    intro u hu
    have haccess : (s.locals u).access = some .exclusive := (hall u).owns.mp hu
    refine hinside u ?_
    rw [haccess]
    exact Option.some_ne_none _
  cases hex : s.shared.entryMutex.exclusive with
  | some u => exact hwriter u hex
  | none =>
    cases hl : s.locals t with
    | idle => exact absurd hl hbusy
    | undefined => exact absurd hl (reachable_defined hs t)
    | findLock domain =>
      have hlock : ∃ m, s.shared.entryMutex.lockShared t = some m := ⟨_, if_pos hex⟩
      obtain ⟨m, hm⟩ := hlock
      refine hstep t ⟨({ s.shared with entryMutex := m }, .find domain s.shared.updates), ?_⟩
      simp only [hl, program, hm, Option.map_some]
    | updateLock domain dnsDetails =>
      -- a reader keeps it waiting, or nobody does
      rcases s.shared.entryMutex.shared.eq_empty_or_nonempty with hnone | ⟨u, hu⟩
      · have hlock : ∃ m, s.shared.entryMutex.lock t = some m := ⟨_, if_pos ⟨hex, hnone⟩⟩
        obtain ⟨m, hm⟩ := hlock
        refine hstep t ⟨({ s.shared with
          entryMutex := m
          updates := (domain, dnsDetails) :: s.shared.updates }, .insert domain dnsDetails), ?_⟩
        simp only [hl, program, hm, Option.map_some]
      · have haccess : (s.locals u).access = some .shared := (hall u).shares.mp hu
        refine hinside u ?_
        rw [haccess]
        exact Option.some_ne_none _
    | find | copy | findUnlock | insert | assign | updateUnlock =>
      refine hinside t ?_
      rw [hl]
      exact Option.some_ne_none _

/-- **Lookups and updates end.**  From every reachable state, the calls in progress take boundedly
many steps, and cannot stop before all of them have returned; the cache then has for every domain
what its last update has written. -/
theorem lookups_complete (hs : Reachable program anyStep initial s) :
    Config.Completes program inProgress Settled s := by
  refine hs.completes Point.work (fun _ => rfl) (fun _ _ _ _ => trivial) ?_ ?_
  · intro s t c g l _ hok hp
    cases hok
    exact (step_of_program hp).work_lt (ne_idle_of_run hp)
  · intro s hr hnot
    have hbusy : ¬ ∀ t, s.locals t = .idle := by
      intro hidle
      obtain ⟨hfree, hall⟩ := reachable_region hr
      refine hnot ⟨hidle, hfree.invariant ?_⟩
      by_contra hheld
      obtain ⟨u, hu⟩ := Option.ne_none_iff_exists'.mp hheld
      have hin := (hall u).owns.mp hu
      rw [hidle u] at hin
      exact nomatch hin
    obtain ⟨t, ht⟩ := not_forall.mp hbusy
    obtain ⟨u, s', hstep⟩ := exists_enabled hr ht
    exact ⟨u, .run, s', rfl, hstep⟩

/-- An update waits for a lookup. -/
theorem lookups_complete_waitingUpdate :
    ∃ s : Config Bool (Shared Bool ℕ) (Point ℕ),
      initial.run program [(true, .findEntry "a"), (true, .run), (false, .updateOrAddEntry "a" 7)] =
        some s ∧ Config.Completes program inProgress Settled s := by
  have hrun : (initial.run program [(true, .findEntry "a"), (true, .run),
      ((false : Bool), Choice.updateOrAddEntry "a" 7)]).isSome := rfl
  exact ⟨_, (Option.some_get hrun).symm,
    lookups_complete (.of_run_any _ (Option.some_get hrun).symm)⟩

end ConcurrencyInAction.DnsCache
