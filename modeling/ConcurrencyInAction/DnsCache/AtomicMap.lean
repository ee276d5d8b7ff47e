import ConcurrencyInAction.DnsCache.Model

/-!
# `dns_cache` is an atomic map

* `lastUpdate`: the abstract map, what the last update of a domain has written;
* `region`: whoever holds the mutex; while nobody writes, the entries are the abstract map;
* `Step.move`: every step of the code is a move of the region;
* `atomic_map`: every lookup returns what the last update before it wrote, nobody looks at the cache
  during an update, and only an update of a domain changes its entry.
-/

namespace ConcurrencyInAction.DnsCache

open Interleaving

variable {T E : Type*}

/-! ### The abstract map -/

/-- What the last update of the domain has written. -/
def lastUpdate (updates : List (String × E)) (domain : String) : Option E :=
  (updates.find? fun u => u.1 = domain).map (·.2)

theorem lastUpdate_cons (domain : String) (dnsDetails : E) (updates : List (String × E)) :
    lastUpdate ((domain, dnsDetails) :: updates) =
      Function.update (lastUpdate updates) domain (some dnsDetails) := by
  funext d
  by_cases hd : d = domain
  · subst hd
    rw [Function.update_self, lastUpdate, List.find?_cons_of_pos (by simp)]
    rfl
  · rw [Function.update_of_ne hd, lastUpdate, List.find?_cons_of_neg (by simpa using Ne.symm hd)]
    rfl

/-! ### The region of `entry_mutex` -/

namespace Point

/-- How a thread holds `entry_mutex`. -/
def access : Point E → Option Access
  | .find _ _ | .copy _ _ _ | .findUnlock _ _ _ => some .shared
  | .insert _ _ | .assign _ _ | .updateUnlock _ => some .exclusive
  | _ => none

/-- The domain that the thread updates. -/
def updated : Point E → Option String
  | .updateLock domain _ => some domain
  | .insert domain _ => some domain
  | .assign domain _ => some domain
  | .updateUnlock domain => some domain
  | _ => none

/-- What a thread that holds the mutex knows of the entries and of the updates so far. -/
def Known [Inhabited E] : Point E → (String → Option E) × List (String × E) → Prop
  | .find _ before, (entries, updates) => entries = lastUpdate updates ∧ before = updates
  | .copy domain before it, (entries, updates) =>
      entries = lastUpdate updates ∧ before = updates ∧ it = (entries domain).map fun _ => domain
  | .findUnlock domain before result, (_, updates) =>
      before = updates ∧ result = (lastUpdate before domain).getD default
  | .insert domain dnsDetails, (entries, updates) =>
      ∃ earlier, updates = (domain, dnsDetails) :: earlier ∧ entries = lastUpdate earlier
  | .assign domain dnsDetails, (entries, updates) =>
      ∃ earlier, updates = (domain, dnsDetails) :: earlier ∧
        ∃ transient, entries = Function.update (lastUpdate earlier) domain transient
  | .updateUnlock _, (entries, updates) => entries = lastUpdate updates
  | _, _ => False

end Point

/-- The mutex guards the entries and the list of updates. -/
def region [Inhabited E] :
    SharedRegion T (Shared T E) (Point E) ((String → Option E) × List (String × E)) where
  mutex := (·.entryMutex)
  resource g := (g.entries, g.updates)
  access := Point.access
  Invariant r := r.1 = lastUpdate r.2
  Known := Point.Known

section Steps

variable [DecidableEq T] [Inhabited E] {t : T} {c : Choice E} {g g' : Shared T E}
  {l l' : Point E}

omit [DecidableEq T] in
/-- A reader that copies through its iterator gets the entry of the abstract map. -/
theorem Point.Known.copied {domain key : String} {before : List (String × E)}
    (hk : Point.Known (.copy domain before (some key)) (g.entries, g.updates)) :
    before = g.updates ∧ key = domain ∧ g.entries key = lastUpdate before domain ∧
      g.entries key ≠ none := by
  obtain ⟨hentries, rfl, hit⟩ := hk
  obtain ⟨e, he, rfl⟩ := Option.map_eq_some_iff.mp hit.symm
  refine ⟨rfl, rfl, congrFun hentries _, ?_⟩
  rw [he]
  exact Option.some_ne_none e

/-- **Every step of the code is a move of the region.** -/
theorem Step.move (h : region.Assertion t g l) (hstep : Step t g l g' l') :
    region.Move t g l g' l' := by
  cases hstep with
  | callsFind domain => exact .stay rfl rfl (fun _ => rfl) (fun hin _ => absurd rfl hin)
  | callsUpdate domain dnsDetails =>
    exact .stay rfl rfl (fun _ => rfl) (fun hin _ => absurd rfl hin)
  | locksShared domain hm => exact .lockShared hm rfl rfl (fun hinv => ⟨hinv, rfl⟩)
  | finds domain before =>
    refine .stay rfl rfl (fun _ => rfl) ?_
    intro _ hk
    obtain ⟨hentries, hbefore⟩ := hk
    exact ⟨hentries, hbefore, rfl⟩
  | misses domain before =>
    refine .stay rfl rfl (fun _ => rfl) ?_
    intro _ hk
    obtain ⟨hentries, hbefore, hit⟩ := hk
    refine ⟨hbefore, ?_⟩
    have hnone : g.entries domain = none := Option.map_eq_none_iff.mp hit.symm
    have hlast : lastUpdate before domain = none := by rw [hbefore, ← hnone, ← hentries]
    rw [hlast]
    rfl
  | copies domain before hsecond =>
    refine .stay rfl rfl (fun _ => rfl) ?_
    intro _ hk
    obtain ⟨hbefore, -, hlast, -⟩ := hk.copied
    refine ⟨hbefore, ?_⟩
    rw [← hlast, hsecond]
    rfl
  | dangles domain before hnone =>
    obtain ⟨-, -, -, hsome⟩ := (h.known (Option.some_ne_none _)).copied
    exact absurd hnone hsome
  | unlocksShared domain before result => exact .unlockShared rfl rfl rfl rfl
  | locks domain dnsDetails hm =>
    exact .lock hm rfl (fun hinv => ⟨g.updates, rfl, hinv⟩)
  | inserts domain dnsDetails =>
    refine .stay rfl rfl (fun hl => absurd rfl hl) ?_
    intro _ hk
    obtain ⟨earlier, hupdates, hentries⟩ := hk
    exact ⟨earlier, hupdates, _, congrArg (Function.update · domain _) hentries⟩
  | assigns domain dnsDetails =>
    refine .stay rfl rfl (fun hl => absurd rfl hl) ?_
    intro _ hk
    obtain ⟨earlier, hupdates, transient, hentries⟩ := hk
    show Function.update g.entries domain (some dnsDetails) = lastUpdate g.updates
    rw [hupdates, lastUpdate_cons, hentries, Function.update_idem]
  | unlocks domain => exact .unlock rfl rfl rfl id

/-- Only an update of a domain changes its entry. -/
theorem Step.updated (hstep : Step t g l g' l') {domain : String}
    (hchanged : g'.entries domain ≠ g.entries domain) : l.updated = some domain := by
  cases hstep with
  | inserts d dnsDetails =>
    by_contra hne
    exact hchanged (Function.update_of_ne (fun he => hne (congrArg some he.symm)) _ _)
  | assigns d dnsDetails =>
    by_contra hne
    exact hchanged (Function.update_of_ne (fun he => hne (congrArg some he.symm)) _ _)
  | callsFind | callsUpdate | locksShared | finds | misses | copies | dangles | unlocksShared
  | locks | unlocks => exact absurd rfl hchanged

/-- The lookups that have returned are those that had, and that of the reader which unlocks. -/
theorem Step.returned (hstep : Step t g l g' l') :
    g'.returned = g.returned ∨ ∃ domain before result,
      l = .findUnlock domain before result ∧
        g'.returned = ⟨domain, before, result⟩ :: g.returned := by
  cases hstep with
  | unlocksShared domain before result => exact .inr ⟨domain, before, result, rfl, rfl⟩
  | callsFind | callsUpdate | locksShared | finds | misses | copies | dangles
  | locks | inserts | assigns | unlocks => exact .inl rfl

end Steps

section Runs

variable [DecidableEq T] [Inhabited E] {s : Config T (Shared T E) (Point E)}

theorem reachable_region (hs : Reachable program anyStep initial s) :
    region.Free s.shared ∧ ∀ t, region.Assertion t s.shared (s.locals t) := by
  have h : RelyGuarantee (program (T := T) (E := E)) anyStep region.Free region.Assertion
      region.Rely :=
    SharedRegion.relyGuarantee fun t c g l g' l' h hp => (step_of_program hp).move h
  refine hs.rely_guarantee h ⟨⟨fun hex => absurd rfl hex, fun _ => ?_⟩, fun t => ⟨?_, ?_, ?_⟩⟩
  · rfl
  · exact iff_of_false (Finset.notMem_empty t) nofun
  · exact iff_of_false (Option.some_ne_none t).symm nofun
  · exact fun hin => absurd rfl hin

/-- A lookup that has taken the mutex sees no later update until it has given it back. -/
theorem lookup_sees_before (hs : Reachable program anyStep initial s) {t : T} {domain : String}
    {before : List (String × E)} {result : E}
    (hl : s.locals t = .findUnlock domain before result) :
    before = s.shared.updates ∧ result = (lastUpdate before domain).getD default := by
  have hk := ((reachable_region hs).2 t).known (by rw [hl]; exact Option.some_ne_none _)
  rw [hl] at hk
  exact hk

/-- **`dns_cache` is an atomic map.** -/
theorem atomic_map (hs : Reachable program anyStep initial s) :
    (∀ f ∈ s.shared.returned, f.result = (lastUpdate f.before f.domain).getD default) ∧
      (∀ t domain before result, s.locals t = .findUnlock domain before result →
        before = s.shared.updates) ∧
      (∀ t u, (s.locals t).access = some .exclusive → (s.locals u).access ≠ some .shared) ∧
      ∀ t c s', s.step program t c = some s' → ∀ domain,
        s'.shared.entries domain ≠ s.shared.entries domain →
          (s.locals t).updated = some domain := by
  obtain ⟨hfree, hall⟩ := reachable_region hs
  refine ⟨?_, fun t _ _ _ hl => (lookup_sees_before hs hl).1, fun t u => ?_, ?_⟩
  · apply hs.invariant (I := fun s => ∀ f ∈ s.shared.returned,
      f.result = (lastUpdate f.before f.domain).getD default)
    · exact fun f hf => absurd hf List.not_mem_nil
    · intro s t c g l hr hI _ hp f hf
      rcases (step_of_program hp).returned with hsame | ⟨domain, before, result, hl, hcons⟩
      · exact hI f (hsame ▸ hf)
      · replace hf : f ∈ g.returned := hf
        rw [hcons, List.mem_cons] at hf
        rcases hf with rfl | hf
        · exact (lookup_sees_before hr hl).2
        · exact hI f hf
  · exact SharedRegion.not_shared_of_exclusive hfree (hall t) (hall u)
  · intro t c s' hst domain hchanged
    obtain ⟨g, l, hp, rfl⟩ := Config.step_eq_some.mp hst
    exact (step_of_program hp).updated hchanged

end Runs

/-- Two lookups around an update: the first one misses, the second one finds. -/
def missThenHitRun : List (Bool × Choice ℕ) :=
  [(true, .findEntry "a"), (true, .run), (true, .run), (true, .run), (true, .run),
    (false, .updateOrAddEntry "a" 7), (false, .run), (false, .run), (false, .run), (false, .run),
    (true, .findEntry "a"), (true, .run), (true, .run), (true, .run), (true, .run)]

theorem atomic_map_missThenHitRun :
    ∃ f ∈ ((initial.run program missThenHitRun).get (by decide)).shared.returned,
      f.before = [("a", 7)] ∧ f.result = (lastUpdate f.before f.domain).getD default := by
  have hr := Reachable.of_run_any missThenHitRun
    (Option.some_get (x := initial.run program missThenHitRun) (by decide)).symm
  have hmem := List.head_mem
    (l := ((initial.run program missThenHitRun).get (by decide)).shared.returned) (by decide)
  exact ⟨_, hmem, by rfl, (atomic_map hr).1 _ hmem⟩

end ConcurrencyInAction.DnsCache
