import ConcurrencyInAction.Lib.SharedRegion

/-!
# `dns_cache`: the code, step by step

Threads that run `find_entry` and `update_or_add_entry` on one cache:

* `std::map` is a partial function; `entries.find(domain)` gives an iterator, the key of the element
  it points to or `none` for `end()`, and `it->second` copies the element in another step;
* `entries[domain] = dns_details` first inserts `dns_entry()` if there is no element (one step) and
  then assigns (another step);
* `std::shared_lock` and `std::lock_guard` take `entry_mutex` in the first step of the function and
  give it back in the last one;
* nothing throws: the allocation of an element by `entries[domain]` is taken to succeed, and copying
  and assigning a `dns_entry`, which is empty in the source, does not throw.

`dns_entry` is any type with a default value.  Two history variables that no step of the code reads:
`updates`, the updates in the order in which they took the mutex, the newest first, and `returned`,
the lookups that have returned, each with the updates that had come before it took the mutex.
-/

namespace ConcurrencyInAction.DnsCache

open Interleaving

variable {T E : Type*}

/-- A lookup that has returned. -/
structure Lookup (E : Type*) where
  domain : String
  before : List (String × E)
  result : E

/-- The members of the cache, and the history variables. -/
structure Shared (T E : Type*) where
  entries : String → Option E
  entryMutex : SharedMutex T
  updates : List (String × E)
  returned : List (Lookup E)

/-- Where a thread is: outside both functions, or about to take the named step of one. -/
inductive Point (E : Type*) where
  | idle
  | findLock (domain : String)
  | find (domain : String) (before : List (String × E))
  | copy (domain : String) (before : List (String × E)) (it : Option String)
  | findUnlock (domain : String) (before : List (String × E)) (result : E)
  | updateLock (domain : String) (dnsDetails : E)
  | insert (domain : String) (dnsDetails : E)
  | assign (domain : String) (dnsDetails : E)
  | updateUnlock (domain : String)
  | undefined

/-- The call that an idle thread makes, or that a thread takes its next step. -/
inductive Choice (E : Type*) where
  | findEntry (domain : String)
  | updateOrAddEntry (domain : String) (dnsDetails : E)
  | run

namespace Shared

/-- `entries.find(domain)`. -/
def find (g : Shared T E) (domain : String) : Option String :=
  (g.entries domain).map fun _ => domain

/-- The default insertion of `entries[domain]`. -/
def insertDefault [Inhabited E] (g : Shared T E) (domain : String) : Shared T E :=
  { g with entries := Function.update g.entries domain (some ((g.entries domain).getD default)) }

/-- The assignment to the element that `entries[domain]` refers to. -/
def assign (g : Shared T E) (domain : String) (dnsDetails : E) : Shared T E :=
  { g with entries := Function.update g.entries domain (some dnsDetails) }

end Shared

/-- The statements of `find_entry` and `update_or_add_entry`. -/
def program [DecidableEq T] [Inhabited E] : Program T (Choice E) (Shared T E) (Point E) :=
  fun t c g l =>
    match l, c with
    | .idle, .findEntry domain => some (g, .findLock domain)
    | .idle, .updateOrAddEntry domain dnsDetails => some (g, .updateLock domain dnsDetails)
    | .findLock domain, .run =>
        (g.entryMutex.lockShared t).map fun m =>
          ({ g with entryMutex := m }, .find domain g.updates)
    | .find domain before, .run => some (g, .copy domain before (g.find domain))
    | .copy domain before none, .run => some (g, .findUnlock domain before default)
    | .copy domain before (some key), .run =>
        match g.entries key with
        | some second => some (g, .findUnlock domain before second)
        | none => some (g, .undefined)
    | .findUnlock domain before result, .run =>
        some ({ g with
          entryMutex := g.entryMutex.unlockShared t
          returned := ⟨domain, before, result⟩ :: g.returned }, .idle)
    | .updateLock domain dnsDetails, .run =>
        (g.entryMutex.lock t).map fun m =>
          ({ g with entryMutex := m, updates := (domain, dnsDetails) :: g.updates },
            .insert domain dnsDetails)
    | .insert domain dnsDetails, .run => some (g.insertDefault domain, .assign domain dnsDetails)
    | .assign domain dnsDetails, .run => some (g.assign domain dnsDetails, .updateUnlock domain)
    | .updateUnlock _, .run => some ({ g with entryMutex := g.entryMutex.unlock }, .idle)
    | _, _ => none

/-- The cache is empty and no call has been made. -/
def initial : Config T (Shared T E) (Point E) where
  shared := ⟨fun _ => none, .free, [], []⟩
  locals := fun _ => .idle

/-! ### What a step can do -/

/-- The steps of the code. -/
inductive Step [DecidableEq T] [Inhabited E] (t : T) (g : Shared T E) :
    Point E → Shared T E → Point E → Prop
  | callsFind (domain : String) : Step t g .idle g (.findLock domain)
  | callsUpdate (domain : String) (dnsDetails : E) :
      Step t g .idle g (.updateLock domain dnsDetails)
  | locksShared (domain : String) {m : SharedMutex T} : g.entryMutex.lockShared t = some m →
      Step t g (.findLock domain) { g with entryMutex := m } (.find domain g.updates)
  | finds (domain : String) (before : List (String × E)) :
      Step t g (.find domain before) g (.copy domain before (g.find domain))
  | misses (domain : String) (before : List (String × E)) :
      Step t g (.copy domain before none) g (.findUnlock domain before default)
  | copies (domain : String) (before : List (String × E)) {key : String} {second : E} :
      g.entries key = some second →
      Step t g (.copy domain before (some key)) g (.findUnlock domain before second)
  | dangles (domain : String) (before : List (String × E)) {key : String} :
      g.entries key = none → Step t g (.copy domain before (some key)) g .undefined
  | unlocksShared (domain : String) (before : List (String × E)) (result : E) :
      Step t g (.findUnlock domain before result)
        { g with
          entryMutex := g.entryMutex.unlockShared t
          returned := ⟨domain, before, result⟩ :: g.returned } .idle
  | locks (domain : String) (dnsDetails : E) {m : SharedMutex T} : g.entryMutex.lock t = some m →
      Step t g (.updateLock domain dnsDetails)
        { g with entryMutex := m, updates := (domain, dnsDetails) :: g.updates }
        (.insert domain dnsDetails)
  | inserts (domain : String) (dnsDetails : E) :
      Step t g (.insert domain dnsDetails) (g.insertDefault domain) (.assign domain dnsDetails)
  | assigns (domain : String) (dnsDetails : E) :
      Step t g (.assign domain dnsDetails) (g.assign domain dnsDetails) (.updateUnlock domain)
  | unlocks (domain : String) :
      Step t g (.updateUnlock domain) { g with entryMutex := g.entryMutex.unlock } .idle

/-- **Inversion.** -/
theorem step_of_program [DecidableEq T] [Inhabited E] {t : T} {c : Choice E} {g g' : Shared T E}
    {l l' : Point E} (h : program t c g l = some (g', l')) : Step t g l g' l' := by
  unfold program at h
  split at h
  · cases h
    exact .callsFind _
  · cases h
    exact .callsUpdate _ _
  · obtain ⟨m, hm, hpair⟩ := Option.map_eq_some_iff.mp h
    cases hpair
    exact .locksShared _ hm
  · cases h
    exact .finds _ _
  · cases h
    exact .misses _ _
  · split at h
    · rename_i hsecond
      cases h
      exact .copies _ _ hsecond
    · rename_i hnone
      cases h
      exact .dangles _ _ hnone
  · cases h
    exact .unlocksShared _ _ _
  · obtain ⟨m, hm, hpair⟩ := Option.map_eq_some_iff.mp h
    cases hpair
    exact .locks _ _ hm
  · cases h
    exact .inserts _ _
  · cases h
    exact .assigns _ _
  · cases h
    exact .unlocks _
  · cases h

end ConcurrencyInAction.DnsCache
