import ConcurrencyInAction.LazyInitialization.Model
import ConcurrencyInAction.Lib.LockDiscipline

/-!
# Lazy initialization: data races

Threads that call `unnecesary_serialized_protection` and
`undefined_behaviour_with_double_checked_locking`, with the accesses of `resource_ptr` as the plain
reads and writes that they are, and `resource_mutex` as a lock that is taken with an acquire and
given up with a release.

* `next`: the accesses that the statements of both functions make, at the points of
  `LazyInitialization`; the construction and `reset` make one access, and the others make none;
  every thread has its list of calls, and the construction may throw if `throws` says so;
* `Performs`: **what a thread does at each place**, with what it did before;
* `write_unique`: the pointer is written at most once, race or not;
* `serialized_raceFree`: with the mutex first, there is no race and no null pointer is dereferenced;
* `doubleChecked_raceFree_iff`: with the test first, and no exceptions, there is no race exactly
  when the thread that initializes is the only one that does anything.
-/

namespace ConcurrencyInAction.LazyInitializationRaces

open MemoryModel MemoryModel.Execution
open LazyInitialization (Call Point)

variable {T : Type*}

inductive Location where
  | resourceMutex
  | resourcePtr
  deriving DecidableEq

/-- Whether the mutex is held, and the number of an object, `none` for `nullptr`. -/
inductive Value where
  | held (isHeld : Bool)
  | pointer (object : Option ℕ)
  deriving DecidableEq

/-- A thread: the point of its next access, and the calls that it has still to make. -/
structure Thread where
  point : Point
  rest : List Call
  deriving DecidableEq

/-- The next call begins. -/
def Thread.enter : List Call → Thread
  | [] => ⟨.idle, []⟩
  | f :: fs => ⟨f.entry, fs⟩

/-- The accesses of the two functions. -/
def next (throws : Bool) (l : Thread) (act : Action Location Value) : Option Thread :=
  match l.point, act with
  | .firstTest, .read .resourcePtr (.pointer p) =>
      some { l with point := if p = none then .lock else .arrow }
  | .lock, .update .acquire .resourceMutex (.held false) (.held true) =>
      some { l with point := .test }
  | .test, .read .resourcePtr (.pointer p) =>
      some { l with point := if p = none then .construct else .unlock }
  | .construct, .write .resourcePtr (.pointer (some _)) => some { l with point := .unlock }
  | .construct, .store .release .resourceMutex (.held false) =>
      if throws then some (.enter l.rest) else none
  | .unlock, .store .release .resourceMutex (.held false) => some { l with point := .arrow }
  | .arrow, .read .resourcePtr (.pointer p) =>
      some (if p = none then { l with point := .undefined } else .enter l.rest)
  | _, _ => none

/-- The executions of threads that make the calls `calls`. -/
structure IsExecution (throws : Bool) (calls : T → List Call) (G : Execution T Location Value) :
    Prop where
  mutex : G.initially .resourceMutex = .held false
  pointer : G.initially .resourcePtr = .pointer none
  follows : ∀ t, Follows (next throws) (.enter (calls t)) (G.actions t)

variable {throws : Bool} {calls : T → List Call} {G : Execution T Location Value} {rule : Rule}
  {t u : T} {a b i j k : ℕ} {act : Action Location Value} {p : Option ℕ}

/-! ### What a thread has done before -/

/-- The thread holds the mutex since its place `a`. -/
abbrev HasLock (G : Execution T Location Value) (t : T) (a i : ℕ) : Prop :=
  G.Holds .resourceMutex (.held false) t a i

/-- It has read the pointer there. -/
def ReadsPtr (G : Execution T Location Value) (t : T) (j : ℕ) (p : Option ℕ) : Prop :=
  G.action (.nth t j) = some (.read .resourcePtr (.pointer p))

/-- It has written the pointer there. -/
def WritesPtr (G : Execution T Location Value) (t : T) (j : ℕ) : Prop :=
  ∃ object, G.action (.nth t j) = some (.write .resourcePtr (.pointer (some object)))

/-- It holds the mutex and has left the pointer alone. -/
structure Testing (G : Execution T Location Value) (t : T) (a i : ℕ) : Prop where
  held : HasLock G t a i
  unwritten : ∀ k, a < k → k < i → ¬ WritesPtr G t k

/-- It holds the mutex and has seen a null pointer. -/
structure Constructing (G : Execution T Location Value) (t : T) (a i : ℕ) : Prop extends
    Testing G t a i where
  null : ∃ j, a < j ∧ j < i ∧ ReadsPtr G t j none

/-- It has seen an object since its place `a`, or has made one. -/
def Settled (G : Execution T Location Value) (t : T) (a i : ℕ) : Prop :=
  ∃ j, a < j ∧ j < i ∧ ((∃ object, ReadsPtr G t j (some object)) ∨ WritesPtr G t j)

/-- It has seen an object, or has made one. -/
def Seen (G : Execution T Location Value) (t : T) (i : ℕ) : Prop :=
  ∃ j, j < i ∧ ((∃ object, ReadsPtr G t j (some object)) ∨ WritesPtr G t j)

/-- What is known at a point. -/
def KnownAt (G : Execution T Location Value) (t : T) (i : ℕ) : Point → Prop
  | .idle | .firstTest | .lock | .undefined | .reset _ | .unwind | .doSomething _ => True
  | .test => ∃ a, Testing G t a i
  | .construct => ∃ a, Constructing G t a i
  | .unlock => ∃ a, HasLock G t a i ∧ Settled G t a i
  | .arrow => Seen G t i

/-- The first test belongs to a call of the second function. -/
structure Thread.Knows (calls : T → List Call) (G : Execution T Location Value) (t : T) (i : ℕ)
    (l : Thread) : Prop where
  point : KnownAt G t i l.point
  first : l.point = .firstTest → .undefinedBehaviourWithDoubleCheckedLocking ∈ calls t
  rest : ∀ f ∈ l.rest, f ∈ calls t

/-- What a thread does at a place. -/
inductive Performs (throws : Bool) (calls : T → List Call) (G : Execution T Location Value) (t : T)
    (i : ℕ) : Action Location Value → Prop
  | firstTest (p : Option ℕ) : .undefinedBehaviourWithDoubleCheckedLocking ∈ calls t →
      Performs throws calls G t i (.read .resourcePtr (.pointer p))
  | lock : Performs throws calls G t i
      (.update .acquire .resourceMutex (.held false) (.held true))
  | test (p : Option ℕ) : (∃ a, Testing G t a i) →
      Performs throws calls G t i (.read .resourcePtr (.pointer p))
  | reset (object : ℕ) : (∃ a, Constructing G t a i) →
      Performs throws calls G t i (.write .resourcePtr (.pointer (some object)))
  | unwind : throws = true → (∃ a, HasLock G t a i) →
      Performs throws calls G t i (.store .release .resourceMutex (.held false))
  | unlock : (∃ a, HasLock G t a i ∧ Settled G t a i) →
      Performs throws calls G t i (.store .release .resourceMutex (.held false))
  | arrow (p : Option ℕ) : Seen G t i →
      Performs throws calls G t i (.read .resourcePtr (.pointer p))

theorem Seen.of_settled (h : Settled G t a i) : Seen G t i := by
  obtain ⟨j, -, hj, hrest⟩ := h
  exact ⟨j, hj, hrest⟩

theorem Seen.step (h : Seen G t i) : Seen G t (i + 1) := by
  obtain ⟨j, hj, hrest⟩ := h
  exact ⟨j, Nat.lt_succ_of_lt hj, hrest⟩

/-- The pointer is not the mutex. -/
theorem not_accesses_mutex (hact : G.action (.nth t i) = some act)
    (hloc : act.location = .resourcePtr) : ¬ G.Accesses (.nth t i) .resourceMutex := by
  intro hmutex
  exact nomatch hloc.symm.trans (location_of_accesses hact hmutex)

theorem knows_enter {fs : List Call} (hfs : ∀ f ∈ fs, f ∈ calls t) :
    (Thread.enter fs).Knows calls G t i := by
  cases fs with
  | nil => exact ⟨trivial, nofun, nofun⟩
  | cons f fs =>
    have hf := hfs f List.mem_cons_self
    have hrest : ∀ f' ∈ fs, f' ∈ calls t := fun f' hf' => hfs f' (List.mem_cons_of_mem f hf')
    cases f with
    | unnecesarySerializedProtection => exact ⟨trivial, nofun, hrest⟩
    | undefinedBehaviourWithDoubleCheckedLocking => exact ⟨trivial, fun _ => hf, hrest⟩

theorem Testing.step (h : Testing G t a i) (hread : ReadsPtr G t i p) : Testing G t a (i + 1) where
  held := h.held.step (not_accesses_mutex hread rfl)
  unwritten k hak hki hwrites := by
    rcases Nat.lt_succ_iff_lt_or_eq.mp hki with hlt | heq
    · exact h.unwritten k hak hlt hwrites
    · subst heq
      obtain ⟨object, hobject⟩ := hwrites
      exact nomatch hread.symm.trans hobject

theorem knows_of_test {l : Thread} (h : ∃ a, Testing G t a i) (hread : ReadsPtr G t i p)
    (hrest : ∀ f ∈ l.rest, f ∈ calls t) :
    Thread.Knows calls G t (i + 1)
      { l with point := if p = none then .construct else .unlock } := by
  obtain ⟨a, ha⟩ := h
  cases p with
  | none => exact ⟨⟨a, ha.step hread, i, ha.held.lt, Nat.lt_succ_self i, hread⟩, nofun, hrest⟩
  | some object =>
    have hheld := (ha.step hread).held
    exact ⟨⟨a, hheld, i, ha.held.lt, Nat.lt_succ_self i, .inl ⟨object, hread⟩⟩, nofun, hrest⟩

/-- **One access.** -/
theorem step_knows {l l' : Thread} (hl : l.Knows calls G t i)
    (hact : G.action (.nth t i) = some act) (h : next throws l act = some l') :
    Performs throws calls G t i act ∧ l'.Knows calls G t (i + 1) := by
  obtain ⟨hpoint, hfirst, hrest⟩ := hl
  unfold next at h
  split at h
  all_goals rename_i hp
  · rename_i p
    cases h
    refine ⟨.firstTest p (hfirst hp), ?_⟩
    cases p with
    | none => exact ⟨trivial, nofun, hrest⟩
    | some object => exact ⟨⟨i, Nat.lt_succ_self i, .inl ⟨object, hact⟩⟩, nofun, hrest⟩
  · cases h
    have htakes : G.Takes .resourceMutex (.held false) t i := ⟨.acquire, .held true, nofun, hact⟩
    refine ⟨.lock, ⟨i, .of_takes htakes, fun k hik hki => ?_⟩, nofun, hrest⟩
    omega
  · rename_i p
    cases h
    rw [hp] at hpoint
    exact ⟨.test p hpoint, knows_of_test hpoint hact hrest⟩
  · rename_i object
    cases h
    rw [hp] at hpoint
    obtain ⟨a, ha⟩ := id hpoint
    have hheld := ha.held.step (not_accesses_mutex hact rfl)
    refine ⟨.reset object hpoint, ⟨a, hheld, i, ha.held.lt, Nat.lt_succ_self i, .inr ?_⟩, nofun,
      hrest⟩
    exact ⟨object, hact⟩
  · obtain ⟨hthrows, hl⟩ := Option.ite_none_right_eq_some.mp h
    cases hl
    rw [hp] at hpoint
    obtain ⟨a, ha⟩ := hpoint
    exact ⟨.unwind hthrows ⟨a, ha.held⟩, knows_enter hrest⟩
  · cases h
    rw [hp] at hpoint
    obtain ⟨a, hheld, hsettled⟩ := id hpoint
    exact ⟨.unlock hpoint, (Seen.of_settled hsettled).step, nofun, hrest⟩
  · rename_i p
    cases h
    rw [hp] at hpoint
    refine ⟨.arrow p hpoint, ?_⟩
    cases p with
    | none => exact ⟨trivial, nofun, hrest⟩
    | some object => exact knows_enter hrest
  · cases h

theorem next_firstTest {l l' : Thread} (hl : l.point = .firstTest)
    (h : next throws l act = some l') : ∃ p, act = .read .resourcePtr (.pointer p) := by
  unfold next at h
  split at h
  all_goals rename_i hp
  · exact ⟨_, rfl⟩
  · exact nomatch hl.symm.trans hp
  · exact nomatch hl.symm.trans hp
  · exact nomatch hl.symm.trans hp
  · exact nomatch hl.symm.trans hp
  · exact nomatch hl.symm.trans hp
  · exact nomatch hl.symm.trans hp
  · cases h

namespace IsExecution

theorem performs (hG : IsExecution throws calls G) (h : G.action (.nth t i) = some act) :
    Performs throws calls G t i act := by
  obtain ⟨l, l', hl, hnext⟩ := (hG.follows t).before _ _ (fun i l => l.Knows calls G t i)
    (knows_enter fun f hf => hf) (fun i l act l' hl hact hnext => (step_knows hl hact hnext).2)
    i act h
  exact (step_knows hl h hnext).1

/-- The mutex is a lock. -/
theorem disciplined (hG : IsExecution throws calls G) :
    G.Disciplined .resourceMutex (.held false) where
  acquires t i o v w h := by
    cases hG.performs h with
    | lock => exact ⟨nofun, .of_action h (.inl rfl)⟩
  releases t i o v h := by
    cases hG.performs h with
    | unwind hthrows hheld => exact ⟨rfl, .of_action h (.inl rfl), hheld⟩
    | unlock hheld =>
      obtain ⟨a, ha, -⟩ := hheld
      exact ⟨rfl, .of_action h (.inl rfl), a, ha⟩
  atomic t i act h hloc := by
    cases hG.performs h with
    | lock => exact .inl ⟨_, _, _, rfl⟩
    | unwind hthrows hheld => exact .inr ⟨_, _, rfl⟩
    | unlock hheld => exact .inr ⟨_, _, rfl⟩
    | firstTest p hcall => exact nomatch hloc
    | test p hheld => exact nomatch hloc
    | reset object hheld => exact nomatch hloc
    | arrow p hseen => exact nomatch hloc

theorem raceFree_resourceMutex (hG : IsExecution throws calls G) :
    G.RaceFree rule .resourceMutex := by
  refine .of_atomic fun t i act h hloc => ?_
  cases hG.performs h with
  | lock => trivial
  | unwind hthrows hheld => trivial
  | unlock hheld => trivial
  | firstTest p hcall => exact nomatch hloc
  | test p hheld => exact nomatch hloc
  | reset object hheld => exact nomatch hloc
  | arrow p hseen => exact nomatch hloc

/-! ### The pointer is written once -/

/-- What modifies the pointer. -/
theorem modifies_resourcePtr (hG : IsExecution throws calls G)
    (h : G.Modifies (.nth t i) .resourcePtr) :
    WritesPtr G t i ∧ ∃ a, Constructing G t a i := by
  obtain ⟨act, v, hact, hw⟩ := h.exists_action
  cases hG.performs hact with
  | reset object hheld => exact ⟨⟨object, hact⟩, hheld⟩
  | firstTest p hcall => exact nomatch hw
  | lock => exact nomatch hw
  | test p hheld => exact nomatch hw
  | unwind hthrows hheld => exact nomatch hw
  | unlock hheld => exact nomatch hw
  | arrow p hseen => exact nomatch hw

theorem modifies_of_writesPtr (h : WritesPtr G t i) : G.Modifies (.nth t i) .resourcePtr := by
  obtain ⟨object, hact⟩ := h
  exact ⟨_, (writes_iff hact).mpr rfl⟩

/-- A null pointer is the initial one. -/
theorem source_of_null (hG : IsExecution throws calls G) (hc : G.Consistent rule)
    (h : ReadsPtr G t j none) : G.source (.nth t j) = .init .resourcePtr := by
  have hwrites := hc.reads_from _ _ _ ((reads_iff h).mpr rfl)
  cases hs : G.source (.nth t j) with
  | init x =>
    rw [hs] at hwrites
    rw [eq_of_modifies_init ⟨_, hwrites⟩]
  | nth u k =>
    rw [hs] at hwrites
    obtain ⟨⟨object, hact⟩, -⟩ := hG.modifies_resourcePtr ⟨_, hwrites⟩
    rw [writes_iff hact] at hwrites
    exact nomatch hwrites

/-- An object is the one that was written. -/
theorem source_of_object (hG : IsExecution throws calls G) (hc : G.Consistent rule) {object : ℕ}
    (h : ReadsPtr G t j (some object)) :
    ∃ u k, G.source (.nth t j) = .nth u k ∧ WritesPtr G u k ∧
      G.HappensBefore rule (.nth u k) (.nth t j) := by
  have hwrites := hc.reads_from _ _ _ ((reads_iff h).mpr rfl)
  have hvisible := hc.visible _ _ _ h
  cases hs : G.source (.nth t j) with
  | init x =>
    rw [hs] at hwrites
    have hx := eq_of_modifies_init ⟨_, hwrites⟩
    subst hx
    have hnull : G.initially .resourcePtr = .pointer (some object) :=
      congrArg Prod.snd (Option.some.inj hwrites)
    exact nomatch hG.pointer.symm.trans hnull
  | nth u k =>
    rw [hs] at hwrites hvisible
    exact ⟨u, k, rfl, (hG.modifies_resourcePtr ⟨_, hwrites⟩).1, hvisible⟩

/-- No write comes before the test that has found a null pointer. -/
theorem not_happensBefore_null (hG : IsExecution throws calls G) (hc : G.Consistent rule)
    (hw : WritesPtr G u k) (h : ReadsPtr G t j none) :
    ¬ G.HappensBefore rule (.nth u k) (.nth t j) := by
  intro hhb
  have hle := hc.write_read _ _ _ _ hhb (modifies_of_writesPtr hw) ((reads_iff h).mpr rfl)
  rw [hG.source_of_null hc h] at hle
  exact absurd (hc.time_init_lt (modifies_of_writesPtr hw)) (Nat.not_lt.mpr hle)

/-- A later section would have found the object. -/
theorem not_time_lt (hG : IsExecution throws calls G) (hc : G.Consistent rule)
    (hw : WritesPtr G t i) (ha : Constructing G t a i) (hb : Constructing G u b k) :
    ¬ G.time (.nth t a) < G.time (.nth u b) := by
  intro hlt
  obtain ⟨object, hact⟩ := id hw
  have hhb := hG.disciplined.happensBefore_takes hc ha.held (not_accesses_mutex hact rfl)
    hb.held.takes hlt
  obtain ⟨j, hbj, -, hnull⟩ := hb.null
  exact hG.not_happensBefore_null hc hw hnull (hhb.trans (.of_sequenced (sequenced_nth hbj)))

/-- **The pointer is written at most once.** -/
theorem write_unique (hG : IsExecution throws calls G) (hc : G.Consistent rule)
    (hi : WritesPtr G t i) (hk : WritesPtr G u k) : t = u ∧ i = k := by
  obtain ⟨-, a, ha⟩ := hG.modifies_resourcePtr (modifies_of_writesPtr hi)
  obtain ⟨-, b, hb⟩ := hG.modifies_resourcePtr (modifies_of_writesPtr hk)
  rcases Nat.lt_trichotomy (G.time (.nth t a)) (G.time (.nth u b)) with hlt | heq | hgt
  · exact absurd hlt (hG.not_time_lt hc hi ha hb)
  · cases hc.total _ _ _ ha.held.takes.modifies hb.held.takes.modifies heq
    refine ⟨rfl, ?_⟩
    rcases Nat.lt_trichotomy i k with hik | hik | hik
    · exact absurd hi (hb.unwritten i ha.held.lt hik)
    · exact hik
    · exact absurd hk (ha.unwritten k hb.held.lt hik)
  · exact absurd hgt (hG.not_time_lt hc hk hb ha)

/-- A thread that has seen the object, or made it, comes after the write. -/
theorem happensBefore_of_seen (hG : IsExecution throws calls G) (hc : G.Consistent rule)
    (hw : WritesPtr G u k) (h : Seen G t i) : G.HappensBefore rule (.nth u k) (.nth t i) := by
  obtain ⟨j, hj, ⟨object, hread⟩ | hwrite⟩ := h
  · obtain ⟨u', k', -, hw', hhb⟩ := hG.source_of_object hc hread
    obtain ⟨hu, hk⟩ := hG.write_unique hc hw hw'
    subst hu
    subst hk
    exact hhb.trans (.of_sequenced (sequenced_nth hj))
  · obtain ⟨ht, hj'⟩ := hG.write_unique hc hw hwrite
    subst ht
    subst hj'
    exact .of_sequenced (sequenced_nth hj)

/-- What comes after the write reads what was written. -/
theorem reads_of_happensBefore (hG : IsExecution throws calls G) (hc : G.Consistent rule)
    {object : ℕ}
    (hw : G.action (.nth u k) = some (.write .resourcePtr (.pointer (some object))))
    (hhb : G.HappensBefore rule (.nth u k) (.nth t i)) (hread : ReadsPtr G t i p) :
    p = some object := by
  cases p with
  | none => exact absurd hhb (hG.not_happensBefore_null hc ⟨object, hw⟩ hread)
  | some object' =>
    obtain ⟨u', k', hs, hw', -⟩ := hG.source_of_object hc hread
    obtain ⟨hu, hk⟩ := hG.write_unique hc ⟨object, hw⟩ hw'
    subst hu
    subst hk
    have hwrites := hc.reads_from _ _ _ ((reads_iff hread).mpr rfl)
    rw [hs, writes_iff hw] at hwrites
    exact (Value.pointer.inj (congrArg Prod.snd (Option.some.inj hwrites))).symm

/-- What has been seen was written. -/
theorem exists_write_of_seen (hG : IsExecution throws calls G) (hc : G.Consistent rule)
    (h : Seen G t i) : ∃ u k, WritesPtr G u k := by
  obtain ⟨j, -, ⟨object, hread⟩ | hwrite⟩ := h
  · obtain ⟨u, k, -, hw, -⟩ := hG.source_of_object hc hread
    exact ⟨u, k, hw⟩
  · exact ⟨t, j, hwrite⟩

/-! ### Races -/

/-- The write of the pointer and another access of it are ordered, unless that is a first test. -/
theorem ordered (hG : IsExecution throws calls G) (hc : G.Consistent rule) (hw : WritesPtr G u k)
    (hact : G.action (.nth t i) = some act) (hloc : act.location = .resourcePtr)
    (hne : (Event.nth t i : Event T Location) ≠ .nth u k) :
    (.undefinedBehaviourWithDoubleCheckedLocking ∈ calls t ∧ ∃ p, ReadsPtr G t i p) ∨
      G.HappensBefore rule (.nth u k) (.nth t i) ∨ G.HappensBefore rule (.nth t i) (.nth u k) := by
  cases hG.performs hact with
  | firstTest p hcall => exact .inl ⟨hcall, p, hact⟩
  | test p hheld =>
    obtain ⟨a, ha⟩ := hheld
    obtain ⟨-, b, hb⟩ := hG.modifies_resourcePtr (modifies_of_writesPtr hw)
    obtain ⟨object, hwrite⟩ := hw
    exact .inr (hG.disciplined.ordered hc hb.held ha.held (not_accesses_mutex hwrite rfl)
      (not_accesses_mutex hact rfl) hne.symm)
  | reset object hheld =>
    obtain ⟨ht, hi⟩ := hG.write_unique hc ⟨object, hact⟩ hw
    exact absurd (by rw [ht, hi]) hne
  | arrow p hseen => exact .inr (.inl (hG.happensBefore_of_seen hc hw hseen))
  | lock => exact nomatch hloc
  | unwind hthrows hheld => exact nomatch hloc
  | unlock hheld => exact nomatch hloc

/-- There is no race when the write of the pointer is ordered with everything else. -/
theorem raceFree_of_ordered (hG : IsExecution throws calls G)
    (h : ∀ u k, WritesPtr G u k → ∀ t i, G.Accesses (.nth t i) .resourcePtr →
      (Event.nth t i : Event T Location) ≠ .nth u k →
      G.HappensBefore rule (.nth u k) (.nth t i) ∨ G.HappensBefore rule (.nth t i) (.nth u k))
    (x : Location) : G.RaceFree rule x := by
  cases x with
  | resourceMutex => exact hG.raceFree_resourceMutex
  | resourcePtr =>
    apply RaceFree.of_threads
    intro t i u j hconflict
    rcases hconflict.writes with hw | hw
    · exact h t i (hG.modifies_resourcePtr hw).1 u j hconflict.right hconflict.ne.symm
    · exact (h u j (hG.modifies_resourcePtr hw).1 t i hconflict.left hconflict.ne).symm

/-- A thread that only calls the second function begins with its first test. -/
theorem firstTest (hG : IsExecution throws calls G)
    (hcalls : ∀ f ∈ calls t, f = .undefinedBehaviourWithDoubleCheckedLocking)
    (hacts : G.actions t ≠ []) : ∃ p, ReadsPtr G t 0 p := by
  have hfollows := hG.follows t
  cases hact : G.actions t with
  | nil => exact absurd hact hacts
  | cons act acts =>
    rw [hact] at hfollows
    obtain ⟨l', hl', -⟩ := hfollows
    have hact₀ : G.action (.nth t 0) = some act := by
      show (G.actions t)[0]? = some act
      rw [hact]
      rfl
    cases hfs : calls t with
    | nil =>
      rw [hfs] at hl'
      exact nomatch hl'
    | cons f fs =>
      have hf := hcalls f (by rw [hfs]; exact List.mem_cons_self)
      subst hf
      rw [hfs] at hl'
      obtain ⟨p, hp⟩ := next_firstTest rfl hl'
      exact ⟨p, hact₀.trans (congrArg some hp)⟩

/-- What releases the mutex when no construction throws. -/
theorem settled_of_releases (hG : IsExecution false calls G)
    (h : G.Does Action.Releases (.nth t k)) : ∃ a, Settled G t a k := by
  obtain ⟨act, hact, hrel⟩ := h
  cases hG.performs hact with
  | unwind hthrows hheld => exact nomatch hthrows
  | unlock hheld =>
    obtain ⟨a, -, hsettled⟩ := hheld
    exact ⟨a, hsettled⟩
  | lock => simp [Action.Releases] at hrel
  | firstTest p hcall => exact hrel.elim
  | test p hheld => exact hrel.elim
  | reset object hheld => exact hrel.elim
  | arrow p hseen => exact hrel.elim

/-- The first test of another thread is not ordered with the write. -/
theorem not_ordered (hG : IsExecution false calls G) (hc : G.Consistent rule)
    (hw : WritesPtr G t i) (hut : u ≠ t) (hread : ReadsPtr G u 0 p) :
    ¬ G.HappensBefore rule (.nth t i) (.nth u 0) ∧
      ¬ G.HappensBefore rule (.nth u 0) (.nth t i) := by
  constructor
  · intro hhb
    -- nothing of another thread comes before the first access of this one
    obtain ⟨k, hk, c, ⟨x, v, -, hacq, -⟩, -⟩ := entered_of_happensBefore hhb rfl hut.symm
    rw [Nat.le_zero.mp hk, Does.iff_of_action hread] at hacq
    exact hacq
  · intro hhb
    have hthread : (Event.nth t i : Event T Location).thread ≠ some u := fun he =>
      hut (Option.some.inj he).symm
    obtain ⟨k, -, c, hsync, hc'⟩ := left_of_happensBefore hhb hthread
    have hrel : G.Does Action.Releases (.nth u k) := by
      obtain ⟨x, v, -, -, hseq⟩ := id hsync
      exact hseq.releases
    obtain ⟨a, j, -, hjk, hsettled⟩ := hG.settled_of_releases hrel
    -- the section that is left has seen the object, or made it, and so comes after the write
    have hafter := hG.happensBefore_of_seen hc hw ⟨j, hjk, hsettled⟩
    have hcycle : G.HappensBefore rule (.nth t i) c := hafter.trans (.of_synchronizes hsync)
    rcases hc' with hc' | hc'
    · subst hc'
      exact hc.irrefl _ hcycle
    · exact hc.irrefl _ (hcycle.trans hc')

end IsExecution

/-- **With the mutex first.**  There is no race, the pointer is written at most once, and whoever
reads it without the mutex reads the object that was written. -/
theorem serialized_raceFree (hG : IsExecution throws calls G) (hc : G.Consistent rule)
    (hcalls : ∀ t, ∀ f ∈ calls t, f = .unnecesarySerializedProtection) :
    (∀ x, G.RaceFree rule x) ∧
    (∀ t i u k, WritesPtr G t i → WritesPtr G u k → t = u ∧ i = k) ∧
    (∀ t i p, ReadsPtr G t i p → (∀ a, ¬ HasLock G t a i) →
      ∃ u k object, G.action (.nth u k) = some (.write .resourcePtr (.pointer (some object))) ∧
        p = some object ∧ G.HappensBefore rule (.nth u k) (.nth t i)) := by
  have hnone : ∀ t, .undefinedBehaviourWithDoubleCheckedLocking ∉ calls t :=
    fun t ht => nomatch hcalls t _ ht
  refine ⟨hG.raceFree_of_ordered fun u k hw t i hat hne => ?_,
    fun t i u k hi hk => hG.write_unique hc hi hk, fun t i p hread hout => ?_⟩
  · obtain ⟨act, hact, hloc⟩ := hat
    rcases hG.ordered hc hw hact hloc hne with ⟨hcall, -⟩ | hord
    · exact absurd hcall (hnone t)
    · exact hord
  · cases hG.performs hread with
    | firstTest p hcall => exact absurd hcall (hnone t)
    | test p hheld =>
      obtain ⟨a, ha⟩ := hheld
      exact absurd ha.held (hout a)
    | arrow p hseen =>
      obtain ⟨u, k, object, hw⟩ := hG.exists_write_of_seen hc hseen
      have hhb := hG.happensBefore_of_seen hc ⟨object, hw⟩ hseen
      exact ⟨u, k, object, hw, hG.reads_of_happensBefore hc hw hhb hread, hhb⟩

theorem Location.mem_all (x : Location) : x ∈ [Location.resourceMutex, Location.resourcePtr] := by
  cases x <;> decide

/-- The first thread makes the object, and the second one finds it. -/
def serializedRun : Execution Bool Location Value where
  initially
    | .resourceMutex => .held false
    | .resourcePtr => .pointer none
  actions
    | false => [.update .acquire .resourceMutex (.held false) (.held true),
        .read .resourcePtr (.pointer none), .write .resourcePtr (.pointer (some 0)),
        .store .release .resourceMutex (.held false), .read .resourcePtr (.pointer (some 0))]
    | true => [.update .acquire .resourceMutex (.held false) (.held true),
        .read .resourcePtr (.pointer (some 0)), .store .release .resourceMutex (.held false),
        .read .resourcePtr (.pointer (some 0))]
  source
    | .nth false 0 => .init .resourceMutex
    | .nth false 1 => .init .resourcePtr
    | .nth true 0 => .nth false 3
    | _ => .nth false 2
  time
    | .init _ => 0
    | .nth false i => i + 1
    | .nth true i => i + 6

theorem isExecution_serializedRun :
    IsExecution false (fun _ => [.unnecesarySerializedProtection]) serializedRun where
  mutex := rfl
  pointer := rfl
  follows t := by
    cases t <;> decide

theorem consistent_serializedRun : serializedRun.Consistent .cpp20 := by
  have hts : ∀ t : Bool, t ∈ [false, true] := by decide
  have hlock : serializedRun.action (.nth true 0) =
      some (.update .acquire .resourceMutex (.held false) (.held true)) := rfl
  have hunlock : serializedRun.action (.nth false 3) =
      some (.store .release .resourceMutex (.held false)) := rfl
  have hsync : serializedRun.SynchronizesWith .cpp20 (.nth false 3) (.nth true 0) :=
    .of_source ((reads_iff hlock).mpr rfl) (.of_action hlock (.inl rfl)) rfl
      ⟨.held false, (writes_iff hunlock).mpr rfl⟩ (.of_action hunlock (.inl rfl))
  have hreads :
      serializedRun.plainReads (serializedRun.events [false, true] [.resourceMutex, .resourcePtr]) =
        [.nth false 1, .nth false 4, .nth true 1, .nth true 3] := by decide
  refine .of_interleaving (fun e he => mem_events hts Location.mem_all he)
    (by decide) (by decide) (by decide) fun e he => ?_
  rw [hreads] at he
  simp only [List.mem_cons, List.not_mem_nil, or_false] at he
  rcases he with he | he | he | he
  · subst he
    exact .of_sequenced trivial
  · subst he
    exact .of_sequenced (sequenced_nth (by decide))
  · subst he
    exact publication (sequenced_nth (by decide)) hsync (sequenced_nth (by decide))
  · subst he
    exact publication (sequenced_nth (by decide)) hsync (sequenced_nth (by decide))

theorem serialized_raceFree_serializedRun : serializedRun.RaceFree .cpp20 .resourcePtr :=
  (serialized_raceFree isExecution_serializedRun consistent_serializedRun fun _ _ hf =>
    List.mem_singleton.mp hf).1 .resourcePtr

/-- **With the test first.**  When no construction throws, there is no race exactly when nobody else
does anything besides the thread that writes the pointer. -/
theorem doubleChecked_raceFree_iff (hG : IsExecution false calls G) (hc : G.Consistent rule)
    (hcalls : ∀ t, ∀ f ∈ calls t, f = .undefinedBehaviourWithDoubleCheckedLocking) :
    (∀ x, G.RaceFree rule x) ↔ ∀ t i, WritesPtr G t i → ∀ u, u ≠ t → G.actions u = [] := by
  constructor
  · intro hfree t i hw u hut
    by_contra hacts
    obtain ⟨p, hread⟩ := hG.firstTest (hcalls u) hacts
    obtain ⟨object, hwrite⟩ := id hw
    have hne : (Event.nth t i : Event T Location) ≠ .nth u 0 := by
      intro he
      cases he
      exact hut rfl
    have hconflict : G.Conflict .resourcePtr (.nth t i) (.nth u 0) :=
      ⟨hne, .of_action hwrite, .of_action hread, .inl (IsExecution.modifies_of_writesPtr hw),
        .inl (.of_action hwrite id)⟩
    obtain ⟨hbefore, hafter⟩ := hG.not_ordered hc hw hut hread
    rcases hfree .resourcePtr _ _ hconflict with hhb | hhb
    · exact hbefore hhb
    · exact hafter hhb
  · intro halone
    refine hG.raceFree_of_ordered fun u k hw t i hat hne => ?_
    obtain ⟨act, hact, -⟩ := hat
    have htu : t = u := by
      by_contra htu
      have hnil := halone u k hw t htu
      have hnone : G.action (.nth t i) = none := by
        show (G.actions t)[i]? = none
        rw [hnil]
        rfl
      exact nomatch hact.symm.trans hnone
    subst htu
    rcases Nat.lt_trichotomy i k with hik | hik | hik
    · exact .inr (.of_sequenced (sequenced_nth hik))
    · exact absurd (by rw [hik]) hne
    · exact .inl (.of_sequenced (sequenced_nth hik))

/-- The first thread makes the object after the first test of the second one. -/
def doubleCheckedRun : Execution Bool Location Value where
  initially
    | .resourceMutex => .held false
    | .resourcePtr => .pointer none
  actions
    | false => [.read .resourcePtr (.pointer none),
        .update .acquire .resourceMutex (.held false) (.held true),
        .read .resourcePtr (.pointer none), .write .resourcePtr (.pointer (some 0)),
        .store .release .resourceMutex (.held false)]
    | true => [.read .resourcePtr (.pointer none)]
  source
    | .nth false 1 => .init .resourceMutex
    | _ => .init .resourcePtr
  time
    | .init _ => 0
    | .nth _ i => i + 1

theorem isExecution_doubleCheckedRun :
    IsExecution false (fun _ => [.undefinedBehaviourWithDoubleCheckedLocking])
      doubleCheckedRun where
  mutex := rfl
  pointer := rfl
  follows t := by
    cases t <;> decide

theorem consistent_doubleCheckedRun : doubleCheckedRun.Consistent .cpp20 := by
  have hts : ∀ t : Bool, t ∈ [false, true] := by decide
  have hreads : doubleCheckedRun.plainReads
      (doubleCheckedRun.events [false, true] [.resourceMutex, .resourcePtr]) =
        [.nth false 0, .nth false 2, .nth true 0] := by decide
  refine .of_interleaving (fun e he => mem_events hts Location.mem_all he)
    (by decide) (by decide) (by decide) fun e he => ?_
  rw [hreads] at he
  simp only [List.mem_cons, List.not_mem_nil, or_false] at he
  rcases he with he | he | he
  · subst he
    exact .of_sequenced trivial
  · subst he
    exact .of_sequenced trivial
  · subst he
    exact .of_sequenced trivial

theorem doubleChecked_raceFree_iff_doubleCheckedRun :
    ¬ ∀ x, doubleCheckedRun.RaceFree .cpp20 x := by
  rw [doubleChecked_raceFree_iff isExecution_doubleCheckedRun consistent_doubleCheckedRun
    fun _ _ hf => List.mem_singleton.mp hf]
  intro halone
  exact nomatch halone false 3 ⟨0, rfl⟩ true nofun

end ConcurrencyInAction.LazyInitializationRaces
