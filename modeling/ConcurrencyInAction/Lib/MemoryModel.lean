import Mathlib.Logic.Relation
import Mathlib.Data.Nat.Notation
import Mathlib.Order.Basic

/-!
# Atomic operations and happens-before

The executions of a multithreaded program as graphs of events, without an interleaving.

* `Action`, `Event`, `Execution`: the reads and writes of every thread, the write that a read takes
  its value from, and the modification order of every location;
* `InReleaseSequence`, `SynchronizesWith`, `HappensBefore`: release sequences under either of two
  rules (`Rule`), and what they order;
* `Consistent`: the axioms of coherence, of atomic updates and of non-atomic reads;
* `Conflict`, `RaceFree`: data races;
* `publication`: what comes before a release happens before what comes after an acquire;
  `Consistent.latest`: without a race a read takes the last value; `entered_of_happensBefore` and
  `left_of_happensBefore`: a thread is reached through an acquire and left through a release;
* `Consistent.of_coherent`: what finitely many events have to satisfy, decided by `Coherent`;
* `Follows`, `Follows.before`: the actions of a thread as its code gives them.

There is no axiom against values out of thin air, and none on the total order of the sequentially
consistent operations: what is proved of all consistent executions holds of fewer ones as well.
-/

namespace MemoryModel

variable {T X V : Type*}

inductive MemoryOrder where
  | relaxed
  | acquire
  | release
  | acqRel
  deriving DecidableEq

/-- A non-atomic access, or an atomic operation; an `update` reads the first value and writes the
second one. -/
inductive Action (X V : Type*) where
  | read (x : X) (v : V)
  | write (x : X) (v : V)
  | load (o : MemoryOrder) (x : X) (v : V)
  | store (o : MemoryOrder) (x : X) (v : V)
  | update (o : MemoryOrder) (x : X) (v w : V)
  deriving DecidableEq

namespace Action

def location : Action X V → X
  | .read x _ | .write x _ | .load _ x _ | .store _ x _ | .update _ x _ _ => x

/-- The location and the value that is read. -/
def reading : Action X V → Option (X × V)
  | .read x v | .load _ x v | .update _ x v _ => some (x, v)
  | .write _ _ | .store _ _ _ => none

/-- The location and the value that is written. -/
def writing : Action X V → Option (X × V)
  | .write x v | .store _ x v | .update _ x _ v => some (x, v)
  | .read _ _ | .load _ _ _ => none

def Atomic : Action X V → Prop
  | .read _ _ | .write _ _ => False
  | .load _ _ _ | .store _ _ _ | .update _ _ _ _ => True

def IsUpdate : Action X V → Prop
  | .update _ _ _ _ => True
  | .read _ _ | .write _ _ | .load _ _ _ | .store _ _ _ => False

def isPlainRead : Action X V → Bool
  | .read _ _ => true
  | .write _ _ | .load _ _ _ | .store _ _ _ | .update _ _ _ _ => false

/-- A store or an update that releases. -/
def Releases : Action X V → Prop
  | .store o _ _ | .update o _ _ _ => o = .release ∨ o = .acqRel
  | .read _ _ | .write _ _ | .load _ _ _ => False

/-- A load or an update that acquires. -/
def Acquires : Action X V → Prop
  | .load o _ _ | .update o _ _ _ => o = .acquire ∨ o = .acqRel
  | .read _ _ | .write _ _ | .store _ _ _ => False

theorem location_of_reading {a : Action X V} {x : X} {v : V} (h : a.reading = some (x, v)) :
    a.location = x := by
  cases a with
  | read y u | load o y u | update o y u u' => exact congrArg Prod.fst (Option.some.inj h)
  | write y u | store o y u => exact nomatch h

theorem location_of_writing {a : Action X V} {x : X} {v : V} (h : a.writing = some (x, v)) :
    a.location = x := by
  cases a with
  | write y u | store o y u | update o y u u' => exact congrArg Prod.fst (Option.some.inj h)
  | read y u | load o y u => exact nomatch h

end Action

/-- The initialization of a location, or what a thread does at a place of its sequence. -/
inductive Event (T X : Type*) where
  | init (x : X)
  | nth (t : T) (i : ℕ)
  deriving DecidableEq

/-- The thread of an event. -/
def Event.thread : Event T X → Option T
  | .init _ => none
  | .nth t _ => some t

/-- The actions of every thread in the order of its program, the write that every read takes its
value from, and the place of every write in the modification order of its location. -/
structure Execution (T X V : Type*) where
  initially : X → V
  actions : T → List (Action X V)
  source : Event T X → Event T X
  time : Event T X → ℕ

/-- How far a release sequence goes: with the stores of the thread that heads it, or through updates
only. -/
inductive Rule where
  | cpp11
  | cpp20
  deriving DecidableEq

/-- The order of the program; the initialization comes before all threads. -/
def SequencedBefore : Event T X → Event T X → Prop
  | .init _, .nth _ _ => True
  | .nth t i, .nth u j => t = u ∧ i < j
  | _, .init _ => False

instance SequencedBefore.decidable [DecidableEq T] :
    (a b : Event T X) → Decidable (SequencedBefore a b)
  | .init _, .nth _ _ => isTrue trivial
  | .nth t i, .nth u j => inferInstanceAs (Decidable (t = u ∧ i < j))
  | .init _, .init _ | .nth _ _, .init _ => isFalse id

theorem sequenced_nth {t : T} {i j : ℕ} (h : i < j) :
    SequencedBefore (.nth t i : Event T X) (.nth t j) := ⟨rfl, h⟩

theorem SequencedBefore.irrefl (a : Event T X) : ¬ SequencedBefore a a := by
  cases a with
  | init x => exact id
  | nth t i => exact fun h => Nat.lt_irrefl i h.2

theorem SequencedBefore.trans {a b c : Event T X} (hab : SequencedBefore a b)
    (hbc : SequencedBefore b c) : SequencedBefore a c := by
  cases c with
  | init x => cases b <;> exact hbc.elim
  | nth v k =>
    cases b with
    | init x => cases a <;> exact hab.elim
    | nth u j =>
      cases a with
      | init x => trivial
      | nth t i => exact ⟨hab.1.trans hbc.1, Nat.lt_trans hab.2 hbc.2⟩

namespace Execution

variable (G : Execution T X V)

def action : Event T X → Option (Action X V)
  | .init x => some (.write x (G.initially x))
  | .nth t i => (G.actions t)[i]?

/-- The location and the value that the event reads. -/
def reading (e : Event T X) : Option (X × V) := (G.action e).bind Action.reading

/-- The location and the value that the event writes. -/
def writing (e : Event T X) : Option (X × V) := (G.action e).bind Action.writing

def Reads (e : Event T X) (x : X) (v : V) : Prop := G.reading e = some (x, v)

def Writes (e : Event T X) (x : X) (v : V) : Prop := G.writing e = some (x, v)

/-- The event writes to the location. -/
def Modifies (e : Event T X) (x : X) : Prop := ∃ v, G.Writes e x v

/-- The event has an action with the property. -/
def Does (P : Action X V → Prop) (e : Event T X) : Prop := ∃ a ∈ G.action e, P a

/-- The event reads or writes the location. -/
def Accesses (e : Event T X) (x : X) : Prop := ∃ act ∈ G.action e, act.location = x

/-- The write `w` belongs to the release sequence headed by the release `a`: the writes from there
on are updates, or made by the thread of `a`. -/
structure InReleaseSequence (rule : Rule) (x : X) (a w : Event T X) : Prop where
  head : G.Modifies a x
  releases : G.Does Action.Releases a
  modifies : G.Modifies w x
  le : G.time a ≤ G.time w
  between : ∀ b, G.Modifies b x → G.time a < G.time b → G.time b ≤ G.time w →
    G.Does Action.IsUpdate b ∨ (rule = .cpp11 ∧ b.thread = a.thread)

/-- The release `a` synchronizes with an acquire that reads from its release sequence. -/
def SynchronizesWith (rule : Rule) (a b : Event T X) : Prop :=
  ∃ x v, G.Reads b x v ∧ G.Does Action.Acquires b ∧ G.InReleaseSequence rule x a (G.source b)

def HappensBefore (rule : Rule) : Event T X → Event T X → Prop :=
  Relation.TransGen fun a b => SequencedBefore a b ∨ G.SynchronizesWith rule a b

/-- **Consistent executions.** -/
structure Consistent (rule : Rule) : Prop where
  irrefl : ∀ e, ¬ G.HappensBefore rule e e
  /-- A read takes the value of its source. -/
  reads_from : ∀ e x v, G.Reads e x v → G.Writes (G.source e) x v
  /-- The modification order of a location is total. -/
  total : ∀ x a b, G.Modifies a x → G.Modifies b x → G.time a = G.time b → a = b
  /-- Write-write coherence. -/
  write_write : ∀ x a b, G.HappensBefore rule a b → G.Modifies a x → G.Modifies b x →
    G.time a < G.time b
  /-- Write-read coherence. -/
  write_read : ∀ x v a e, G.HappensBefore rule a e → G.Modifies a x → G.Reads e x v →
    G.time a ≤ G.time (G.source e)
  /-- Read-write coherence. -/
  read_write : ∀ x v e b, G.HappensBefore rule e b → G.Reads e x v → G.Modifies b x →
    G.time (G.source e) < G.time b
  /-- Read-read coherence. -/
  read_read : ∀ x v v' e e', G.HappensBefore rule e e' → G.Reads e x v → G.Reads e' x v' →
    G.time (G.source e) ≤ G.time (G.source e')
  /-- An update comes right after the write that it reads. -/
  update : ∀ e o x v w, G.action e = some (.update o x v w) → G.time (G.source e) < G.time e ∧
    ∀ b, G.Modifies b x → G.time b ≤ G.time (G.source e) ∨ G.time e ≤ G.time b
  /-- A non-atomic read takes the value of a write that happens before it. -/
  visible : ∀ e x v, G.action e = some (.read x v) → G.HappensBefore rule (G.source e) e

/-- Two accesses of one location, one of which writes and one of which is not atomic. -/
structure Conflict (x : X) (a b : Event T X) : Prop where
  ne : a ≠ b
  left : G.Accesses a x
  right : G.Accesses b x
  writes : G.Modifies a x ∨ G.Modifies b x
  nonatomic : G.Does (fun a => ¬ a.Atomic) a ∨ G.Does (fun a => ¬ a.Atomic) b

/-- There is no data race on the location. -/
def RaceFree (rule : Rule) (x : X) : Prop :=
  ∀ a b, G.Conflict x a b → G.HappensBefore rule a b ∨ G.HappensBefore rule b a

/-! ### Events and their actions -/

variable {G} {rule : Rule} {x : X} {v w : V} {e a b c : Event T X} {act : Action X V}

theorem Does.of_action {P : Action X V → Prop} (h : G.action e = some act) (hP : P act) :
    G.Does P e := ⟨act, h, hP⟩

theorem Does.iff_of_action {P : Action X V → Prop} (h : G.action e = some act) :
    G.Does P e ↔ P act := by
  constructor
  · intro hd
    obtain ⟨act', hact, hP⟩ := hd
    rw [Option.some.inj (h.symm.trans hact)]
    exact hP
  · exact Does.of_action h

theorem Accesses.of_action (h : G.action e = some act) : G.Accesses e act.location :=
  ⟨act, h, rfl⟩

theorem location_of_accesses (h : G.action e = some act) (hx : G.Accesses e x) :
    act.location = x := by
  obtain ⟨act', hact, hloc⟩ := hx
  rw [Option.some.inj (h.symm.trans hact)]
  exact hloc

theorem writes_iff (h : G.action e = some act) : G.Writes e x v ↔ act.writing = some (x, v) := by
  rw [Writes, writing, h, Option.bind_some]

theorem reads_iff (h : G.action e = some act) : G.Reads e x v ↔ act.reading = some (x, v) := by
  rw [Reads, reading, h, Option.bind_some]

theorem Writes.exists_action (h : G.Writes e x v) :
    ∃ act, G.action e = some act ∧ act.writing = some (x, v) := Option.bind_eq_some_iff.mp h

theorem Reads.exists_action (h : G.Reads e x v) :
    ∃ act, G.action e = some act ∧ act.reading = some (x, v) := Option.bind_eq_some_iff.mp h

theorem Modifies.exists_action (h : G.Modifies e x) :
    ∃ act v, G.action e = some act ∧ act.writing = some (x, v) := by
  obtain ⟨v, hv⟩ := h
  obtain ⟨act, hact, hw⟩ := hv.exists_action
  exact ⟨act, v, hact, hw⟩

theorem Modifies.accesses (h : G.Modifies e x) : G.Accesses e x := by
  obtain ⟨act, v, hact, hw⟩ := h.exists_action
  exact ⟨act, hact, Action.location_of_writing hw⟩

theorem modifies_init (x : X) : G.Modifies (.init x) x := ⟨G.initially x, rfl⟩

/-- A location is initialized once. -/
theorem eq_of_modifies_init {y : X} (h : G.Modifies (.init y) x) : y = x := by
  obtain ⟨v, hv⟩ := h
  exact congrArg Prod.fst (Option.some.inj hv)

/-! ### Happens-before -/

theorem HappensBefore.of_sequenced (h : SequencedBefore a b) : G.HappensBefore rule a b :=
  .single (.inl h)

theorem HappensBefore.of_synchronizes (h : G.SynchronizesWith rule a b) :
    G.HappensBefore rule a b := .single (.inr h)

theorem HappensBefore.trans (hab : G.HappensBefore rule a b) (hbc : G.HappensBefore rule b c) :
    G.HappensBefore rule a c := Relation.TransGen.trans hab hbc

/-- **Publication.**  What comes before a release happens before what comes after an acquire that
reads from the release sequence. -/
theorem publication {d e : Event T X} (hab : SequencedBefore a b)
    (hsync : G.SynchronizesWith rule b d) (hde : SequencedBefore d e) : G.HappensBefore rule a e :=
  ((HappensBefore.of_sequenced hab).trans (.of_synchronizes hsync)).trans (.of_sequenced hde)

/-- A release heads its own release sequence. -/
theorem InReleaseSequence.self (h : G.Modifies a x) (hrel : G.Does Action.Releases a) :
    G.InReleaseSequence rule x a a where
  head := h
  releases := hrel
  modifies := h
  le := Nat.le_refl _
  between _ _ hlt hle := absurd hle (Nat.not_le.mpr hlt)

/-- An acquire that reads from a release. -/
theorem SynchronizesWith.of_source (hreads : G.Reads b x v) (hacq : G.Does Action.Acquires b)
    (hsource : G.source b = a) (h : G.Modifies a x) (hrel : G.Does Action.Releases a) :
    G.SynchronizesWith rule a b := by
  subst hsource
  exact ⟨x, v, hreads, hacq, .self h hrel⟩

/-- Nothing happens before an initialization. -/
theorem not_happensBefore_init : ¬ G.HappensBefore rule a (.init x) := by
  intro h
  obtain ⟨c, -, hc | hc⟩ := Relation.TransGen.tail'_iff.mp h
  · cases c <;> exact hc.elim
  · obtain ⟨y, v, hreads, -⟩ := hc
    exact nomatch hreads

/-- Another thread is reached through one of its acquires. -/
theorem entered_of_happensBefore {t : T} {i : ℕ} (h : G.HappensBefore rule a (.nth t i))
    {u : T} (ha : a.thread = some u) (hne : u ≠ t) :
    ∃ k ≤ i, ∃ c, G.SynchronizesWith rule c (.nth t k) ∧ (a = c ∨ G.HappensBefore rule a c) := by
  obtain ⟨e, he⟩ : ∃ e : Event T X, e = .nth t i := ⟨_, rfl⟩
  rw [← he] at h
  induction h generalizing i with
  | single h =>
    subst he
    rcases h with h | h
    · cases a with
      | init x => exact nomatch ha
      | nth u' j => exact absurd (Option.some.inj ha.symm |>.trans h.1) hne
    · exact ⟨i, Nat.le_refl i, a, h, .inl rfl⟩
  | @tail b d hab hbd ih =>
    subst he
    rcases hbd with hbd | hbd
    · cases b with
      | init x => exact absurd hab not_happensBefore_init
      | nth t' k =>
        obtain ⟨ht, hk⟩ := hbd
        subst ht
        obtain ⟨k', hk', hrest⟩ := ih rfl
        exact ⟨k', Nat.le_trans hk' (Nat.le_of_lt hk), hrest⟩
    · exact ⟨i, Nat.le_refl i, b, hbd, .inr hab⟩

/-- A thread is left through one of its releases. -/
theorem left_of_happensBefore {t : T} {i : ℕ} (h : G.HappensBefore rule (.nth t i) b)
    (hb : b.thread ≠ some t) :
    ∃ k, i ≤ k ∧ ∃ c, G.SynchronizesWith rule (.nth t k) c ∧
      (c = b ∨ G.HappensBefore rule c b) := by
  obtain ⟨e, he⟩ : ∃ e : Event T X, e = .nth t i := ⟨_, rfl⟩
  rw [← he] at h
  induction h using Relation.TransGen.head_induction_on generalizing i with
  | single h =>
    subst he
    rcases h with h | h
    · cases b with
      | init x => exact h.elim
      | nth u j => exact absurd (congrArg some h.1.symm) hb
    · exact ⟨i, Nat.le_refl i, b, h, .inl rfl⟩
  | @head d c hdc hcb ih =>
    subst he
    rcases hdc with hdc | hdc
    · cases c with
      | init x => exact hdc.elim
      | nth t' k =>
        obtain ⟨ht, hk⟩ := hdc
        subst ht
        obtain ⟨k', hk', hrest⟩ := ih rfl
        exact ⟨k', Nat.le_trans (Nat.le_of_lt hk) hk', hrest⟩
    · exact ⟨i, Nat.le_refl i, c, hdc, .inr hcb⟩

/-! ### Races -/

/-- Only what the threads do can race: the initialization comes before it. -/
theorem RaceFree.of_threads (h : ∀ t i u j, G.Conflict x (.nth t i) (.nth u j) →
    G.HappensBefore rule (.nth t i) (.nth u j) ∨ G.HappensBefore rule (.nth u j) (.nth t i)) :
    G.RaceFree rule x := by
  intro a b hconflict
  cases a with
  | init y =>
    cases b with
    | init z =>
      have hy := location_of_accesses rfl hconflict.left
      have hz := location_of_accesses rfl hconflict.right
      exact absurd (congrArg Event.init (hy.trans hz.symm)) hconflict.ne
    | nth u j => exact .inl (.of_sequenced trivial)
  | nth t i =>
    cases b with
    | init z => exact .inr (.of_sequenced trivial)
    | nth u j => exact h t i u j hconflict

/-- There is no race on an atomic variable. -/
theorem RaceFree.of_atomic (h : ∀ t i act, G.action (.nth t i) = some act → act.location = x →
    act.Atomic) : G.RaceFree rule x := by
  have hatomic : ∀ {t i}, G.Accesses (.nth t i) x →
      ¬ G.Does (fun act => ¬ act.Atomic) (.nth t i) := by
    intro t i hx hplain
    obtain ⟨act, hact, hnot⟩ := hplain
    exact hnot (h t i act hact (location_of_accesses hact hx))
  apply of_threads
  intro t i u j hconflict
  rcases hconflict.nonatomic with hplain | hplain
  · exact absurd hplain (hatomic hconflict.left)
  · exact absurd hplain (hatomic hconflict.right)

/-! ### What a consistent execution reads -/

/-- The initialization is the first write of a location. -/
theorem Consistent.time_init_lt (h : G.Consistent rule) {t : T} {i : ℕ}
    (hw : G.Modifies (.nth t i) x) : G.time (.init x) < G.time (.nth t i) :=
  h.write_write x _ _ (.of_sequenced trivial) (modifies_init x) hw

/-- Two writes that are ordered are ordered as their places are. -/
theorem Consistent.happensBefore_of_time (h : G.Consistent rule) (ha : G.Modifies a x)
    (hb : G.Modifies b x) (hord : G.HappensBefore rule a b ∨ G.HappensBefore rule b a)
    (hle : G.time a ≤ G.time b) : G.HappensBefore rule a b := by
  rcases hord with hab | hba
  · exact hab
  · exact absurd (h.write_write x b a hba hb ha) (Nat.not_lt.mpr hle)

/-- **Without a race a read takes the last value.**  Every other write of the location happens
before the write that was read, or after the read. -/
theorem Consistent.latest (h : G.Consistent rule) (hfree : G.RaceFree rule x)
    (hread : G.action e = some (.read x v)) (hb : G.Modifies b x)
    (hplain : G.Does (fun act => ¬ act.Atomic) b) (hne : b ≠ G.source e) :
    G.HappensBefore rule b (G.source e) ∨ G.HappensBefore rule e b := by
  have hreads : G.Reads e x v := (reads_iff hread).mpr rfl
  have hsource : G.Modifies (G.source e) x := ⟨v, h.reads_from e x v hreads⟩
  have hbe : b ≠ e := by
    intro he
    subst he
    obtain ⟨act, u, hact, hw⟩ := hb.exists_action
    cases hread.symm.trans hact
    exact nomatch hw
  rcases hfree b e ⟨hbe, hb.accesses, .of_action hread, .inl hb, .inl hplain⟩ with hord | hord
  · -- the write comes before the read, so not after the source
    have hle := h.write_read x v b e hord hb hreads
    exact .inl (h.happensBefore_of_time hb hsource
      (hfree b _ ⟨hne, hb.accesses, hsource.accesses, .inl hb, .inl hplain⟩) hle)
  · exact .inr hord

/-! ### Finitely many events -/

theorem Reads.isSome (h : G.Reads e x v) : (G.action e).isSome := by
  obtain ⟨act, hact, -⟩ := h.exists_action
  rw [hact]
  rfl

theorem isSome_action_nth {t : T} {i : ℕ} :
    (G.action (.nth t i)).isSome ↔ i < (G.actions t).length := by
  simp [action]

theorem Modifies.isSome (h : G.Modifies a x) : (G.action a).isSome := by
  obtain ⟨act, v, hact, -⟩ := h.exists_action
  rw [hact]
  rfl

/-- What is sequenced before an action is an action. -/
theorem isSome_of_sequenced (h : SequencedBefore a b) (hb : (G.action b).isSome) :
    (G.action a).isSome := by
  cases a with
  | init x => rfl
  | nth t i =>
    cases b with
    | init x => exact h.elim
    | nth u j =>
      obtain ⟨htu, hij⟩ := h
      subst htu
      have hj : j < (G.actions t).length := isSome_action_nth.mp hb
      exact isSome_action_nth.mpr (Nat.lt_trans hij hj)

/-- Past the end of a thread there is only the order of its places. -/
theorem exists_nth_of_happensBefore {t : T} {i : ℕ} (hnone : G.action (.nth t i) = none)
    (h : G.HappensBefore rule (.nth t i) b) : ∃ j, b = .nth t j ∧ i < j := by
  have hlen : (G.actions t).length ≤ i := List.getElem?_eq_none_iff.mp hnone
  have hnext : ∀ {j c}, i ≤ j →
      SequencedBefore (.nth t j) c ∨ G.SynchronizesWith rule (.nth t j) c →
      ∃ k, c = .nth t k ∧ j < k := by
    intro j c hij hjc
    rcases hjc with hjc | ⟨x, v, -, -, hrel⟩
    · cases c with
      | init x => exact hjc.elim
      | nth u k => exact ⟨k, by rw [hjc.1], hjc.2⟩
    · have hsome := isSome_action_nth.mp hrel.head.isSome
      omega
  induction h with
  | single h => exact hnext (Nat.le_refl i) h
  | tail _ hcd ih =>
    obtain ⟨j, hj, hij⟩ := ih
    subst hj
    obtain ⟨k, hk, hjk⟩ := hnext (Nat.le_of_lt hij) hcd
    exact ⟨k, hk, Nat.lt_trans hij hjk⟩

/-- The places of the events extend happens-before when they extend the order of the program and
every source comes before its read. -/
theorem time_lt_of_happensBefore
    (hseq : ∀ a b, (G.action b).isSome → SequencedBefore a b → G.time a < G.time b)
    (hsource : ∀ e x v, G.Reads e x v → G.time (G.source e) < G.time e)
    (h : G.HappensBefore rule a b) (hb : (G.action b).isSome) : G.time a < G.time b := by
  have hstep : ∀ {c d}, SequencedBefore c d ∨ G.SynchronizesWith rule c d →
      (G.action d).isSome → (G.action c).isSome ∧ G.time c < G.time d := by
    intro c d hcd hd
    rcases hcd with hcd | ⟨x, v, hread, -, hrel⟩
    · exact ⟨isSome_of_sequenced hcd hd, hseq c d hd hcd⟩
    · exact ⟨hrel.head.isSome, Nat.lt_of_le_of_lt hrel.le (hsource d x v hread)⟩
  induction h with
  | single h => exact (hstep h hb).2
  | tail _ hcd ih =>
    obtain ⟨hc, hlt⟩ := hstep hcd hb
    exact Nat.lt_trans (ih hc) hlt

variable (G) in
/-- The events of finitely many threads and locations. -/
def events (ts : List T) (xs : List X) : List (Event T X) :=
  xs.map .init ++ ts.flatMap fun t => (List.range (G.actions t).length).map (.nth t)

theorem mem_events {ts : List T} {xs : List X} (hts : ∀ t, t ∈ ts) (hxs : ∀ x, x ∈ xs)
    (h : (G.action e).isSome) : e ∈ G.events ts xs := by
  rw [events, List.mem_append]
  cases e with
  | init x => exact .inl (List.mem_map_of_mem (hxs x))
  | nth t i =>
    refine .inr (List.mem_flatMap.mpr ⟨t, hts t, List.mem_map_of_mem ?_⟩)
    exact List.mem_range.mpr (isSome_action_nth.mp h)

/-- Two accesses of one location. -/
def Meets : Option (X × V) → Option (X × V) → Prop
  | some p, some q => p.1 = q.1
  | _, _ => False

instance Meets.decidable [DecidableEq X] : (p q : Option (X × V)) → Decidable (Meets p q)
  | some p, some q => inferInstanceAs (Decidable (p.1 = q.1))
  | none, _ | some _, none => isFalse id

theorem Meets.of_eq {p q : Option (X × V)} (hp : p = some (x, v)) (hq : q = some (x, w)) :
    Meets p q := by
  subst hp
  subst hq
  exact rfl

variable (G) in
/-- The axioms of coherence for two events of which the first one comes first. -/
structure InOrder (a b : Event T X) : Prop where
  write_write : Meets (G.writing a) (G.writing b) → G.time a < G.time b
  write_read : Meets (G.writing a) (G.reading b) → G.time a ≤ G.time (G.source b)
  read_write : Meets (G.reading a) (G.writing b) → G.time (G.source a) < G.time b
  read_read : Meets (G.reading a) (G.reading b) → G.time (G.source a) ≤ G.time (G.source b)

instance InOrder.decidable [DecidableEq X] (a b : Event T X) : Decidable (G.InOrder a b) :=
  decidable_of_iff (_ ∧ _ ∧ _ ∧ _)
    ⟨fun ⟨h₁, h₂, h₃, h₄⟩ => ⟨h₁, h₂, h₃, h₄⟩, fun ⟨h₁, h₂, h₃, h₄⟩ => ⟨h₁, h₂, h₃, h₄⟩⟩

variable (G) in
/-- The axioms of coherence and of updates for the listed events, with `R` in the place of
happens-before. -/
structure Coherent (R : Event T X → Event T X → Prop) (es : List (Event T X)) : Prop where
  reads_from : ∀ e ∈ es, G.reading e ≠ none → G.writing (G.source e) = G.reading e
  total : ∀ a ∈ es, ∀ b ∈ es, Meets (G.writing a) (G.writing b) → G.time a = G.time b → a = b
  inOrder : ∀ a ∈ es, ∀ b ∈ es, R a b → G.InOrder a b
  update : ∀ e ∈ es, Meets (G.reading e) (G.writing e) → G.time (G.source e) < G.time e ∧
    ∀ b ∈ es, Meets (G.writing b) (G.reading e) →
      G.time b ≤ G.time (G.source e) ∨ G.time e ≤ G.time b

instance Coherent.decidable [DecidableEq T] [DecidableEq X] [DecidableEq V]
    (R : Event T X → Event T X → Prop) [DecidableRel R] (es : List (Event T X)) :
    Decidable (G.Coherent R es) :=
  decidable_of_iff (_ ∧ _ ∧ _ ∧ _)
    ⟨fun ⟨h₁, h₂, h₃, h₄⟩ => ⟨h₁, h₂, h₃, h₄⟩, fun ⟨h₁, h₂, h₃, h₄⟩ => ⟨h₁, h₂, h₃, h₄⟩⟩

variable (G) in
/-- The non-atomic reads among the events. -/
def plainReads (es : List (Event T X)) : List (Event T X) :=
  es.filter fun e => (G.action e).any Action.isPlainRead

/-- **Finitely many events** are consistent when they are coherent for an order that extends
happens-before, and the non-atomic reads take visible values. -/
theorem Consistent.of_coherent {R : Event T X → Event T X → Prop} {es : List (Event T X)}
    (hes : ∀ e, (G.action e).isSome → e ∈ es)
    (hR : ∀ a b, G.HappensBefore rule a b → (G.action b).isSome → R a b) (hirrefl : ∀ a, ¬ R a a)
    (h : G.Coherent R es)
    (hvisible : ∀ e ∈ G.plainReads es, G.HappensBefore rule (G.source e) e) :
    G.Consistent rule where
  irrefl e he := by
    cases hact : G.action e with
    | some act => exact hirrefl e (hR e e he (by rw [hact]; rfl))
    | none =>
      cases e with
      | init x => exact nomatch hact
      | nth t i =>
        obtain ⟨j, hj, hij⟩ := exists_nth_of_happensBefore hact he
        cases hj
        exact Nat.lt_irrefl i hij
  reads_from e x v he := by
    have hread : G.reading e = some (x, v) := he
    have hfrom := h.reads_from e (hes e he.isSome) (by rw [hread]; exact Option.some_ne_none _)
    exact hfrom.trans hread
  total x a b ha hb htime := by
    have hmem := hes a ha.isSome
    have hmem' := hes b hb.isSome
    obtain ⟨v, hv⟩ := ha
    obtain ⟨w, hw⟩ := hb
    exact h.total a hmem b hmem' (.of_eq hv hw) htime
  write_write x a b hab ha hb := by
    have hord := hR a b hab hb.isSome
    have hmem := hes a ha.isSome
    have hmem' := hes b hb.isSome
    obtain ⟨v, hv⟩ := ha
    obtain ⟨w, hw⟩ := hb
    exact (h.inOrder a hmem b hmem' hord).write_write (.of_eq hv hw)
  write_read x v a e hae ha he := by
    have hord := hR a e hae he.isSome
    have hmem := hes a ha.isSome
    obtain ⟨w, hw⟩ := ha
    exact (h.inOrder a hmem e (hes e he.isSome) hord).write_read (.of_eq hw he)
  read_write x v e b heb he hb := by
    have hord := hR e b heb hb.isSome
    have hmem := hes b hb.isSome
    obtain ⟨w, hw⟩ := hb
    exact (h.inOrder e (hes e he.isSome) b hmem hord).read_write (.of_eq he hw)
  read_read x v v' e e' hee he he' :=
    (h.inOrder e (hes e he.isSome) e' (hes e' he'.isSome) (hR e e' hee he'.isSome)).read_read
      (.of_eq he he')
  update e o x v w hact := by
    have hreads : G.Reads e x v := (reads_iff hact).mpr rfl
    have hwrites : G.Writes e x w := (writes_iff hact).mpr rfl
    obtain ⟨hlt, hnext⟩ := h.update e (hes e hreads.isSome) (.of_eq hreads hwrites)
    refine ⟨hlt, fun b hb => ?_⟩
    have hmem := hes b hb.isSome
    obtain ⟨u, hu⟩ := hb
    exact hnext b hmem (.of_eq hu hreads)
  visible e x v hread := by
    refine hvisible e (List.mem_filter.mpr ⟨hes e (by rw [hread]; rfl), ?_⟩)
    rw [hread]
    rfl

/-- **An interleaving**: the places of the events extend the order of the program, and every source
comes before its read. -/
theorem Consistent.of_interleaving {es : List (Event T X)} (hes : ∀ e, (G.action e).isSome → e ∈ es)
    (hseq : ∀ a ∈ es, ∀ b ∈ es, SequencedBefore a b → G.time a < G.time b)
    (hsource : ∀ e ∈ es, G.reading e ≠ none → G.time (G.source e) < G.time e)
    (h : G.Coherent (fun a b => G.time a < G.time b) es)
    (hvisible : ∀ e ∈ G.plainReads es, G.HappensBefore rule (G.source e) e) :
    G.Consistent rule := by
  refine of_coherent hes (fun a b hab hb => ?_) (fun a => Nat.lt_irrefl _) h hvisible
  refine time_lt_of_happensBefore (fun a b hb hab => ?_) (fun e x v he => ?_) hab hb
  · exact hseq a (hes a (isSome_of_sequenced hab hb)) b (hes b hb) hab
  · have hread : G.reading e = some (x, v) := he
    exact hsource e (hes e he.isSome) (by rw [hread]; exact Option.some_ne_none _)

/-- Without an acquire that reads from a release there is only the order of the program. -/
theorem sequenced_of_happensBefore (hnot : ∀ a b, ¬ G.SynchronizesWith rule a b)
    (h : G.HappensBefore rule a b) : SequencedBefore a b := by
  have hstep : ∀ {c d},
      SequencedBefore c d ∨ G.SynchronizesWith rule c d → SequencedBefore c d := by
    intro c d hcd
    rcases hcd with hcd | hcd
    · exact hcd
    · exact absurd hcd (hnot c d)
  induction h with
  | single h => exact hstep h
  | tail _ hcd ih => exact ih.trans (hstep hcd)

end Execution

/-! ### The actions of a thread -/

variable {L : Type*}

/-- The actions are those of a thread that starts at `l`, one after the other; `next` is the code of
the thread, with the values that its reads return. -/
def Follows (next : L → Action X V → Option L) : L → List (Action X V) → Prop
  | _, [] => True
  | l, a :: as => ∃ l' ∈ next l a, Follows next l' as

instance Follows.decidable (next : L → Action X V → Option L) :
    ∀ (l : L) (as : List (Action X V)), Decidable (Follows next l as)
  | _, [] => isTrue trivial
  | l, a :: as =>
      have : DecidablePred fun l' => Follows next l' as := fun l' => Follows.decidable next l' as
      inferInstanceAs (Decidable (∃ l' ∈ next l a, Follows next l' as))

/-- What holds at the start of a thread and is kept by each of its actions holds after the last one.
-/
theorem Follows.after {next : L → Action X V → Option L} :
    ∀ (as : List (Action X V)) (l₀ : L) (P : ℕ → L → Prop), Follows next l₀ as → P 0 l₀ →
      (∀ i l act l', P i l → as[i]? = some act → next l act = some l' → P (i + 1) l') →
      ∃ l, P as.length l := by
  intro as
  induction as with
  | nil =>
    intro l₀ P _ h₀ _
    exact ⟨l₀, h₀⟩
  | cons a as ih =>
    intro l₀ P hfollows h₀ hstep
    obtain ⟨l₁, hnext, hrest⟩ := hfollows
    exact ih l₁ (fun j => P (j + 1)) hrest (hstep 0 l₀ a l₁ h₀ rfl hnext)
      fun i => hstep (i + 1)

/-- What holds at the start of a thread and is kept by each of its actions holds before every
action. -/
theorem Follows.before {next : L → Action X V → Option L} :
    ∀ (as : List (Action X V)) (l₀ : L) (P : ℕ → L → Prop), Follows next l₀ as → P 0 l₀ →
      (∀ i l act l', P i l → as[i]? = some act → next l act = some l' → P (i + 1) l') →
      ∀ i act, as[i]? = some act → ∃ l l', P i l ∧ next l act = some l' := by
  intro as
  induction as with
  | nil =>
    intro l₀ P _ _ _ i act hact
    exact nomatch hact
  | cons a as ih =>
    intro l₀ P hfollows h₀ hstep i act hact
    obtain ⟨l₁, hnext, hrest⟩ := hfollows
    cases i with
    | zero =>
      cases hact
      exact ⟨l₀, l₁, h₀, hnext⟩
    | succ i =>
      exact ih l₁ (fun j => P (j + 1)) hrest (hstep 0 l₀ a l₁ h₀ rfl hnext)
        (fun j l b l' hP hb hl => hstep (j + 1) l b l' hP hb hl) i act hact

end MemoryModel
