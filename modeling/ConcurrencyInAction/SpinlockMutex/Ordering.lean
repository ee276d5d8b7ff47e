import ConcurrencyInAction.Lib.LockDiscipline

/-!
# `spinlock_mutex`: what acquire and release are enough for

Any number of threads that guard plain data with one `spinlock_mutex`, on a memory that is only as
strong as the orders in the code ask for.

* `next`: `lock`, with `test_and_set(std::memory_order_acquire)`; what the client does with its data
  while it has the lock; `unlock`, with `clear(std::memory_order_release)`;
* `disciplined`: the flag is used as a lock;
* `spinlock_orders`: there is no data race, the critical sections are ordered, and a read takes the
  value that was written last.
-/

namespace ConcurrencyInAction.SpinlockOrdering

open MemoryModel MemoryModel.Execution

variable {T D W : Type*}

/-- The flag of the mutex, and the data of the client. -/
inductive Location (D : Type*) where
  | flag
  | data (d : D)
  deriving DecidableEq

inductive Value (W : Type*) where
  | flag (isSet : Bool)
  | data (w : W)
  deriving DecidableEq

/-- Where a thread is: outside, in the loop of `lock`, or past `lock`. -/
inductive Point where
  | outside
  | testAndSet
  | locked
  deriving DecidableEq

/-- `lock` and `unlock`, and the client between the two. -/
def next : Point → Action (Location D) (Value W) → Option Point
  | .outside, .update .acquire .flag (.flag isSet) (.flag true) =>
      some (if isSet then .testAndSet else .locked)
  | .testAndSet, .update .acquire .flag (.flag isSet) (.flag true) =>
      some (if isSet then .testAndSet else .locked)
  | .locked, .read (.data _) _ => some .locked
  | .locked, .write (.data _) _ => some .locked
  | .locked, .store .release .flag (.flag false) => some .outside
  | _, _ => none

/-- The executions of such threads; the constructor leaves the flag clear. -/
structure IsExecution (G : Execution T (Location D) (Value W)) : Prop where
  initially : G.initially .flag = .flag false
  follows : ∀ t, Follows next .outside (G.actions t)

variable {G : Execution T (Location D) (Value W)} {rule : Rule} {t u : T} {a b i : ℕ}
  {act : Action (Location D) (Value W)}

/-- The thread has the lock of the mutex since its place `a`. -/
abbrev HasLock (G : Execution T (Location D) (Value W)) (t : T) (a i : ℕ) : Prop :=
  G.Holds .flag (.flag false) t a i

/-- What a thread does. -/
inductive Performs (G : Execution T (Location D) (Value W)) (t : T) (i : ℕ) :
    Action (Location D) (Value W) → Prop
  | testAndSet (isSet : Bool) : Performs G t i (.update .acquire .flag (.flag isSet) (.flag true))
  | read (d : D) (v : Value W) : (∃ a, HasLock G t a i) → Performs G t i (.read (.data d) v)
  | write (d : D) (v : Value W) : (∃ a, HasLock G t a i) → Performs G t i (.write (.data d) v)
  | clear : (∃ a, HasLock G t a i) → Performs G t i (.store .release .flag (.flag false))

/-- Past `lock` the thread has the lock. -/
def Point.Knows (G : Execution T (Location D) (Value W)) (t : T) (i : ℕ) (l : Point) : Prop :=
  l = .locked → ∃ a, HasLock G t a i

theorem knows_of_testAndSet {isSet : Bool}
    (hact : G.action (.nth t i) = some (.update .acquire .flag (.flag isSet) (.flag true))) :
    (if isSet then Point.testAndSet else Point.locked).Knows G t (i + 1) := by
  intro hlocked
  cases isSet with
  | true => exact nomatch hlocked
  | false => exact ⟨i, .of_takes ⟨.acquire, .flag true, nofun, hact⟩⟩

/-- An access of the data leaves the flag alone. -/
theorem knows_of_data {d : D} (hact : G.action (.nth t i) = some act)
    (hloc : act.location = .data d) (h : ∃ a, HasLock G t a i) :
    Point.locked.Knows G t (i + 1) := by
  intro _
  obtain ⟨a, ha⟩ := h
  refine ⟨a, ha.step fun hflag => ?_⟩
  exact nomatch hloc.symm.trans (location_of_accesses hact hflag)

/-- One step of a thread. -/
theorem step_knows {l l' : Point} (hl : l.Knows G t i) (hact : G.action (.nth t i) = some act)
    (h : next l act = some l') : Performs G t i act ∧ l'.Knows G t (i + 1) := by
  unfold next at h
  split at h
  · cases h
    exact ⟨.testAndSet _, knows_of_testAndSet hact⟩
  · cases h
    exact ⟨.testAndSet _, knows_of_testAndSet hact⟩
  · cases h
    exact ⟨.read _ _ (hl rfl), knows_of_data hact rfl (hl rfl)⟩
  · cases h
    exact ⟨.write _ _ (hl rfl), knows_of_data hact rfl (hl rfl)⟩
  · cases h
    exact ⟨.clear (hl rfl), nofun⟩
  · cases h

namespace IsExecution

theorem performs (hG : IsExecution G) (h : G.action (.nth t i) = some act) :
    Performs G t i act := by
  have hstart : Point.outside.Knows G t 0 := nofun
  obtain ⟨l, l', hl, hnext⟩ := (hG.follows t).before _ _ (fun i l => l.Knows G t i) hstart
    (fun i l act l' hl hact hnext => (step_knows hl hact hnext).2) i act h
  exact (step_knows hl h hnext).1

/-- **The flag is used as a lock.** -/
theorem disciplined (hG : IsExecution G) : G.Disciplined .flag (.flag false) where
  acquires t i o v w h := by
    cases hG.performs h with
    | testAndSet isSet => exact ⟨nofun, .of_action h (.inl rfl)⟩
  releases t i o v h := by
    cases hG.performs h with
    | clear hheld => exact ⟨rfl, .of_action h (.inl rfl), hheld⟩
  atomic t i act h hloc := by
    cases hG.performs h with
    | testAndSet isSet => exact .inl ⟨_, _, _, rfl⟩
    | clear hheld => exact .inr ⟨_, _, rfl⟩
    | read d v hheld => exact nomatch hloc
    | write d v hheld => exact nomatch hloc

/-- The data is accessed by those who have the lock, and not atomically. -/
theorem plain (hG : IsExecution G) {d : D} (h : G.action (.nth t i) = some act)
    (hloc : act.location = .data d) : ¬ act.Atomic ∧ ∃ a, HasLock G t a i := by
  cases hG.performs h with
  | testAndSet isSet => exact nomatch hloc
  | clear hheld => exact nomatch hloc
  | read d v hheld => exact ⟨id, hheld⟩
  | write d v hheld => exact ⟨id, hheld⟩

theorem raceFree (hG : IsExecution G) (hc : G.Consistent rule) (x : Location D) :
    G.RaceFree rule x := by
  cases x with
  | flag =>
    refine .of_atomic fun t i act h hloc => ?_
    cases hG.performs h with
    | testAndSet isSet => trivial
    | clear hheld => trivial
    | read d v hheld => exact nomatch hloc
    | write d v hheld => exact nomatch hloc
  | data d =>
    refine hG.disciplined.raceFree hc nofun fun t i h => ?_
    obtain ⟨act, hact, hloc⟩ := h
    exact (hG.plain hact hloc).2

/-- A write of the data is not atomic. -/
theorem plain_of_modifies (hG : IsExecution G) {d : D} {e : Event T (Location D)}
    (h : G.Modifies e (.data d)) : G.Does (fun act => ¬ act.Atomic) e := by
  obtain ⟨act, hact, hloc⟩ := h.accesses
  cases e with
  | init y =>
    cases hact
    exact .of_action rfl id
  | nth t i => exact .of_action hact (hG.plain hact hloc).1

end IsExecution

/-- **Acquire and release are enough.**  There is no data race; of two critical sections one has
been left before the other is entered; and a read of the data takes the value that was written last.
-/
theorem spinlock_orders (hG : IsExecution G) (hc : G.Consistent rule) :
    (∀ x, G.RaceFree rule x) ∧
    (∀ t a u b, G.Takes .flag (.flag false) t a → G.Takes .flag (.flag false) u b →
      (Event.nth t a : Event T (Location D)) ≠ .nth u b →
      (∃ k, G.GivesUp .flag (.flag false) t a k ∧ G.HappensBefore rule (.nth t k) (.nth u b)) ∨
      (∃ k, G.GivesUp .flag (.flag false) u b k ∧ G.HappensBefore rule (.nth u k) (.nth t a))) ∧
    (∀ t i d v, G.action (.nth t i) = some (.read (.data d) v) →
      G.HappensBefore rule (G.source (.nth t i)) (.nth t i) ∧
      ∀ e, G.Modifies e (.data d) → e ≠ G.source (.nth t i) →
        G.HappensBefore rule e (G.source (.nth t i)) ∨ G.HappensBefore rule (.nth t i) e) := by
  refine ⟨hG.raceFree hc, fun t a u b ha hb hne => ?_,
    fun t i d v hread => ⟨?_, fun e he hne => ?_⟩⟩
  · rcases Nat.lt_trichotomy (G.time (.nth t a)) (G.time (.nth u b)) with hlt | heq | hgt
    · exact .inl (hG.disciplined.released_before hc ha hb hlt)
    · exact absurd (hc.total _ _ _ ha.modifies hb.modifies heq) hne
    · exact .inr (hG.disciplined.released_before hc hb ha hgt)
  · exact hc.visible _ _ _ hread
  · exact hc.latest (hG.raceFree hc _) hread he (hG.plain_of_modifies he) hne

/-- The first thread writes while the second one waits in its loop; then the second one reads. -/
def waitingRun : Execution Bool (Location Unit) (Value ℕ) where
  initially
    | .flag => .flag false
    | .data _ => .data 0
  actions
    | false => [.update .acquire .flag (.flag false) (.flag true), .write (.data ()) (.data 7),
        .store .release .flag (.flag false)]
    | true => [.update .acquire .flag (.flag true) (.flag true),
        .update .acquire .flag (.flag false) (.flag true), .read (.data ()) (.data 7)]
  source
    | .nth true 0 => .nth false 0
    | .nth true 1 => .nth false 2
    | .nth true _ => .nth false 1
    | _ => .init .flag
  time
    | .init _ => 0
    | .nth false 0 => 1
    | .nth true 0 => 2
    | .nth false i => i + 2
    | .nth true i => i + 4

theorem isExecution_waitingRun : IsExecution waitingRun where
  initially := rfl
  follows t := by
    cases t <;> decide

theorem consistent_waitingRun : waitingRun.Consistent .cpp20 := by
  have hts : ∀ t : Bool, t ∈ [false, true] := by decide
  have hxs : ∀ x : Location Unit, x ∈ [Location.flag, Location.data ()] := by
    intro x
    cases x with
    | flag => decide
    | data d =>
      cases d
      decide
  refine .of_interleaving (fun e he => mem_events hts hxs he) (by decide) (by decide) (by decide) ?_
  have hlock : waitingRun.action (.nth true 1) =
      some (.update .acquire .flag (.flag false) (.flag true)) := rfl
  have hunlock : waitingRun.action (.nth false 2) =
      some (.store .release .flag (.flag false)) := rfl
  have hsync : waitingRun.SynchronizesWith .cpp20 (.nth false 2) (.nth true 1) :=
    .of_source ((reads_iff hlock).mpr rfl) (.of_action hlock (.inl rfl)) rfl
      ⟨.flag false, (writes_iff hunlock).mpr rfl⟩ (.of_action hunlock (.inl rfl))
  have hreads : waitingRun.plainReads (waitingRun.events [false, true] [.flag, .data ()]) =
      [.nth true 2] := by decide
  intro e he
  rw [hreads, List.mem_singleton] at he
  subst he
  exact publication (sequenced_nth (by decide)) hsync (sequenced_nth (by decide))

theorem spinlock_orders_waitingRun :
    waitingRun.HappensBefore .cpp20 (.nth false 1) (.nth true 2) :=
  ((spinlock_orders isExecution_waitingRun consistent_waitingRun).2.2 true 2 () (.data 7) rfl).1

end ConcurrencyInAction.SpinlockOrdering
