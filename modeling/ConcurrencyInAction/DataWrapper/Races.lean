import ConcurrencyInAction.DataWrapper.Model

/-!
# `DataWrapper`: the pointer that was passed out

* `raceFree_data`: the data are accessed under the mutex, whatever is given to `process_data`;
* `escaped_raceFree_iff`: **when passing out the pointer makes no race**.  Around every
  `unprotected->do_something()`, no other thread passes the pointer out between the last call of
  `process_data` before it and the next one after it;
* `foo_races`: **two threads in `foo`**.  A race is there as soon as both have dereferenced
  `unprotected` and have not called `foo` again.
-/

namespace ConcurrencyInAction.DataWrapper

open MemoryModel MemoryModel.Execution

variable {T D : Type*} {program : T → List Statement} {G : Execution T Location (Value D)}
  {rule : Rule} {t u : T} {a b i j k : ℕ} {act : Action Location (Value D)} {p : Bool}

/-- Whoever passes out the pointer meanwhile is ordered by the mutex: it has been in `process_data`
before the thread was there, or comes after the thread has entered it again. -/
def Undisturbed (G : Execution T Location (Value D)) (t : T) (i : ℕ) : Prop :=
  ∀ u b j, u ≠ t → HasLock G u b j → WritesUnprotected G u j →
    (∃ c, c < i ∧ Enters G t c ∧ G.time (.nth u b) < G.time (.nth t c)) ∨
      ∃ c, i < c ∧ Enters G t c ∧ G.time (.nth t c) < G.time (.nth u b)

namespace IsExecution

theorem raceFree_m (hG : IsExecution program G) : G.RaceFree rule .m := by
  refine .of_atomic fun t i act h hloc => ?_
  cases hG.performs h with
  | lock => trivial
  | unlock hheld => trivial
  | evil hheld => exact nomatch hloc
  | readData d hheld => exact nomatch hloc
  | writeData d hheld => exact nomatch hloc
  | doSomething p rest hout hbegun => exact nomatch hloc

theorem raceFree_data (hG : IsExecution program G) (hc : G.Consistent rule) :
    G.RaceFree rule .data := by
  refine hG.soleLock.raceFree hc nofun fun t i hat => ?_
  obtain ⟨act, hact, hloc⟩ := hat
  cases hG.performs hact with
  | readData d hheld => exact hheld
  | writeData d hheld => exact hheld
  | lock => exact nomatch hloc
  | unlock hheld => exact nomatch hloc
  | evil hheld => exact nomatch hloc
  | doSomething p rest hout hbegun => exact nomatch hloc

/-- What modifies the pointer. -/
theorem modifies_unprotected (hG : IsExecution program G)
    (h : G.Modifies (.nth t i) .unprotected) :
    WritesUnprotected G t i ∧ ∃ a, HasLock G t a i := by
  obtain ⟨act, v, hact, hw⟩ := h.exists_action
  cases hG.performs hact with
  | evil hheld => exact ⟨hact, hheld⟩
  | lock => exact nomatch hw
  | unlock hheld => exact nomatch hw
  | readData d hheld => exact nomatch hw
  | writeData d hheld => exact nomatch hw
  | doSomething p rest hout hbegun => exact nomatch hw

/-- What accesses it. -/
theorem accesses_unprotected (hG : IsExecution program G)
    (h : G.Accesses (.nth t i) .unprotected) :
    (WritesUnprotected G t i ∧ ∃ a, HasLock G t a i) ∨
      ∃ p, ReadsUnprotected G t i p ∧ ∀ a, ¬ HasLock G t a i := by
  obtain ⟨act, hact, hloc⟩ := h
  cases hG.performs hact with
  | evil hheld => exact .inl ⟨hact, hheld⟩
  | doSomething p rest hout hbegun => exact .inr ⟨p, hact, hout⟩
  | lock => exact nomatch hloc
  | unlock hheld => exact nomatch hloc
  | readData d hheld => exact nomatch hloc
  | writeData d hheld => exact nomatch hloc

theorem outside (hG : IsExecution program G) (h : ReadsUnprotected G t i p) (a : ℕ) :
    ¬ HasLock G t a i := by
  cases hG.performs h with
  | doSomething p rest hout hbegun => exact hout a

/-- A dereference and a write of another thread are ordered by the sections around them. -/
theorem ordered_iff (hG : IsExecution program G) (hc : G.Consistent rule) (hne : u ≠ t)
    (hread : ReadsUnprotected G t i p) (hheld : HasLock G u b j)
    (hwrite : WritesUnprotected G u j) :
    (G.HappensBefore rule (.nth u j) (.nth t i) ∨ G.HappensBefore rule (.nth t i) (.nth u j)) ↔
      (∃ c, c < i ∧ Enters G t c ∧ G.time (.nth u b) < G.time (.nth t c)) ∨
        ∃ c, i < c ∧ Enters G t c ∧ G.time (.nth t c) < G.time (.nth u b) := by
  have hi := not_accesses_m hread nofun
  have hj := not_accesses_m hwrite nofun
  rw [hG.soleLock.before_outside_iff hc hne.symm hi hheld,
    hG.soleLock.outside_before_iff hc hne.symm (hG.outside hread) hi hheld hj]

/-- A read and a write of the pointer. -/
theorem ordered_of_undisturbed (hG : IsExecution program G) (hc : G.Consistent rule)
    (hread : ReadsUnprotected G t i p) (h : Undisturbed G t i)
    (hwrite : WritesUnprotected G u j) (hheld : HasLock G u b j) :
    G.HappensBefore rule (.nth u j) (.nth t i) ∨ G.HappensBefore rule (.nth t i) (.nth u j) := by
  by_cases hne : u = t
  · subst hne
    rcases Nat.lt_trichotomy i j with hij | hij | hij
    · exact .inr (.of_sequenced (sequenced_nth hij))
    · subst hij
      exact nomatch hread.symm.trans hwrite
    · exact .inl (.of_sequenced (sequenced_nth hij))
  · exact (hG.ordered_iff hc hne hread hheld hwrite).mpr (h u b j hne hheld hwrite)

theorem raceFree_unprotected (hG : IsExecution program G) (hc : G.Consistent rule)
    (h : ∀ t i p, ReadsUnprotected G t i p → Undisturbed G t i) :
    G.RaceFree rule .unprotected := by
  apply RaceFree.of_threads
  intro t i u j hconflict
  rcases hG.accesses_unprotected hconflict.left with ⟨hwrite, a, ha⟩ | ⟨p, hread, -⟩
  · rcases hG.accesses_unprotected hconflict.right with ⟨hwrite', b, hb⟩ | ⟨p, hread, -⟩
    · exact hG.soleLock.ordered hc ha hb (not_accesses_m hwrite nofun)
        (not_accesses_m hwrite' nofun) hconflict.ne
    · exact hG.ordered_of_undisturbed hc hread (h u j p hread) hwrite ha
  · rcases hconflict.writes with hw | hw
    · exact nomatch hread.symm.trans (hG.modifies_unprotected hw).1
    · obtain ⟨hwrite, b, hb⟩ := hG.modifies_unprotected hw
      exact (hG.ordered_of_undisturbed hc hread (h t i p hread) hwrite hb).symm

theorem undisturbed_of_raceFree (hG : IsExecution program G) (hc : G.Consistent rule)
    (h : G.RaceFree rule .unprotected) (hread : ReadsUnprotected G t i p) : Undisturbed G t i := by
  intro u b j hne hheld hwrite
  have hevents : (Event.nth u j : Event T Location) ≠ .nth t i := by
    intro he
    cases he
    exact hne rfl
  have hconflict : G.Conflict .unprotected (.nth u j) (.nth t i) :=
    ⟨hevents, .of_action hwrite, .of_action hread, .inl ⟨_, (writes_iff hwrite).mpr rfl⟩,
      .inl (.of_action hwrite id)⟩
  exact (hG.ordered_iff hc hne hread hheld hwrite).mp (h _ _ hconflict)

end IsExecution

/-- **The pointer that was passed out.**  The races are on the pointer; the data have none. -/
theorem escaped_raceFree_iff (hG : IsExecution program G) (hc : G.Consistent rule) :
    ((∀ x, G.RaceFree rule x) ↔ ∀ t i p, ReadsUnprotected G t i p → Undisturbed G t i) ∧
      G.RaceFree rule .data := by
  refine ⟨⟨?_, ?_⟩, hG.raceFree_data hc⟩
  · intro hfree t i p hread
    exact hG.undisturbed_of_raceFree hc (hfree .unprotected) hread
  · intro h x
    cases x with
    | m => exact hG.raceFree_m
    | data => exact hG.raceFree_data hc
    | unprotected => exact hG.raceFree_unprotected hc h

theorem Location.mem_all (x : Location) :
    x ∈ [Location.m, Location.data, Location.unprotected] := by
  cases x <;> decide

/-- One thread passes the pointer out before another one does and dereferences it. -/
def handedOver : Execution Bool Location (Value ℕ) where
  initially
    | .m => .held false
    | .data => .someData 0
    | .unprotected => .pointer false
  actions
    | false => [.update .acquire .m (.held false) (.held true), .write .unprotected (.pointer true),
        .store .release .m (.held false)]
    | true => [.update .acquire .m (.held false) (.held true), .write .unprotected (.pointer true),
        .store .release .m (.held false), .read .unprotected (.pointer true)]
  source
    | .nth false _ => .init .m
    | .nth true 0 => .nth false 2
    | _ => .nth true 1
  time
    | .init _ => 0
    | .nth false i => i + 1
    | .nth true i => i + 4

/-- What the threads execute. -/
def handedOverProgram : Bool → List Statement
  | false => [.processData .evilFunction]
  | true => [.processData .evilFunction, .doSomething]

theorem isExecution_handedOver : IsExecution handedOverProgram handedOver where
  mutex := rfl
  pointer := rfl
  follows t := by
    cases t <;> decide

theorem consistent_handedOver : handedOver.Consistent .cpp20 := by
  have hts : ∀ t : Bool, t ∈ [false, true] := by decide
  have hreads : handedOver.plainReads
      (handedOver.events [false, true] [.m, .data, .unprotected]) = [.nth true 3] := by decide
  refine .of_interleaving (fun e he => mem_events hts Location.mem_all he)
    (by decide) (by decide) (by decide) fun e he => ?_
  rw [hreads] at he
  obtain rfl := List.mem_singleton.mp he
  exact .of_sequenced (sequenced_nth (by decide))

/-- The only dereference. -/
theorem reads_handedOver {t : Bool} (h : ReadsUnprotected handedOver t i p) :
    t = true ∧ i = 3 := by
  have hmem := List.mem_of_getElem? h
  cases t with
  | false => cases p <;> exact absurd hmem (by decide)
  | true =>
    match i, h with
    | 3, _ => exact ⟨rfl, rfl⟩
    | 0, h | 1, h | 2, h | _ + 4, h => exact nomatch h

/-- The only call of the other thread. -/
theorem enters_handedOver (h : Enters handedOver false b) : b = 0 := by
  obtain ⟨o, w, -, hact⟩ := h
  match b, hact with
  | 0, _ => rfl
  | 1, h | 2, h | _ + 3, h => exact nomatch h

theorem escaped_raceFree_iff_handedOver :
    handedOver.RaceFree .cpp20 .unprotected ∧ handedOver.RaceFree .cpp20 .data := by
  obtain ⟨hiff, hdata⟩ := escaped_raceFree_iff isExecution_handedOver consistent_handedOver
  refine ⟨hiff.mpr (fun t i p hread u b j hne hheld hwrite => ?_) .unprotected, hdata⟩
  obtain ⟨ht, hi⟩ := reads_handedOver hread
  subst ht
  subst hi
  cases u with
  | true => exact absurd rfl hne
  | false =>
    have hb := enters_handedOver hheld.takes
    subst hb
    exact .inl ⟨0, by decide, ⟨.acquire, .held true, nofun, rfl⟩, by decide⟩

/-! ### Calls of `foo` -/

/-- Every thread calls `foo` so many times. -/
def fooCalls (calls : T → ℕ) (t : T) : List Statement := (List.replicate (calls t) foo).flatten

theorem not_other_mem_fooCalls (calls : T → ℕ) (t : T) :
    .processData .other ∉ fooCalls calls t := by
  intro hmem
  obtain ⟨l, hl, hother⟩ := List.mem_flatten.mp hmem
  rw [List.eq_of_mem_replicate hl] at hother
  exact absurd hother (by decide)

/-- The first thing that is done is a call of `process_data`. -/
theorem fooCalls_ne {calls : T → ℕ} {n : ℕ} {rest : List Statement} :
    fooCalls calls t ≠ List.replicate n .doSomething ++ .doSomething :: rest := by
  intro he
  have hhead := congrArg List.head? he
  rw [fooCalls] at hhead
  cases hcalls : calls t with
  | zero =>
    rw [hcalls] at hhead
    cases n <;> exact nomatch hhead
  | succ k =>
    rw [hcalls, List.replicate_succ, List.flatten_cons] at hhead
    cases n <;> exact nomatch hhead

namespace IsExecution

variable {calls : T → ℕ}

/-- A dereference comes after a call that has passed out the pointer, the last one before it. -/
theorem exists_lastCall (hG : IsExecution (fooCalls calls) G) (hread : ReadsUnprotected G t i p) :
    ∃ a j, HasLock G t a j ∧ WritesUnprotected G t j ∧ j < i ∧
      ∀ c, c < i → Enters G t c → c ≤ a := by
  cases hG.performs hread with
  | doSomething p rest hout hbegun =>
    rcases hbegun with ⟨a, ha⟩ | ⟨n, hn⟩
    · rcases ha.leaked with ⟨j, hheld, hwrites, hji⟩ | hother
      · exact ⟨a, j, hheld, hwrites, hji, ha.last⟩
      · exact absurd hother (not_other_mem_fooCalls calls t)
    · exact absurd hn fooCalls_ne

/-- The pointer is not null there. -/
theorem toData_of_read (hG : IsExecution (fooCalls calls) G) (hc : G.Consistent rule)
    (hread : ReadsUnprotected G t i p) : p = true := by
  obtain ⟨a, j, -, hwrite, hji, -⟩ := hG.exists_lastCall hread
  have hmodifies : G.Modifies (.nth t j) .unprotected := ⟨_, (writes_iff hwrite).mpr rfl⟩
  have hreads := (reads_iff hread).mpr rfl
  have hle := hc.write_read _ _ _ _ (.of_sequenced (sequenced_nth hji)) hmodifies hreads
  have hwrites := hc.reads_from _ _ _ hreads
  cases hs : G.source (.nth t i) with
  | init x =>
    rw [hs] at hle hwrites
    have hx := eq_of_modifies_init ⟨_, hwrites⟩
    subst hx
    exact absurd (hc.time_init_lt hmodifies) (Nat.not_lt.mpr hle)
  | nth u k =>
    rw [hs] at hwrites
    obtain ⟨hact, -⟩ := hG.modifies_unprotected ⟨_, hwrites⟩
    rw [writes_iff hact] at hwrites
    exact (Value.pointer.inj (congrArg Prod.snd (Option.some.inj hwrites))).symm

end IsExecution

/-- The thread that was in `process_data` later has written the pointer after the other one was
there for the last time. -/
theorem not_undisturbed_of_lt (hc : G.Consistent rule) (hne : u ≠ t)
    (hlast : ∀ c, c < i → Enters G t c → c ≤ a) (hnever : ∀ c, i < c → ¬ Enters G t c)
    (henters : Enters G t a) (hheld : HasLock G u b j) (hwrite : WritesUnprotected G u j)
    (hlt : G.time (.nth t a) < G.time (.nth u b)) : ¬ Undisturbed G t i := by
  intro h
  rcases h u b j hne hheld hwrite with ⟨c, hci, hc', hlt'⟩ | ⟨c, hic, hc', -⟩
  · have := SoleLock.time_le_takes hc hc' henters (hlast c hci hc')
    omega
  · exact hnever c hic hc'

/-- **Two threads in `foo`.** -/
theorem foo_races {calls : T → ℕ} (hG : IsExecution (fooCalls calls) G) (hc : G.Consistent rule) :
    (∀ t i p, ReadsUnprotected G t i p → p = true) ∧
    ∀ t i p u j q, t ≠ u → ReadsUnprotected G t i p → ReadsUnprotected G u j q →
      (∀ c, i < c → ¬ Enters G t c) → (∀ c, j < c → ¬ Enters G u c) →
      ¬ G.RaceFree rule .unprotected := by
  refine ⟨fun t i p hread => hG.toData_of_read hc hread,
    fun t i p u j q htu hread hread' hnever hnever' hfree => ?_⟩
  have ht := hG.undisturbed_of_raceFree hc hfree hread
  have hu := hG.undisturbed_of_raceFree hc hfree hread'
  obtain ⟨a, k, hheld, hwrite, -, hlast⟩ := hG.exists_lastCall hread
  obtain ⟨b, k', hheld', hwrite', -, hlast'⟩ := hG.exists_lastCall hread'
  rcases Nat.lt_trichotomy (G.time (.nth t a)) (G.time (.nth u b)) with hlt | heq | hgt
  · exact not_undisturbed_of_lt hc htu.symm hlast hnever hheld.takes hheld' hwrite' hlt ht
  · cases hc.total _ _ _ hheld.takes.modifies hheld'.takes.modifies heq
    exact htu rfl
  · exact not_undisturbed_of_lt hc htu hlast' hnever' hheld'.takes hheld hwrite hgt hu

/-- One thread executes `foo` after the other one. -/
def oneAfterTheOther : Execution Bool Location (Value ℕ) where
  initially
    | .m => .held false
    | .data => .someData 0
    | .unprotected => .pointer false
  actions _ :=
    [.update .acquire .m (.held false) (.held true), .write .unprotected (.pointer true),
      .store .release .m (.held false), .update .acquire .m (.held false) (.held true),
      .write .unprotected (.pointer true), .store .release .m (.held false),
      .read .unprotected (.pointer true)]
  source
    | .nth false 0 => .init .m
    | .nth true 0 => .nth false 5
    | .nth t 3 => .nth t 2
    | .nth t _ => .nth t 4
    | .init x => .init x
  time
    | .init _ => 0
    | .nth false i => i + 1
    | .nth true i => i + 8

theorem isExecution_oneAfterTheOther :
    IsExecution (fooCalls fun _ : Bool => 1) oneAfterTheOther where
  mutex := rfl
  pointer := rfl
  follows t := by
    cases t <;> decide

theorem consistent_oneAfterTheOther : oneAfterTheOther.Consistent .cpp20 := by
  have hts : ∀ t : Bool, t ∈ [false, true] := by decide
  have hreads : oneAfterTheOther.plainReads
      (oneAfterTheOther.events [false, true] [.m, .data, .unprotected]) =
        [.nth false 6, .nth true 6] := by decide
  refine .of_interleaving (fun e he => mem_events hts Location.mem_all he)
    (by decide) (by decide) (by decide) fun e he => ?_
  rw [hreads] at he
  simp only [List.mem_cons, List.not_mem_nil, or_false] at he
  rcases he with he | he
  · subst he
    exact .of_sequenced (sequenced_nth (by decide))
  · subst he
    exact .of_sequenced (sequenced_nth (by decide))

theorem not_enters_oneAfterTheOther {t : Bool} (c : ℕ) (hc : 6 < c) :
    ¬ Enters oneAfterTheOther t c := by
  intro h
  obtain ⟨o, w, -, hact⟩ := h
  have hlt : c < 7 := (List.getElem?_eq_some_iff.mp hact).1
  omega

theorem foo_races_oneAfterTheOther : ¬ oneAfterTheOther.RaceFree .cpp20 .unprotected :=
  (foo_races isExecution_oneAfterTheOther consistent_oneAfterTheOther).2 false 6 true true 6 true
    nofun rfl rfl not_enters_oneAfterTheOther not_enters_oneAfterTheOther

end ConcurrencyInAction.DataWrapper
