import ConcurrencyInAction.Lib.MemoryModel

/-!
# Locks made of one atomic location

A lock is a location that is free or taken.  A thread that wants it makes updates that acquire until
one of them has read the free value, and gives it up with a store that releases.

* `Holds`: the thread has taken the lock and has not touched it since;
* `Disciplined`: every access of the lock is of one of the two kinds, and only the holder gives it
  up;
* `Disciplined.released_before`: **the order of the critical sections**.  Of two sections, the
  release of the one happens before the acquisition of the other;
* `Disciplined.raceFree`: there is no race on what is accessed in critical sections only;
* `SoleLock.happensBefore_iff`: **what a lock orders, and nothing else**.  When nothing besides the
  lock synchronizes, what two threads do is ordered only by two sections that come between.
-/

namespace MemoryModel.Execution

variable {T X V : Type*} (G : Execution T X V) (lock : X) (free : V)

/-- The update takes the lock. -/
def Takes (t : T) (a : ℕ) : Prop :=
  ∃ o w, w ≠ free ∧ G.action (.nth t a) = some (.update o lock free w)

/-- The thread has taken the lock at its place `a`, and has not touched it between there and `i`. -/
structure Holds (t : T) (a i : ℕ) : Prop where
  lt : a < i
  takes : G.Takes lock free t a
  untouched : ∀ k, a < k → k < i → ¬ G.Accesses (.nth t k) lock

/-- The store gives up the lock that the thread has taken at its place `a`. -/
def GivesUp (t : T) (a k : ℕ) : Prop :=
  G.Holds lock free t a k ∧ ∃ o, G.action (.nth t k) = some (.store o lock free)

/-- **Lock discipline.** -/
structure Disciplined : Prop where
  acquires : ∀ t i o v w, G.action (.nth t i) = some (.update o lock v w) →
    w ≠ free ∧ G.Does Action.Acquires (.nth t i)
  releases : ∀ t i o v, G.action (.nth t i) = some (.store o lock v) →
    v = free ∧ G.Does Action.Releases (.nth t i) ∧ ∃ a, G.Holds lock free t a i
  atomic : ∀ t i act, G.action (.nth t i) = some act → act.location = lock →
    (∃ o v w, act = .update o lock v w) ∨ ∃ o v, act = .store o lock v

variable {G} {lock : X} {free : V} {rule : Rule} {t u : T} {a b i j k : ℕ}

theorem Takes.modifies (h : G.Takes lock free t a) : G.Modifies (.nth t a) lock := by
  obtain ⟨o, w, -, hact⟩ := h
  exact ⟨w, (writes_iff hact).mpr rfl⟩

/-- A section begins. -/
theorem Holds.of_takes (h : G.Takes lock free t a) : G.Holds lock free t a (a + 1) where
  lt := Nat.lt_succ_self a
  takes := h
  untouched _ hak hka := absurd hak (Nat.not_lt.mpr (Nat.le_of_lt_succ hka))

/-- A section goes on. -/
theorem Holds.step (h : G.Holds lock free t a i) (hnot : ¬ G.Accesses (.nth t i) lock) :
    G.Holds lock free t a (i + 1) where
  lt := Nat.lt_succ_of_lt h.lt
  takes := h.takes
  untouched k hak hki := by
    rcases Nat.lt_succ_iff_lt_or_eq.mp hki with hlt | heq
    · exact h.untouched k hak hlt
    · subst heq
      exact hnot

/-- A section was open before. -/
theorem Holds.before (h : G.Holds lock free t a i) (haj : a < j) (hji : j ≤ i) :
    G.Holds lock free t a j where
  lt := haj
  takes := h.takes
  untouched k hak hkj := h.untouched k hak (Nat.lt_of_lt_of_le hkj hji)

/-- A section is left once. -/
theorem GivesUp.unique (hk : G.GivesUp lock free t a k) (hj : G.GivesUp lock free t a j) :
    k = j := by
  obtain ⟨hheld, o, hact⟩ := hk
  obtain ⟨hheld', o', hact'⟩ := hj
  rcases Nat.lt_trichotomy k j with hlt | heq | hgt
  · exact absurd (Accesses.of_action hact) (hheld'.untouched k hheld.lt hlt)
  · exact heq
  · exact absurd (Accesses.of_action hact') (hheld.untouched j hheld'.lt hgt)

/-- An event of a section that does not touch the lock comes before the end of the section. -/
theorem GivesUp.lt_of_holds (hk : G.GivesUp lock free t a k) (hi : G.Holds lock free t a i)
    (hnot : ¬ G.Accesses (.nth t i) lock) : i < k := by
  obtain ⟨hheld, o, hact⟩ := hk
  rcases Nat.lt_trichotomy i k with hlt | heq | hgt
  · exact hlt
  · subst heq
    exact absurd (Accesses.of_action hact) hnot
  · exact absurd (Accesses.of_action hact) (hi.untouched k hheld.lt hgt)

namespace Disciplined

/-- The lock was free for the one who takes it because it is at its start, or because it has been
given up. -/
theorem source_of_takes (hd : G.Disciplined lock free) (hG : G.Consistent rule)
    (hb : G.Takes lock free u b) :
    G.source (.nth u b) = .init lock ∨ ∃ t a k, G.source (.nth u b) = .nth t k ∧
      G.GivesUp lock free t a k ∧ G.SynchronizesWith rule (.nth t k) (.nth u b) := by
  obtain ⟨o, w, -, hact⟩ := hb
  have hreads : G.Reads (.nth u b) lock free := (reads_iff hact).mpr rfl
  have hsource := hG.reads_from _ _ _ hreads
  cases hs : G.source (.nth u b) with
  | init y =>
    rw [hs] at hsource
    exact .inl (by rw [eq_of_modifies_init ⟨free, hsource⟩])
  | nth t k =>
    right
    rw [hs] at hsource
    obtain ⟨act, hk, hwrite⟩ := hsource.exists_action
    rcases hd.atomic t k act hk (Action.location_of_writing hwrite) with
      ⟨o', v, w', hupdate⟩ | ⟨o', v, hstore⟩
    · -- an update leaves the lock taken
      subst hupdate
      exact absurd (congrArg Prod.snd (Option.some.inj hwrite)) (hd.acquires t k o' v w' hk).1
    · subst hstore
      obtain ⟨hv, hrel, a, ha⟩ := hd.releases t k o' v hk
      subst hv
      exact ⟨t, a, k, rfl, ⟨ha, o', hk⟩,
        .of_source hreads (hd.acquires u b o v w hact).2 hs ⟨v, (writes_iff hk).mpr rfl⟩ hrel⟩

/-- **The order of the critical sections.** -/
theorem released_before (hd : G.Disciplined lock free) (hG : G.Consistent rule)
    (ha : G.Takes lock free t a) (hb : G.Takes lock free u b)
    (hlt : G.time (.nth t a) < G.time (.nth u b)) :
    ∃ k, G.GivesUp lock free t a k ∧ G.HappensBefore rule (.nth t k) (.nth u b) := by
  -- by induction on the place of the second acquisition among the writes of the lock
  obtain ⟨n, hn⟩ : ∃ n, n = G.time (.nth u b) := ⟨_, rfl⟩
  induction n using Nat.strongRecOn generalizing t a u b with
  | ind n ih =>
    obtain ⟨o, w, -, hact⟩ := id hb
    have hbefore : G.time (.nth t a) ≤ G.time (G.source (.nth u b)) := by
      rcases (hG.update _ o lock free w hact).2 _ ha.modifies with hle | hle
      · exact hle
      · exact absurd hle (Nat.not_le.mpr hlt)
    have hafter := (hG.update _ o lock free w hact).1
    rcases hd.source_of_takes hG hb with hs | ⟨t', a', k, hs, hgive, hsync⟩
    · rw [hs] at hbefore
      exact absurd (hG.time_init_lt ha.modifies) (Nat.not_lt.mpr hbefore)
    · rw [hs] at hbefore hafter
      have ha' : G.Takes lock free t' a' := hgive.1.takes
      have hk : G.Modifies (.nth t' k) lock := by
        obtain ⟨-, o', hk⟩ := hgive
        exact ⟨free, (writes_iff hk).mpr rfl⟩
      have hsection : G.HappensBefore rule (.nth t' a') (.nth t' k) :=
        .of_sequenced (sequenced_nth hgive.1.lt)
      have htime := hG.write_write lock _ _ hsection ha'.modifies hk
      rcases Nat.lt_trichotomy (G.time (.nth t a)) (G.time (.nth t' a')) with hlt' | heq | hgt
      · -- the section that was just left comes between the two
        obtain ⟨m, hm, hhb⟩ := ih _ (by omega) ha ha' hlt' rfl
        exact ⟨m, hm, (hhb.trans hsection).trans (.of_synchronizes hsync)⟩
      · have hsame := hG.total lock _ _ ha.modifies ha'.modifies heq
        cases hsame
        exact ⟨k, hgive, .of_synchronizes hsync⟩
      · -- a section between the two would have been left before
        obtain ⟨m, hm, hhb⟩ := ih _ (by omega) ha' ha hgt rfl
        have hmk := hm.unique hgive
        subst hmk
        have := hG.write_write lock _ _ hhb hk ha.modifies
        omega

/-- What is done in a section happens before the sections that take the lock later. -/
theorem happensBefore_takes (hd : G.Disciplined lock free) (hG : G.Consistent rule)
    (hi : G.Holds lock free t a i) (hnot : ¬ G.Accesses (.nth t i) lock)
    (hb : G.Takes lock free u b) (hlt : G.time (.nth t a) < G.time (.nth u b)) :
    G.HappensBefore rule (.nth t i) (.nth u b) := by
  obtain ⟨k, hk, hhb⟩ := hd.released_before hG hi.takes hb hlt
  exact (HappensBefore.of_sequenced (sequenced_nth (hk.lt_of_holds hi hnot))).trans hhb

/-- **What is done in critical sections is ordered.** -/
theorem ordered (hd : G.Disciplined lock free) (hG : G.Consistent rule)
    (hi : G.Holds lock free t a i) (hj : G.Holds lock free u b j)
    (hnot : ¬ G.Accesses (.nth t i) lock)
    (hnot' : ¬ G.Accesses (.nth u j) lock)
    (hne : (Event.nth t i : Event T X) ≠ .nth u j) :
    G.HappensBefore rule (.nth t i) (.nth u j) ∨ G.HappensBefore rule (.nth u j) (.nth t i) := by
  rcases Nat.lt_trichotomy (G.time (.nth t a)) (G.time (.nth u b)) with hlt | heq | hgt
  · exact .inl ((hd.happensBefore_takes hG hi hnot hj.takes hlt).trans
      (.of_sequenced (sequenced_nth hj.lt)))
  · -- one section, one thread
    cases hG.total lock _ _ hi.takes.modifies hj.takes.modifies heq
    rcases Nat.lt_trichotomy i j with hij | hij | hij
    · exact .inl (.of_sequenced (sequenced_nth hij))
    · exact absurd (by rw [hij]) hne
    · exact .inr (.of_sequenced (sequenced_nth hij))
  · exact .inr ((hd.happensBefore_takes hG hj hnot' hi.takes hgt).trans
      (.of_sequenced (sequenced_nth hi.lt)))

/-- **No race on what only holders access.** -/
theorem raceFree (hd : G.Disciplined lock free) (hG : G.Consistent rule) {x : X} (hx : x ≠ lock)
    (hheld : ∀ t i, G.Accesses (.nth t i) x → ∃ a, G.Holds lock free t a i) :
    G.RaceFree rule x := by
  have hnot : ∀ {t i}, G.Accesses (.nth t i) x → ¬ G.Accesses (.nth t i) lock := by
    intro t i hat hlock
    obtain ⟨act, hact, hloc⟩ := hat
    exact hx (hloc.symm.trans (location_of_accesses hact hlock))
  apply RaceFree.of_threads
  intro t i u j hconflict
  obtain ⟨a, ha⟩ := hheld t i hconflict.left
  obtain ⟨b, hb⟩ := hheld u j hconflict.right
  exact hd.ordered hG ha hb (hnot hconflict.left) (hnot hconflict.right) hconflict.ne

end Disciplined

/-! ### When nothing else synchronizes -/

/-- The lock is taken from its free value only, and nothing else releases. -/
structure SoleLock (G : Execution T X V) (lock : X) (free : V) : Prop extends
    G.Disciplined lock free where
  waits : ∀ t i o v w, G.action (.nth t i) = some (.update o lock v w) → o = .acquire ∧ v = free
  sole : ∀ t i, G.Does Action.Releases (.nth t i) → G.Accesses (.nth t i) lock

namespace SoleLock

/-- What releases is the end of a section. -/
theorem exists_givesUp (hl : G.SoleLock lock free) (h : G.Does Action.Releases (.nth t k)) :
    ∃ a, G.GivesUp lock free t a k := by
  obtain ⟨act, hact, hrel⟩ := id h
  have hlock := location_of_accesses hact (hl.sole t k h)
  rcases hl.atomic t k act hact hlock with ⟨o, v, w, he⟩ | ⟨o, v, he⟩
  · subst he
    obtain ⟨ho, -⟩ := hl.waits t k o v w hact
    subst ho
    rcases hrel with hrel | hrel
    · exact nomatch hrel
    · exact nomatch hrel
  · subst he
    obtain ⟨hfree, -, a, ha⟩ := hl.releases t k o v hact
    subst hfree
    exact ⟨a, ha, o, hact⟩

/-- What synchronizes is the end of a section with the begin of a later one. -/
theorem of_synchronizes (hl : G.SoleLock lock free) (hG : G.Consistent rule)
    (h : G.SynchronizesWith rule (.nth t k) (.nth u b)) :
    (∃ a, G.GivesUp lock free t a k) ∧ G.Takes lock free u b ∧
      G.time (.nth t k) < G.time (.nth u b) := by
  obtain ⟨x, v, hreads, -, hseq⟩ := h
  obtain ⟨a, hgive⟩ := hl.exists_givesUp hseq.releases
  have hx : x = lock := by
    obtain ⟨act, v', hact, hw⟩ := hseq.head.exists_action
    exact (Action.location_of_writing hw).symm.trans
      (location_of_accesses hact (hl.sole t k hseq.releases))
  subst hx
  obtain ⟨act, hact, hr⟩ := hreads.exists_action
  rcases hl.atomic u b act hact (Action.location_of_reading hr) with ⟨o, w, w', he⟩ | ⟨o, w, he⟩
  · subst he
    obtain ⟨-, hfree⟩ := hl.waits u b o w w' hact
    subst hfree
    exact ⟨⟨a, hgive⟩, ⟨o, w', (hl.acquires u b o w w' hact).1, hact⟩,
      Nat.lt_of_le_of_lt hseq.le (hG.update _ o x w w' hact).1⟩
  · subst he
    exact nomatch hr

/-- A section of the first thread ends at `i` or later, and then a section of the second one begins
at `j` or before. -/
def Between (G : Execution T X V) (lock : X) (free : V) (t : T) (i : ℕ) (u : T) (j : ℕ) : Prop :=
  ∃ a k b, G.GivesUp lock free t a k ∧ i ≤ k ∧ G.Takes lock free u b ∧ b ≤ j ∧
    G.time (.nth t a) < G.time (.nth u b)

/-- **What the lock orders.** -/
theorem happensBefore_of_between (hl : G.SoleLock lock free) (hG : G.Consistent rule)
    (h : Between G lock free t i u j) : G.HappensBefore rule (.nth t i) (.nth u j) := by
  obtain ⟨a, k, b, hgive, hik, htakes, hbj, hlt⟩ := h
  obtain ⟨k', hgive', hhb⟩ := hl.released_before hG hgive.1.takes htakes hlt
  have hk := hgive'.unique hgive
  subst hk
  have hto : ∀ {j'}, b ≤ j' → G.HappensBefore rule (.nth t k') (.nth u j') := by
    intro j' hbj'
    rcases Nat.lt_or_eq_of_le hbj' with hlt | heq
    · exact hhb.trans (.of_sequenced (sequenced_nth hlt))
    · rw [← heq]
      exact hhb
  rcases Nat.lt_or_eq_of_le hik with hlt | heq
  · exact (HappensBefore.of_sequenced (sequenced_nth hlt)).trans (hto hbj)
  · rw [heq]
    exact hto hbj

theorem time_lt_givesUp (hG : G.Consistent rule) (h : G.GivesUp lock free t a k) :
    G.time (.nth t a) < G.time (.nth t k) := by
  obtain ⟨hheld, o, hact⟩ := h
  exact hG.write_write lock _ _ (.of_sequenced (sequenced_nth hheld.lt)) hheld.takes.modifies
    ⟨free, (writes_iff hact).mpr rfl⟩

/-- By induction on the way: the sections of the threads on it come in between. -/
theorem between_of_happensBefore (hl : G.SoleLock lock free) (hG : G.Consistent rule)
    (h : G.HappensBefore rule (.nth t i) (.nth u j)) :
    (t = u ∧ i < j) ∨ Between G lock free t i u j := by
  obtain ⟨e, he⟩ : ∃ e : Event T X, e = .nth u j := ⟨_, rfl⟩
  rw [← he] at h
  induction h generalizing u j with
  | single h =>
    subst he
    rcases h with h | h
    · exact .inl h
    · obtain ⟨⟨a, hgive⟩, htakes, hlt⟩ := hl.of_synchronizes hG h
      exact .inr ⟨a, i, j, hgive, Nat.le_refl i, htakes, Nat.le_refl j,
        Nat.lt_trans (time_lt_givesUp hG hgive) hlt⟩
  | @tail d e hd hde ih =>
    subst he
    cases d with
    | init x => exact absurd hd not_happensBefore_init
    | nth v k =>
      rcases hde with hde | hde
      · obtain ⟨hvu, hkj⟩ := hde
        subst hvu
        rcases ih rfl with ⟨htv, hik⟩ | ⟨a, k', b, hgive, hik, htakes, hbk, hlt⟩
        · exact .inl ⟨htv, Nat.lt_trans hik hkj⟩
        · exact .inr ⟨a, k', b, hgive, hik, htakes, Nat.le_trans hbk (Nat.le_of_lt hkj), hlt⟩
      · obtain ⟨⟨a', hgive'⟩, htakes', hlt'⟩ := hl.of_synchronizes hG hde
        rcases ih rfl with ⟨htv, hik⟩ | ⟨a, k', b, hgive, hik, htakes, hbk, hlt⟩
        · subst htv
          exact .inr ⟨a', k, j, hgive', Nat.le_of_lt hik, htakes', Nat.le_refl j,
            Nat.lt_trans (time_lt_givesUp hG hgive') hlt'⟩
        · -- the section of the thread in between ends after it has begun
          have hle : G.time (.nth v b) ≤ G.time (.nth v k) := by
            rcases Nat.lt_or_eq_of_le hbk with hbk | hbk
            · obtain ⟨o, hact⟩ := hgive'.2
              exact Nat.le_of_lt (hG.write_write lock _ _ (.of_sequenced (sequenced_nth hbk))
                htakes.modifies ⟨free, (writes_iff hact).mpr rfl⟩)
            · exact Nat.le_of_eq (by rw [hbk])
          exact .inr ⟨a, k', j, hgive, hik, htakes', Nat.le_refl j,
            Nat.lt_trans hlt (Nat.lt_of_le_of_lt hle hlt')⟩

theorem happensBefore_iff (hl : G.SoleLock lock free) (hG : G.Consistent rule) (htu : t ≠ u) :
    G.HappensBefore rule (.nth t i) (.nth u j) ↔ Between G lock free t i u j := by
  constructor
  · intro h
    rcases hl.between_of_happensBefore hG h with ⟨heq, -⟩ | hbetween
    · exact absurd heq htu
    · exact hbetween
  · exact hl.happensBefore_of_between hG

theorem time_le_takes (hG : G.Consistent rule) (ha : G.Takes lock free t a)
    (hb : G.Takes lock free t b) (hab : a ≤ b) : G.time (.nth t a) ≤ G.time (.nth t b) := by
  rcases Nat.lt_or_eq_of_le hab with hlt | heq
  · exact Nat.le_of_lt (hG.write_write lock _ _ (.of_sequenced (sequenced_nth hlt)) ha.modifies
      hb.modifies)
  · exact Nat.le_of_eq (by rw [heq])

/-- **From outside into a section**: through a section that was entered afterwards. -/
theorem outside_before_iff (hl : G.SoleLock lock free) (hG : G.Consistent rule) (htu : t ≠ u)
    (hout : ∀ a, ¬ G.Holds lock free t a i) (hi : ¬ G.Accesses (.nth t i) lock)
    (hheld : G.Holds lock free u b j) (hj : ¬ G.Accesses (.nth u j) lock) :
    G.HappensBefore rule (.nth t i) (.nth u j) ↔
      ∃ c, i < c ∧ G.Takes lock free t c ∧ G.time (.nth t c) < G.time (.nth u b) := by
  rw [hl.happensBefore_iff hG htu]
  constructor
  · intro h
    obtain ⟨a, k, b', hgive, hik, htakes, hbj, hlt⟩ := h
    have hia : i < a := by
      rcases Nat.lt_trichotomy i a with hia | hia | hia
      · exact hia
      · subst hia
        exact absurd hgive.1.takes.modifies.accesses hi
      · exact absurd ⟨hia, hgive.1.takes, fun m ham hmi =>
          hgive.1.untouched m ham (Nat.lt_of_lt_of_le hmi hik)⟩ (hout a)
    have hbb : b' ≤ b := by
      by_contra hbb
      rcases Nat.lt_or_eq_of_le hbj with hlt | heq
      · exact hheld.untouched b' (Nat.lt_of_not_le hbb) hlt htakes.modifies.accesses
      · subst heq
        exact hj htakes.modifies.accesses
    exact ⟨a, hia, hgive.1.takes,
      Nat.lt_of_lt_of_le hlt (time_le_takes hG htakes hheld.takes hbb)⟩
  · intro h
    obtain ⟨c, hic, htakes, hlt⟩ := h
    obtain ⟨k, hgive, -⟩ := hl.released_before hG htakes hheld.takes hlt
    exact ⟨c, k, b, hgive, Nat.le_of_lt (Nat.lt_trans hic hgive.1.lt), hheld.takes,
      Nat.le_of_lt hheld.lt, hlt⟩

/-- **From a section to the outside**: through a section that was entered before. -/
theorem before_outside_iff (hl : G.SoleLock lock free) (hG : G.Consistent rule) (htu : t ≠ u)
    (hi : ¬ G.Accesses (.nth t i) lock) (hheld : G.Holds lock free u b j) :
    G.HappensBefore rule (.nth u j) (.nth t i) ↔
      ∃ c, c < i ∧ G.Takes lock free t c ∧ G.time (.nth u b) < G.time (.nth t c) := by
  rw [hl.happensBefore_iff hG htu.symm]
  constructor
  · intro h
    obtain ⟨a, k, c, hgive, hjk, htakes, hci, hlt⟩ := h
    have hba : b ≤ a := by
      by_contra hba
      exact hgive.1.untouched b (Nat.lt_of_not_le hba) (Nat.lt_of_lt_of_le hheld.lt hjk)
        hheld.takes.modifies.accesses
    refine ⟨c, ?_, htakes, Nat.lt_of_le_of_lt (time_le_takes hG hheld.takes hgive.1.takes hba) hlt⟩
    rcases Nat.lt_or_eq_of_le hci with hlt | heq
    · exact hlt
    · subst heq
      exact absurd htakes.modifies.accesses hi
  · intro h
    obtain ⟨c, hci, htakes, hlt⟩ := h
    obtain ⟨k, hgive, -⟩ := hl.released_before hG hheld.takes htakes hlt
    refine ⟨b, k, c, hgive, ?_, htakes, Nat.le_of_lt hci, hlt⟩
    by_contra hkj
    obtain ⟨o, hact⟩ := hgive.2
    exact hheld.untouched k hgive.1.lt (Nat.lt_of_not_le hkj) (.of_action hact)

end SoleLock

end MemoryModel.Execution
