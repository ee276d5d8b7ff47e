import ConcurrencyInAction.ReleaseSequenceExample.Model

/-!
# The assertion of the consumer

* `modifies_atomicVar`, `modifies_data`, `releases_eq`: the writes and the release of an execution;
* `synchronizes_cpp11`, `synchronizes_cpp20`: the loads that the release store synchronizes with;
* `assertion_holds`: under the rule of C++11 there is no race and the assertion holds;
* `raceFree_iff`: under the rule of C++20 there is no race exactly when the loop does not end with
  the value of the relaxed store.
-/

namespace ConcurrencyInAction.ReleaseSequenceExample

open MemoryModel MemoryModel.Execution

variable {G : Execution Thread Location ℤ} {rule : Rule} {e : Event Thread Location} {i j : ℕ}
  {v w : ℤ}

/-! ### The events of an execution -/

namespace IsExecution

/-- `atomic_var` is written by its initialization and by the last three statements of the
producer. -/
theorem modifies_atomicVar (hG : IsExecution G) (h : G.Modifies e .atomicVar) :
    e = .init .atomicVar ∨ ∃ i, e = .nth .producer i ∧ 1 ≤ i := by
  cases e with
  | init x =>
    have hx := eq_of_modifies_init h
    subst hx
    exact .inl rfl
  | nth t i =>
    obtain ⟨act, v, hact, hw⟩ := h.exists_action
    cases t with
    | producer =>
      refine .inr ⟨i, rfl, ?_⟩
      rcases hG.producer_action hact with ⟨-, ha⟩ | ⟨hi, -⟩ | ⟨hi, -⟩ | ⟨hi, -⟩
      · subst ha
        exact nomatch hw
      · omega
      · omega
      · omega
    | consumer =>
      rcases hG.consumer_action hact with ⟨u, ha, -⟩ | ⟨u, ha, -⟩
      · subst ha
        exact nomatch hw
      · subst ha
        exact nomatch hw

/-- `data` is written by its initialization and by the first statement of the producer. -/
theorem modifies_data (hG : IsExecution G) (h : G.Modifies e .data) :
    e = .init .data ∨ e = .nth .producer 0 := by
  cases e with
  | init x =>
    have hx := eq_of_modifies_init h
    subst hx
    exact .inl rfl
  | nth t i =>
    obtain ⟨act, v, hact, hw⟩ := h.exists_action
    cases t with
    | producer =>
      rcases hG.producer_action hact with ⟨hi, -⟩ | ⟨-, ha⟩ | ⟨-, u, ha⟩ | ⟨-, ha⟩
      · subst hi
        exact .inr rfl
      · subst ha
        exact nomatch hw
      · subst ha
        exact nomatch hw
      · subst ha
        exact nomatch hw
    | consumer =>
      rcases hG.consumer_action hact with ⟨u, ha, -⟩ | ⟨u, ha, -⟩
      · subst ha
        exact nomatch hw
      · subst ha
        exact nomatch hw

/-- There is one release. -/
theorem releases_eq (hG : IsExecution G) (h : G.Does Action.Releases e) :
    e = .nth .producer 1 := by
  obtain ⟨act, hact, hrel⟩ := h
  cases e with
  | init x =>
    cases hact
    exact hrel.elim
  | nth t i =>
    cases t with
    | producer =>
      rcases hG.producer_action hact with ⟨-, ha⟩ | ⟨hi, -⟩ | ⟨-, u, ha⟩ | ⟨-, ha⟩
      · subst ha
        exact hrel.elim
      · rw [hi]
      · subst ha
        simp [Action.Releases] at hrel
      · subst ha
        simp [Action.Releases] at hrel
    | consumer =>
      rcases hG.consumer_action hact with ⟨u, ha, -⟩ | ⟨u, ha, -⟩
      · subst ha
        exact hrel.elim
      · subst ha
        exact hrel.elim

/-- The statements of the producer up to one that has been made. -/
theorem producer_isSome {act : Action Location ℤ} (hj : G.action (.nth .producer j) = some act)
    (hij : i ≤ j) : ∃ act', G.action (.nth .producer i) = some act' := by
  have hlen : j < (G.actions .producer).length := isSome_action_nth.mp (by rw [hj]; rfl)
  exact Option.isSome_iff_exists.mp (isSome_action_nth.mpr (by omega))

theorem assigns (hG : IsExecution G) {act : Action Location ℤ}
    (hj : G.action (.nth .producer j) = some act) :
    G.action (.nth .producer 0) = some (.write .data 42) := by
  obtain ⟨act', h⟩ := producer_isSome hj (Nat.zero_le j)
  rcases hG.producer_action h with ⟨-, ha⟩ | ⟨hi, -⟩ | ⟨hi, -⟩ | ⟨hi, -⟩
  · rw [h, ha]
  · omega
  · omega
  · omega

theorem stores (hG : IsExecution G) {act : Action Location ℤ}
    (hj : G.action (.nth .producer j) = some act) (h1 : 1 ≤ j) :
    G.action (.nth .producer 1) = some (.store .release .atomicVar 1) := by
  obtain ⟨act', h⟩ := producer_isSome hj h1
  rcases hG.producer_action h with ⟨hi, -⟩ | ⟨-, ha⟩ | ⟨hi, -⟩ | ⟨hi, -⟩
  · omega
  · rw [h, ha]
  · omega
  · omega

/-! ### The release sequence -/

/-- The load that ends the loop takes the value of one of the last three statements of the
producer. -/
theorem source_of_load (hG : IsExecution G) (hc : G.Consistent rule)
    (hload : G.action (.nth .consumer j) = some (.load .acquire .atomicVar w)) (hw : 1 ≤ w) :
    ∃ i, G.source (.nth .consumer j) = .nth .producer i ∧ 1 ≤ i ∧
      G.Modifies (.nth .producer i) .atomicVar := by
  have hwrites := hc.reads_from _ _ _ ((reads_iff hload).mpr rfl)
  have hmod : G.Modifies (G.source (.nth .consumer j)) .atomicVar := ⟨w, hwrites⟩
  rcases hG.modifies_atomicVar hmod with hs | ⟨i, hs, hi⟩
  · -- the initial value does not end the loop
    rw [hs] at hwrites
    have hzero : G.initially .atomicVar = w := congrArg Prod.snd (Option.some.inj hwrites)
    rw [hG.initially] at hzero
    omega
  · rw [hs] at hmod
    exact ⟨i, hs, hi, hmod⟩

/-- The writes from the release store on are the producer's. -/
theorem eq_of_time_lt (hG : IsExecution G) (hc : G.Consistent rule)
    (hmod : G.Modifies (.nth .producer 1) .atomicVar) (he : G.Modifies e .atomicVar)
    (hlt : G.time (.nth .producer 1) < G.time e) : ∃ i, e = .nth .producer i ∧ 1 < i := by
  rcases hG.modifies_atomicVar he with hs | ⟨i, hs, hi⟩
  · subst hs
    have := hc.time_init_lt hmod
    omega
  · subst hs
    refine ⟨i, rfl, ?_⟩
    rcases Nat.lt_or_eq_of_le hi with hlt' | heq
    · exact hlt'
    · subst heq
      exact absurd hlt (Nat.lt_irrefl _)

/-- The places of the producer's writes are in the order of its program. -/
theorem time_lt (hc : G.Consistent rule) {x : Location} (hi : G.Modifies (.nth .producer i) x)
    (hj : G.Modifies (.nth .producer j) x) (hij : i < j) :
    G.time (.nth .producer i) < G.time (.nth .producer j) :=
  hc.write_write x _ _ (.of_sequenced (sequenced_nth hij)) hi hj

theorem modifies_of_le (hG : IsExecution G) (hi : 1 ≤ i)
    (hmod : G.Modifies (.nth .producer i) .atomicVar) :
    G.Modifies (.nth .producer 1) .atomicVar ∧ G.Does Action.Releases (.nth .producer 1) := by
  obtain ⟨act, v, hact, -⟩ := hmod.exists_action
  have hstore := hG.stores hact hi
  exact ⟨⟨1, (writes_iff hstore).mpr rfl⟩, .of_action hstore (.inl rfl)⟩

/-- **C++11.**  The release store synchronizes with every load that ends the loop. -/
theorem synchronizes_cpp11 (hG : IsExecution G) (hc : G.Consistent .cpp11)
    (hload : G.action (.nth .consumer j) = some (.load .acquire .atomicVar w)) (hw : 1 ≤ w) :
    G.SynchronizesWith .cpp11 (.nth .producer 1) (.nth .consumer j) := by
  obtain ⟨i, hs, hi, hmod⟩ := hG.source_of_load hc hload hw
  obtain ⟨hmod₁, hrel⟩ := hG.modifies_of_le hi hmod
  refine ⟨.atomicVar, w, (reads_iff hload).mpr rfl, .of_action hload (.inl rfl), ?_⟩
  rw [hs]
  refine ⟨hmod₁, hrel, hmod, ?_, fun b hb hlt _ => .inr ⟨rfl, ?_⟩⟩
  · rcases Nat.lt_or_eq_of_le hi with hlt | heq
    · exact Nat.le_of_lt (time_lt hc hmod₁ hmod hlt)
    · subst heq
      exact Nat.le_refl _
  · obtain ⟨k, hk, -⟩ := hG.eq_of_time_lt hc hmod₁ hb hlt
    subst hk
    rfl

/-- **C++20.**  The release store synchronizes with a load that ends the loop exactly when the load
does not take the value of the relaxed store. -/
theorem synchronizes_cpp20 (hG : IsExecution G) (hc : G.Consistent .cpp20)
    (hload : G.action (.nth .consumer j) = some (.load .acquire .atomicVar w)) (hw : 1 ≤ w) :
    G.SynchronizesWith .cpp20 (.nth .producer 1) (.nth .consumer j) ↔
      G.source (.nth .consumer j) ≠ .nth .producer 3 := by
  obtain ⟨i, hs, hi, hmod⟩ := hG.source_of_load hc hload hw
  obtain ⟨hmod₁, hrel⟩ := hG.modifies_of_le hi hmod
  constructor
  · intro hsync heq
    obtain ⟨x, u, hreads, -, hseq⟩ := hsync
    have hx : x = .atomicVar := by
      have hread := (reads_iff hload).mp hreads
      exact (congrArg Prod.fst (Option.some.inj hread)).symm
    subst hx
    rw [heq] at hseq
    have hlt := time_lt hc hmod₁ hseq.modifies (by decide)
    rcases hseq.between _ hseq.modifies hlt (Nat.le_refl _) with hupdate | ⟨hrule, -⟩
    · -- the relaxed store is not an update
      obtain ⟨act, hact, hup⟩ := hupdate
      rcases hG.producer_action hact with ⟨hi, -⟩ | ⟨hi, -⟩ | ⟨hi, -⟩ | ⟨-, ha⟩
      · omega
      · omega
      · omega
      · subst ha
        exact hup.elim
    · exact nomatch hrule
  · intro hne
    refine ⟨.atomicVar, w, (reads_iff hload).mpr rfl, .of_action hload (.inl rfl), ?_⟩
    rw [hs] at hne ⊢
    refine ⟨hmod₁, hrel, hmod, ?_, fun b hb hlt hle => ?_⟩
    · rcases Nat.lt_or_eq_of_le hi with hlt | heq
      · exact Nat.le_of_lt (time_lt hc hmod₁ hmod hlt)
      · subst heq
        exact Nat.le_refl _
    · obtain ⟨k, hk, hk1⟩ := hG.eq_of_time_lt hc hmod₁ hb hlt
      subst hk
      have hki : k ≤ i := by
        rcases Nat.lt_or_ge i k with hik | hik
        · exact absurd (time_lt hc hmod hb hik) (Nat.not_lt.mpr hle)
        · exact hik
      obtain ⟨act, u, hact, -⟩ := hmod.exists_action
      obtain ⟨act', u', hact', -⟩ := hb.exists_action
      -- between the release store and the value that was read there is only `fetch_add`
      rcases hG.producer_action hact' with ⟨hk0, -⟩ | ⟨hk1', -⟩ | ⟨-, u, ha⟩ | ⟨hk3, -⟩
      · omega
      · omega
      · subst ha
        exact .inl (.of_action hact' trivial)
      · rcases hG.producer_action hact with ⟨hi', -⟩ | ⟨hi', -⟩ | ⟨hi', -⟩ | ⟨hi', -⟩
        · omega
        · omega
        · omega
        · subst hi'
          exact absurd rfl hne

/-- `fetch_add` adds to the value of the release store. -/
theorem fetchAdd_reads (hG : IsExecution G) (hc : G.Consistent rule)
    (h : G.action (.nth .producer 2) = some (.update .relaxed .atomicVar v w)) : v = 1 := by
  have hstore := hG.stores h (by decide)
  have hmod₁ : G.Modifies (.nth .producer 1) .atomicVar := ⟨1, (writes_iff hstore).mpr rfl⟩
  have hmod₂ : G.Modifies (.nth .producer 2) .atomicVar := ⟨w, (writes_iff h).mpr rfl⟩
  have hlt := time_lt hc hmod₁ hmod₂ (by decide)
  obtain ⟨hbefore, hnext⟩ := hc.update _ _ _ _ _ h
  have hwrites := hc.reads_from _ _ _ ((reads_iff h).mpr rfl)
  have hsource : G.Modifies (G.source (.nth .producer 2)) .atomicVar := ⟨v, hwrites⟩
  have hle : G.time (.nth .producer 1) ≤ G.time (G.source (.nth .producer 2)) := by
    rcases hnext _ hmod₁ with hle | hle
    · exact hle
    · exact absurd hle (Nat.not_le.mpr hlt)
  have hs : G.source (.nth .producer 2) = .nth .producer 1 := by
    rcases Nat.lt_or_eq_of_le hle with hlt' | heq
    · -- no write of the producer lies between the two
      obtain ⟨k, hk, hk1⟩ := hG.eq_of_time_lt hc hmod₁ hsource hlt'
      rw [hk] at hsource hbefore
      rcases Nat.lt_or_eq_of_le hk1 with hk2 | hk2
      · have := time_lt hc hmod₂ hsource hk2
        omega
      · rw [← hk2] at hbefore
        exact absurd hbefore (Nat.lt_irrefl _)
    · exact (hc.total _ _ _ hmod₁ hsource heq).symm
  rw [hs, writes_iff hstore] at hwrites
  exact (congrArg Prod.snd (Option.some.inj hwrites)).symm

/-- What the producer writes to the atomic variable ends the loop. -/
theorem one_le_of_writes (hG : IsExecution G) (hc : G.Consistent rule)
    (h : G.Writes (.nth .producer i) .atomicVar w) : 1 ≤ w := by
  obtain ⟨act, hact, hw⟩ := h.exists_action
  rcases hG.producer_action hact with ⟨-, ha⟩ | ⟨-, ha⟩ | ⟨hi, u, ha⟩ | ⟨-, ha⟩
  · subst ha
    exact nomatch hw
  · subst ha
    cases hw
    decide
  · subst hi
    subst ha
    have hu := hG.fetchAdd_reads hc hact
    cases hw
    omega
  · subst ha
    cases hw
    decide

/-! ### Races -/

/-- What the consumer reads from `data` when the assignment of the producer comes before. -/
theorem reads_data (hG : IsExecution G) (hc : G.Consistent rule)
    (hread : G.action (.nth .consumer i) = some (.read .data v))
    (hassign : G.action (.nth .producer 0) = some (.write .data 42))
    (hhb : G.HappensBefore rule (.nth .producer 0) (.nth .consumer i)) : v = 42 := by
  have hmod : G.Modifies (.nth .producer 0) .data := ⟨42, (writes_iff hassign).mpr rfl⟩
  have hreads : G.Reads (.nth .consumer i) .data v := (reads_iff hread).mpr rfl
  have hwrites := hc.reads_from _ _ _ hreads
  have hle := hc.write_read _ _ _ _ hhb hmod hreads
  rcases hG.modifies_data ⟨v, hwrites⟩ with hs | hs
  · rw [hs] at hle
    have := hc.time_init_lt hmod
    omega
  · rw [hs, writes_iff hassign] at hwrites
    exact (congrArg Prod.snd (Option.some.inj hwrites)).symm

theorem atomic_of_location (hG : IsExecution G) (t : Thread) (i : ℕ) (act : Action Location ℤ)
    (hact : G.action (.nth t i) = some act) (hloc : act.location = .atomicVar) : act.Atomic := by
  cases t with
  | producer =>
    rcases hG.producer_action hact with ⟨-, ha⟩ | ⟨-, ha⟩ | ⟨-, u, ha⟩ | ⟨-, ha⟩
    · subst ha
      exact nomatch hloc
    · subst ha
      trivial
    · subst ha
      trivial
    · subst ha
      trivial
  | consumer =>
    rcases hG.consumer_action hact with ⟨u, ha, -⟩ | ⟨u, ha, -⟩
    · subst ha
      trivial
    · subst ha
      exact nomatch hloc

/-- What touches `data` is the assignment or a read of the consumer. -/
theorem accesses_data (hG : IsExecution G) {t : Thread} (h : G.Accesses (.nth t i) .data) :
    (t = .producer ∧ i = 0) ∨
      (t = .consumer ∧ ∃ v, G.action (.nth .consumer i) = some (.read .data v)) := by
  obtain ⟨act, hact, hloc⟩ := h
  cases t with
  | producer =>
    rcases hG.producer_action hact with ⟨hi, -⟩ | ⟨-, ha⟩ | ⟨-, u, ha⟩ | ⟨-, ha⟩
    · exact .inl ⟨rfl, hi⟩
    · subst ha
      exact nomatch hloc
    · subst ha
      exact nomatch hloc
    · subst ha
      exact nomatch hloc
  | consumer =>
    rcases hG.consumer_action hact with ⟨u, ha, -⟩ | ⟨u, ha, -⟩
    · subst ha
      exact nomatch hloc
    · subst ha
      exact .inr ⟨rfl, u, hact⟩

/-- `data` has no race when the assignment comes before every read. -/
theorem raceFree_data (hG : IsExecution G)
    (hhb : ∀ i v, G.action (.nth .consumer i) = some (.read .data v) →
      G.HappensBefore rule (.nth .producer 0) (.nth .consumer i)) : G.RaceFree rule .data := by
  apply RaceFree.of_threads
  intro t i u j hconflict
  rcases hG.accesses_data hconflict.left with ⟨ht, hi⟩ | ⟨ht, v, hv⟩
  · subst ht
    subst hi
    rcases hG.accesses_data hconflict.right with ⟨hu, hj⟩ | ⟨hu, w, hw⟩
    · subst hu
      subst hj
      exact absurd rfl hconflict.ne
    · subst hu
      exact .inl (hhb j w hw)
  · subst ht
    rcases hG.accesses_data hconflict.right with ⟨hu, hj⟩ | ⟨hu, w, hw⟩
    · subst hu
      subst hj
      exact .inr (hhb i v hv)
    · -- two reads are not in conflict
      subst hu
      rcases hconflict.writes with ⟨x, hx⟩ | ⟨x, hx⟩
      · rw [writes_iff hv] at hx
        exact nomatch hx
      · rw [writes_iff hw] at hx
        exact nomatch hx

theorem raceFree (hG : IsExecution G)
    (hhb : ∀ i v, G.action (.nth .consumer i) = some (.read .data v) →
      G.HappensBefore rule (.nth .producer 0) (.nth .consumer i)) (x : Location) :
    G.RaceFree rule x := by
  cases x with
  | atomicVar => exact .of_atomic hG.atomic_of_location
  | data => exact hG.raceFree_data hhb

/-- The consumer reads `data` behind its loop. -/
theorem exists_load (hG : IsExecution G)
    (hread : G.action (.nth .consumer i) = some (.read .data v)) :
    ∃ j < i, ∃ w, 1 ≤ w ∧ G.action (.nth .consumer j) = some (.load .acquire .atomicVar w) := by
  rcases hG.consumer_action hread with ⟨u, ha, -⟩ | ⟨u, -, hended⟩
  · exact nomatch ha
  · exact hended

/-- What the release store publishes to the load that ends the loop. -/
theorem happensBefore_read (hj : j < i)
    (hsync : G.SynchronizesWith rule (.nth .producer 1) (.nth .consumer j)) :
    G.HappensBefore rule (.nth .producer 0) (.nth .consumer i) :=
  publication (sequenced_nth Nat.zero_lt_one) hsync (sequenced_nth hj)

/-- The loop ends once. -/
theorem load_unique (hG : IsExecution G) {k : ℕ} {u : ℤ}
    (hj : G.action (.nth .consumer j) = some (.load .acquire .atomicVar w)) (hw : 1 ≤ w)
    (hk : G.action (.nth .consumer k) = some (.load .acquire .atomicVar u)) (hu : 1 ≤ u) :
    j = k := by
  have hnot : ∀ {i w}, G.action (.nth .consumer i) = some (.load .acquire .atomicVar w) →
      ¬ Ended G i := by
    intro i w hi
    rcases hG.consumer_action hi with ⟨u, -, hended⟩ | ⟨u, ha, -⟩
    · exact hended
    · exact nomatch ha
  rcases Nat.lt_trichotomy j k with hlt | heq | hgt
  · exact absurd ⟨j, hlt, w, hw, hj⟩ (hnot hk)
  · exact heq
  · exact absurd ⟨k, hgt, u, hu, hk⟩ (hnot hj)

/-- Without a race the assignment comes before the read, through the load that ends the loop. -/
theorem exists_synchronizes (hG : IsExecution G) (hc : G.Consistent rule)
    (hfree : G.RaceFree rule .data)
    (hassign : G.action (.nth .producer 0) = some (.write .data 42))
    (hread : G.action (.nth .consumer i) = some (.read .data v)) :
    ∃ k w, G.action (.nth .consumer k) = some (.load .acquire .atomicVar w) ∧ 1 ≤ w ∧
      G.SynchronizesWith rule (.nth .producer 1) (.nth .consumer k) := by
  have hconflict : G.Conflict .data (.nth .producer 0) (.nth .consumer i) :=
    ⟨nofun, .of_action hassign, .of_action hread, .inl ⟨42, (writes_iff hassign).mpr rfl⟩,
      .inl (.of_action hassign id)⟩
  rcases hfree _ _ hconflict with hhb | hhb
  · obtain ⟨k, -, c, hsync, -⟩ := entered_of_happensBefore hhb rfl nofun
    obtain ⟨x, w, hreads, hacq, hseq⟩ := id hsync
    have hc1 := hG.releases_eq hseq.releases
    subst hc1
    obtain ⟨act, hact, hr⟩ := hreads.exists_action
    rcases hG.consumer_action hact with ⟨u, ha, -⟩ | ⟨u, ha, -⟩
    · subst ha
      cases hr
      have hwrites := hc.reads_from _ _ _ hreads
      have hstore : G.Modifies (.nth .producer 1) .atomicVar := hseq.head
      -- the source lies in the release sequence, so it is not the initialization
      rcases hG.modifies_atomicVar hseq.modifies with hs | ⟨n, hs, -⟩
      · have hle := hseq.le
        rw [hs] at hle
        have := hc.time_init_lt hstore
        omega
      · rw [hs] at hwrites
        exact ⟨k, w, hact, hG.one_le_of_writes hc hwrites, hsync⟩
    · subst ha
      exact ((Does.iff_of_action hact).mp hacq).elim
  · -- the consumer makes no release
    obtain ⟨k, -, c, hsync, -⟩ := left_of_happensBefore hhb nofun
    obtain ⟨x, w, -, -, hseq⟩ := hsync
    exact nomatch hG.releases_eq hseq.releases

/-- The statement that published was made. -/
theorem assigns_of_synchronizes (hG : IsExecution G) {d : Event Thread Location}
    (hsync : G.SynchronizesWith rule (.nth .producer 1) d) :
    G.action (.nth .producer 0) = some (.write .data 42) := by
  obtain ⟨x, u, -, -, hseq⟩ := hsync
  obtain ⟨act, u', hact, -⟩ := hseq.head.exists_action
  exact hG.assigns hact

end IsExecution

/-! ### The two rules -/

/-- **The release sequence.**  Under the rule of C++11 no execution has a race, and the assertion
holds. -/
theorem assertion_holds (hG : IsExecution G) (hc : G.Consistent .cpp11) :
    (∀ x, G.RaceFree .cpp11 x) ∧
      ∀ i v, G.action (.nth .consumer i) = some (.read .data v) → v = 42 := by
  have hpublished : ∀ i v, G.action (.nth .consumer i) = some (.read .data v) →
      G.action (.nth .producer 0) = some (.write .data 42) ∧
        G.HappensBefore .cpp11 (.nth .producer 0) (.nth .consumer i) := by
    intro i v hread
    obtain ⟨j, hj, w, hw, hload⟩ := hG.exists_load hread
    have hsync := hG.synchronizes_cpp11 hc hload hw
    exact ⟨hG.assigns_of_synchronizes hsync, IsExecution.happensBefore_read hj hsync⟩
  refine ⟨hG.raceFree fun i v hread => (hpublished i v hread).2, fun i v hread => ?_⟩
  obtain ⟨hassign, hhb⟩ := hpublished i v hread
  exact hG.reads_data hc hread hassign hhb

/-- The consumer takes the initial value first, and then that of the relaxed store. -/
def published : Execution Thread Location ℤ where
  initially _ := 0
  actions
    | .producer => [.write .data 42, .store .release .atomicVar 1, .update .relaxed .atomicVar 1 2,
        .store .relaxed .atomicVar 2]
    | .consumer => [.load .acquire .atomicVar 0, .load .acquire .atomicVar 2, .read .data 42,
        .read .data 42]
  source
    | .nth .producer _ => .nth .producer 1
    | .nth .consumer 0 => .init .atomicVar
    | .nth .consumer 1 => .nth .producer 3
    | _ => .nth .producer 0
  time
    | .init _ => 0
    | .nth .producer i => i + 1
    | .nth .consumer 0 => 1
    | .nth .consumer i => i + 4

theorem Thread.mem_all (t : Thread) : t ∈ [Thread.producer, Thread.consumer] := by
  cases t <;> decide

theorem Location.mem_all (x : Location) : x ∈ [Location.atomicVar, Location.data] := by
  cases x <;> decide

theorem isExecution_published : IsExecution published where
  initially _ := rfl
  follows t := by
    cases t <;> decide

theorem synchronizes_published :
    published.SynchronizesWith .cpp11 (.nth .producer 1) (.nth .consumer 1) := by
  refine ⟨.atomicVar, 2, rfl, .of_action rfl (.inl rfl), ⟨1, rfl⟩, .of_action rfl (.inl rfl),
    ⟨2, rfl⟩, by decide, fun b hb hlt _ => .inr ⟨rfl, ?_⟩⟩
  rcases isExecution_published.modifies_atomicVar hb with hs | ⟨k, hs, -⟩
  · subst hs
    exact absurd hlt (by decide)
  · subst hs
    rfl

theorem consistent_published : published.Consistent .cpp11 := by
  have hreads : published.plainReads (published.events [.producer, .consumer] [.atomicVar, .data]) =
      [.nth .consumer 2, .nth .consumer 3] := by decide
  refine .of_interleaving (fun e he => mem_events Thread.mem_all Location.mem_all he)
    (by decide) (by decide) (by decide) fun e he => ?_
  rw [hreads, List.mem_cons, List.mem_singleton] at he
  rcases he with he | he
  · subst he
    exact IsExecution.happensBefore_read (by decide) synchronizes_published
  · subst he
    exact IsExecution.happensBefore_read (by decide) synchronizes_published

theorem assertion_holds_published : (∀ x, published.RaceFree .cpp11 x) ∧
    ∀ i v, published.action (.nth .consumer i) = some (.read .data v) → v = 42 :=
  assertion_holds isExecution_published consistent_published

/-- **Without the producer's own stores in the release sequence.**  Under the rule of C++20 an
execution has no race exactly when the load that ends the loop does not take the value of the
relaxed store; and without a race the assertion holds. -/
theorem raceFree_iff (hG : IsExecution G) (hc : G.Consistent .cpp20) :
    ((∀ x, G.RaceFree .cpp20 x) ↔ ∀ i j v w,
      G.action (.nth .consumer i) = some (.read .data v) →
      G.action (.nth .consumer j) = some (.load .acquire .atomicVar w) → 1 ≤ w →
      G.source (.nth .consumer j) ≠ .nth .producer 3) ∧
    ((∀ x, G.RaceFree .cpp20 x) →
      ∀ i v, G.action (.nth .consumer i) = some (.read .data v) → v = 42) := by
  have hiff : (∀ x, G.RaceFree .cpp20 x) ↔ ∀ i j v w,
      G.action (.nth .consumer i) = some (.read .data v) →
      G.action (.nth .consumer j) = some (.load .acquire .atomicVar w) → 1 ≤ w →
      G.source (.nth .consumer j) ≠ .nth .producer 3 := by
    constructor
    · intro hfree i j v w hread hload hw
      obtain ⟨n, -, hn, hmod⟩ := hG.source_of_load hc hload hw
      obtain ⟨act, u, hact, -⟩ := hmod.exists_action
      obtain ⟨k, u', hk, hu', hsync⟩ :=
        hG.exists_synchronizes hc (hfree .data) (hG.assigns hact) hread
      have hjk := hG.load_unique hload hw hk hu'
      subst hjk
      exact (hG.synchronizes_cpp20 hc hload hw).mp hsync
    · intro hsource
      refine hG.raceFree fun i v hread => ?_
      obtain ⟨j, hj, w, hw, hload⟩ := hG.exists_load hread
      have hsync := (hG.synchronizes_cpp20 hc hload hw).mpr (hsource i j v w hread hload hw)
      exact IsExecution.happensBefore_read hj hsync
  refine ⟨hiff, fun hfree i v hread => ?_⟩
  obtain ⟨j, hj, w, hw, hload⟩ := hG.exists_load hread
  have hsync := (hG.synchronizes_cpp20 hc hload hw).mpr (hiff.mp hfree i j v w hread hload hw)
  exact hG.reads_data hc hread (hG.assigns_of_synchronizes hsync)
    (IsExecution.happensBefore_read hj hsync)

/-- The consumer takes the value of the relaxed store, which is in no release sequence, and then the
initial value of `data`. -/
def unpublished : Execution Thread Location ℤ where
  initially _ := 0
  actions
    | .producer => [.write .data 42, .store .release .atomicVar 1, .update .relaxed .atomicVar 1 2,
        .store .relaxed .atomicVar 2]
    | .consumer => [.load .acquire .atomicVar 2, .read .data 0]
  source
    | .nth .producer _ => .nth .producer 1
    | .nth .consumer 0 => .nth .producer 3
    | _ => .init .data
  time
    | .init _ => 0
    | .nth .producer i => i + 1
    | .nth .consumer _ => 0

theorem isExecution_unpublished : IsExecution unpublished where
  initially _ := rfl
  follows t := by
    cases t <;> decide

theorem not_synchronizes_unpublished (a b : Event Thread Location) :
    ¬ unpublished.SynchronizesWith .cpp20 a b := by
  intro hsync
  obtain ⟨x, w, hreads, hacq, hseq⟩ := hsync
  have ha := isExecution_unpublished.releases_eq hseq.releases
  subst ha
  obtain ⟨act, hact, hacquires⟩ := hacq
  cases b with
  | init y =>
    cases hact
    exact hacquires
  | nth t i =>
    cases t with
    | producer =>
      rcases isExecution_unpublished.producer_action hact with
        ⟨-, ha⟩ | ⟨-, ha⟩ | ⟨-, u, ha⟩ | ⟨-, ha⟩
      · subst ha
        exact hacquires
      · subst ha
        exact hacquires
      · subst ha
        simp [Action.Acquires] at hacquires
      · subst ha
        exact hacquires
    | consumer =>
      rcases isExecution_unpublished.consumer_action hact with ⟨u, ha, hended⟩ | ⟨u, ha, -⟩
      · cases i with
        | zero =>
          -- the relaxed store is no part of the release sequence
          cases hreads
          rcases hseq.between (.nth .producer 3) ⟨2, rfl⟩ (by decide) (by decide) with hup | hrule
          · exact (Does.iff_of_action (G := unpublished) rfl).mp hup
          · exact nomatch hrule.1
        | succ i => exact hended ⟨0, Nat.succ_pos i, 2, by decide, rfl⟩
      · subst ha
        exact hacquires

theorem consistent_unpublished : unpublished.Consistent .cpp20 := by
  have hreads :
      unpublished.plainReads (unpublished.events [.producer, .consumer] [.atomicVar, .data]) =
        [.nth .consumer 1] := by decide
  refine .of_coherent (R := SequencedBefore)
    (fun e he => mem_events Thread.mem_all Location.mem_all he)
    (fun a b hab _ => sequenced_of_happensBefore not_synchronizes_unpublished hab)
    SequencedBefore.irrefl (by decide) fun e he => ?_
  rw [hreads, List.mem_singleton] at he
  subst he
  exact .of_sequenced trivial

/-- A consistent execution under the rule of C++20 in which the assertion fails. -/
theorem raceFree_iff_unpublished : unpublished.Consistent .cpp20 ∧
    unpublished.action (.nth .consumer 1) = some (.read .data 0) ∧
    ¬ ∀ x, unpublished.RaceFree .cpp20 x := by
  refine ⟨consistent_unpublished, rfl, fun hfree => ?_⟩
  have h := raceFree_iff isExecution_unpublished consistent_unpublished
  exact h.1.mp hfree 1 0 0 2 rfl rfl (by decide) rfl

end ConcurrencyInAction.ReleaseSequenceExample
