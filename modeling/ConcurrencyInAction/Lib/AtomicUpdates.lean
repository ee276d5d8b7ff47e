import ConcurrencyInAction.Lib.MemoryModel

/-!
# Locations that are only updated

A location that the threads write with atomic updates only.  Whatever the memory orders, its updates
form a chain: each reads what the one before it has written.

* `OnlyUpdated`: the writes of the location, besides the initial one;
* `UpTo es n`: the list `es` has the updates up to a place of the modification order;
* `OnlyUpdated.induction`: **induction along the modification order**, for a property of the updates
  so far and of the value that they have left.
-/

namespace MemoryModel.Execution

variable {T X V : Type*} (G : Execution T X V) (x : X)

/-- Every write of the location by a thread is an update. -/
def OnlyUpdated : Prop :=
  ∀ t i, G.Modifies (.nth t i) x → ∃ o v w, G.action (.nth t i) = some (.update o x v w)

/-- The list has exactly the updates of the location up to the place `n`, each once. -/
structure UpTo (es : List (Event T X)) (n : ℕ) : Prop where
  nodup : es.Nodup
  mem_iff : ∀ b, b ∈ es ↔ (∃ t i, b = .nth t i) ∧ G.Modifies b x ∧ G.time b ≤ n

variable {G x} {rule : Rule} {e : Event T X} {es : List (Event T X)} {v w : V}

/-- Up to the initialization there is no update. -/
theorem UpTo.init (hG : G.Consistent rule) : G.UpTo x [] (G.time (.init x)) where
  nodup := .nil
  mem_iff b := by
    refine iff_of_false List.not_mem_nil fun h => ?_
    obtain ⟨⟨t, i, hb⟩, hmodifies, hle⟩ := h
    subst hb
    exact absurd (hG.time_init_lt hmodifies) (Nat.not_lt.mpr hle)

/-- An update comes right after its source. -/
theorem UpTo.snoc (hG : G.Consistent rule) {t : T} {i : ℕ} {o : MemoryOrder}
    (h : G.UpTo x es (G.time (G.source (.nth t i))))
    (hact : G.action (.nth t i) = some (.update o x v w)) :
    G.UpTo x (es ++ [.nth t i]) (G.time (.nth t i)) := by
  obtain ⟨hlt, hnext⟩ := hG.update _ o x v w hact
  have hmodifies : G.Modifies (.nth t i) x := ⟨w, (writes_iff hact).mpr rfl⟩
  constructor
  · refine List.nodup_append.mpr ⟨h.nodup, List.pairwise_singleton _ _, fun a ha b hb hab => ?_⟩
    rw [List.mem_singleton] at hb
    subst hb
    subst hab
    exact absurd hlt (Nat.not_lt.mpr ((h.mem_iff _).mp ha).2.2)
  · intro b
    rw [List.mem_append, List.mem_singleton, h.mem_iff]
    constructor
    · intro hb
      rcases hb with ⟨hnth, hb, hle⟩ | hb
      · exact ⟨hnth, hb, Nat.le_trans hle (Nat.le_of_lt hlt)⟩
      · subst hb
        exact ⟨⟨t, i, rfl⟩, hmodifies, Nat.le_refl _⟩
    · intro hb
      obtain ⟨hnth, hb, hle⟩ := hb
      rcases hnext b hb with hbefore | hafter
      · exact .inl ⟨hnth, hb, hbefore⟩
      · exact .inr (hG.total x b _ hb hmodifies (Nat.le_antisymm hle hafter))

/-- **Induction along the modification order.** -/
theorem OnlyUpdated.induction (hG : G.Consistent rule) (hx : G.OnlyUpdated x)
    {Q : List (Event T X) → V → Prop} (h₀ : Q [] (G.initially x))
    (hstep : ∀ es t i o v w, G.action (.nth t i) = some (.update o x v w) → Q es v →
      Q (es ++ [.nth t i]) w) (hw : G.Writes e x w) :
    ∃ es, G.UpTo x es (G.time e) ∧ Q es w := by
  -- by induction on the place of the write
  obtain ⟨n, hn⟩ : ∃ n, n = G.time e := ⟨_, rfl⟩
  induction n using Nat.strongRecOn generalizing e w with
  | ind n ih =>
    cases e with
    | init y =>
      have hy := eq_of_modifies_init ⟨w, hw⟩
      subst hy
      have hvalue : G.initially y = w := congrArg Prod.snd (Option.some.inj hw)
      rw [← hvalue]
      exact ⟨[], .init hG, h₀⟩
    | nth t i =>
      obtain ⟨o, v, w', hact⟩ := hx t i ⟨w, hw⟩
      have hw' : w' = w := congrArg Prod.snd (Option.some.inj ((writes_iff hact).mp hw))
      subst hw'
      have hsource := hG.reads_from _ _ _ ((reads_iff hact).mpr rfl)
      have hlt := (hG.update _ o x v w' hact).1
      rw [← hn] at hlt
      obtain ⟨es, hes, hq⟩ := ih _ hlt hsource rfl
      exact ⟨es ++ [.nth t i], hes.snoc hG hact, hstep es t i o v w' hact hq⟩

end MemoryModel.Execution
