import ConcurrencyInAction.Lib.CriticalRegion
import ConcurrencyInAction.Lib.SequentialSpec
import ConcurrencyInAction.ProtectedList.Model

/-!
# The protected list is linearizable

* `ListStep`: the sequential list; `Result.addedValue`, `contents_of_legal`: what is in it;
* `region`: `myMutex` guards the list and the history; what a search knows of the elements before
  its iterator;
* `Step.move`: every step is a move of the region;
* `linearizable`: **the calls are those of a sequential list**, in the order in which they gave the
  mutex back, and a search never meets an element that is not there.
-/

namespace ConcurrencyInAction.ProtectedList

open Interleaving ExclusiveLock SequentialSpec

variable {T V : Type*}

/-! ### The sequential list -/

/-- One operation on a sequential list, by how it ends. -/
inductive ListStep : List V → Result V → List V → Prop
  | added (q : List V) (v : V) : ListStep q (.added v) (q ++ [v])
  | threw (q : List V) : ListStep q .threw q
  | contains {q : List V} {v : V} {found : Bool} : (found = true ↔ v ∈ q) →
      ListStep q (.contains v found) q

/-- The value that a call has added. -/
def Result.addedValue : Result V → Option V
  | .added v => some v
  | _ => none

theorem contents_of_legal {contents q : List V} {history : List (Result V)}
    (h : Legal ListStep contents history q) :
    q = contents ++ history.filterMap Result.addedValue := by
  have hledger := h.fifo Result.addedValue (fun _ => none) ?_
  · rw [hledger, List.filterMap_none, List.nil_append]
  · intro s e s' hs
    cases hs with
    | added v => rfl
    | threw | contains _ => exact List.append_nil s

/-! ### The critical region -/

/-- The points at which a thread holds `myMutex`. -/
def Point.HoldsMutex : Point V → Prop
  | .idle | .addLock _ | .containsLock _ => False
  | _ => True

/-- What a thread that holds the mutex knows of the history and the list: a search has passed the
elements before its iterator. -/
def Point.Known (contents : List V) : Point V → List (Result V) × List V → Prop
  | .pushBack _, r => Legal ListStep contents r.1 r.2
  | .testEnd v it, r =>
      Legal ListStep contents r.1 r.2 ∧ it ≤ r.2.length ∧ v ∉ r.2.take it
  | .testValue v it, r =>
      Legal ListStep contents r.1 r.2 ∧ it < r.2.length ∧ v ∉ r.2.take it
  | .compareEnd v it, r => Legal ListStep contents r.1 r.2 ∧ (it ≠ r.2.length ↔ v ∈ r.2)
  | .unlock res, r => ∃ q, Legal ListStep contents r.1 q ∧ ListStep q res r.2
  | _, _ => False

/-- `myMutex` guards the list and the history. -/
def region (contents : List V) :
    CriticalRegion T (Shared T V) (Point V) (List (Result V) × List V) where
  owner g := g.myMutex
  resource g := (g.history, g.myList)
  Inside := Point.HoldsMutex
  Invariant r := Legal ListStep contents r.1 r.2
  Known := Point.Known contents

variable {contents : List V} {t u : T} {c : Choice V} {g g' : Shared T V} {l l' : Point V}

/-- **Every step is a move of the region.** -/
theorem Step.move (h : (region contents).Assertion t g l) (hstep : Step t g c l g' l') :
    (region contents).Move t g l g' l' := by
  have hown := h.owns
  have hknown := h.known
  cases hstep with
  | callsAdd | callsContains => exact .outside rfl rfl id id
  | locksAdd hfree => exact .enter hfree rfl rfl trivial id
  | locksContains hfree =>
    refine .enter hfree rfl rfl trivial fun hlegal => ⟨hlegal, Nat.zero_le _, ?_⟩
    rw [List.take_zero]
    exact List.not_mem_nil
  | @pushes v => exact .inside rfl trivial trivial fun hlegal => ⟨g.myList, hlegal, .added _ v⟩
  | pushThrows => exact .inside rfl trivial trivial fun hlegal => ⟨g.myList, hlegal, .threw _⟩
  | @atEnd v =>
    refine .inside rfl trivial trivial fun hk => ?_
    obtain ⟨hlegal, -, hnot⟩ := hk
    refine ⟨hlegal, iff_of_false (fun hne => hne rfl) ?_⟩
    have hall : v ∉ g.myList.take g.myList.length := hnot
    rw [List.take_length] at hall
    exact hall
  | notAtEnd hne =>
    refine .inside rfl trivial trivial fun hk => ?_
    obtain ⟨hlegal, hle, hnot⟩ := hk
    exact ⟨hlegal, Nat.lt_of_le_of_ne hle hne, hnot⟩
  | finds hvalue =>
    refine .inside rfl trivial trivial fun hk => ?_
    obtain ⟨hlegal, hlt, -⟩ := hk
    exact ⟨hlegal, iff_of_true (Nat.ne_of_lt hlt) (List.mem_of_getElem? hvalue)⟩
  | @passes value v it hvalue hne =>
    refine .inside rfl trivial trivial fun hk => ?_
    obtain ⟨hlegal, hlt, hnot⟩ := hk
    refine ⟨hlegal, hlt, ?_⟩
    show v ∉ g.myList.take (it + 1)
    rw [List.take_add_one, hvalue, Option.toList_some, List.mem_append, List.mem_singleton]
    exact not_or.mpr ⟨hnot, Ne.symm hne⟩
  | dangles hnone =>
    obtain ⟨-, hlt, -⟩ := hknown trivial
    exact absurd hlt (Nat.not_lt.mpr (List.getElem?_eq_none_iff.mp hnone))
  | compares =>
    refine .inside rfl trivial trivial fun hk => ?_
    obtain ⟨hlegal, hiff⟩ := hk
    refine ⟨g.myList, hlegal, .contains ?_⟩
    rw [decide_eq_true_iff]
    exact hiff
  | unlocks =>
    refine .leave rfl trivial id fun hk => ?_
    obtain ⟨q, hlegal, hlast⟩ := hk
    exact hlegal.snoc hlast

/-! ### Whole runs -/

section Run

variable [DecidableEq T] [DecidableEq V] {s s' : Config T (Shared T V) (Point V)}

omit [DecidableEq T] in
theorem relyGuarantee (contents : List V) : RelyGuarantee (program (T := T)) anyStep
    (region contents).Free (region contents).Assertion (region contents).Rely :=
  CriticalRegion.relyGuarantee fun _ _ _ _ _ _ h hp => (step_of_program hp).move h

theorem reachable_region (hs : Reachable program anyStep (initial contents) s) :
    (region contents).Free s.shared ∧
      ∀ t, (region contents).Assertion t s.shared (s.locals t) := by
  refine hs.rely_guarantee (relyGuarantee contents) ⟨fun _ => ?_, fun t => ⟨?_, ?_⟩⟩
  · exact Legal.nil
  · exact iff_of_false nofun id
  · exact fun hin => hin.elim

/-- The calls that have ended are those of a sequential list, also while the mutex is held. -/
theorem exists_legal (hs : Reachable program anyStep (initial contents) s) :
    ∃ q, Legal ListStep contents s.shared.history q ∧
      (s.shared.myMutex = none → s.shared.myList = q) := by
  obtain ⟨hfree, hall⟩ := reachable_region hs
  cases hown : s.shared.myMutex with
  | none => exact ⟨s.shared.myList, hfree hown, fun _ => rfl⟩
  | some u =>
    have hk := (hall u).known ((hall u).owns.mp hown)
    generalize s.locals u = l at hk
    cases l with
    | idle | addLock | containsLock | undefined => exact hk.elim
    | pushBack => exact ⟨_, hk, nofun⟩
    | testEnd | testValue | compareEnd => exact ⟨_, hk.1, nofun⟩
    | unlock r =>
      obtain ⟨q, hlegal, -⟩ := hk
      exact ⟨q, hlegal, nofun⟩

theorem reachable_defined (hs : Reachable program anyStep (initial contents) s) (t : T) :
    s.locals t ≠ .undefined := by
  intro ht
  have hk := ((reachable_region hs).2 t).known
  rw [ht] at hk
  exact (hk trivial).elim

/-- **The protected list is linearizable.**  What a search has answered is right about the list made
by the calls before it, in the order in which the calls gave the mutex back; while nobody holds the
mutex, the list is the one made by all of them; no search ever reads an element that is not there;
and while a thread holds the mutex, no other one changes the list. -/
theorem linearizable (hs : Reachable program anyStep (initial contents) s) :
    (∀ past v found future, s.shared.history = past ++ .contains v found :: future →
      (found = true ↔ v ∈ contents ++ past.filterMap Result.addedValue)) ∧
    (s.shared.myMutex = none →
      s.shared.myList = contents ++ s.shared.history.filterMap Result.addedValue) ∧
    (∀ t, s.locals t ≠ .undefined) ∧
    ∀ t u c s', (s.locals t).HoldsMutex → u ≠ t → s.step program u c = some s' →
      s'.shared.myList = s.shared.myList := by
  obtain ⟨hfree, hall⟩ := reachable_region hs
  obtain ⟨q, hlegal, hnow⟩ := exists_legal hs
  refine ⟨fun past v found future he => ?_, fun hnone => ?_, reachable_defined hs, ?_⟩
  · obtain ⟨s₁, s₂, hpast, hstep⟩ := hlegal.split past future he
    cases hstep with
    | contains hiff => rw [hiff, contents_of_legal hpast]
  · rw [hnow hnone]
    exact contents_of_legal hlegal
  · intro t u c s' ht hu hstep
    obtain ⟨g, l, hp, rfl⟩ := Config.step_eq_some.mp hstep
    obtain ⟨-, -, hrely⟩ := ((step_of_program hp).move (hall u)).keeps hfree (hall u)
    exact congrArg Prod.snd ((hrely t hu.symm).resource ((hall t).owns.mpr ht))

end Run

/-- Two searches for a value that is added in between. -/
def searchAddSearch : List (Bool × Choice ℕ) :=
  (true, .listContains 5) :: List.replicate 6 (true, .run) ++
    (false, .addToList 5) :: List.replicate 3 (false, .run) ++
    (true, .listContains 5) :: List.replicate 7 (true, .run)

theorem linearizable_searchAddSearch : ∃ s : Config Bool (Shared Bool ℕ) (Point ℕ),
    (initial [3]).run program searchAddSearch = some s ∧
    s.shared.history = [.contains 5 false, .added 5, .contains 5 true] ∧
    s.shared.myList = [3] ++ [5] := by
  have hrun : ((initial (T := Bool) [3]).run program searchAddSearch).isSome := by decide
  have hmutex : (((initial (T := Bool) [3]).run program searchAddSearch).get hrun).shared.myMutex =
    none := rfl
  exact ⟨_, (Option.some_get hrun).symm, rfl,
    (linearizable (.of_run_any searchAddSearch (Option.some_get hrun).symm)).2.1 hmutex⟩

end ConcurrencyInAction.ProtectedList
