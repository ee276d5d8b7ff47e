import ConcurrencyInAction.Swap.Locks
import ConcurrencyInAction.Lib.SequentialSpec
import Mathlib.Data.List.Induction
import Mathlib.Logic.Equiv.Basic

/-!
# Concurrent swaps are serializable

* `exchange`, `exchanges`: the abstract meaning of swaps, one after the other;
* `serial`: the contents as if every swap had been made at once when it acquired its locks;
* `DataAssertion`: how far the contents of the locked objects, and `tmp`, are from `serial` in the
  middle of the three assignments; the contents of all other objects agree with it;
* `DataAssertion.step`: every step keeps the assertion;
* `serializable`: between the swaps the contents are those of the finished swaps made one after the
  other, in the order in which they acquired their locks.
-/

namespace ConcurrencyInAction.Swap

open Interleaving ExclusiveLock SequentialSpec

variable {T M D : Type*} [DecidableEq M]

/-! ### Exchanges, one after the other -/

/-- The contents of two objects are exchanged. -/
def exchange (contents : M → D) (e : M × M) : M → D := contents ∘ Equiv.swap e.1 e.2

/-- A list of exchanges, the first one first. -/
def exchanges (contents : M → D) (es : List (M × M)) : M → D := es.foldl exchange contents

variable {contents c : M → D}

theorem exchange_left (lhs rhs : M) : exchange c (lhs, rhs) lhs = c rhs := by
  simp [exchange]

theorem exchange_right (lhs rhs : M) : exchange c (lhs, rhs) rhs = c lhs := by
  simp [exchange]

theorem exchange_of_ne {lhs rhs x : M} (hl : x ≠ lhs) (hr : x ≠ rhs) :
    exchange c (lhs, rhs) x = c x := by
  simp [exchange, Equiv.swap_apply_of_ne_of_ne hl hr]

theorem exchange_self (x : M) : exchange c (x, x) = c := by
  simp [exchange]

theorem exchanges_concat (es : List (M × M)) (e : M × M) :
    exchanges contents (es ++ [e]) = exchange (exchanges contents es) e := by
  simp [exchanges]

/-- Exchanges permute the contents. -/
theorem exists_perm_exchanges (contents : M → D) (es : List (M × M)) :
    ∃ σ : Equiv.Perm M, exchanges contents es = contents ∘ σ := by
  induction es using List.reverseRecOn with
  | nil => exact ⟨Equiv.refl M, rfl⟩
  | append_singleton es e ih =>
    obtain ⟨σ, hσ⟩ := ih
    refine ⟨(Equiv.swap e.1 e.2).trans σ, ?_⟩
    rw [exchanges_concat, hσ]
    rfl

/-! ### Half-done swaps -/

/-- The contents as if every swap had been made when it acquired its locks. -/
def serial (contents : M → D) (g : Shared T M D) : M → D :=
  exchanges contents (g.acquisitions.map Prod.snd)

/-- What a thread knows of the contents of the objects it has locked, and of its `tmp`, compared
with the serial contents `σ`. -/
def DataAt (someDetail σ : M → D) : Point M D → Prop
  | .tryLock lhs rhs b | .backOff lhs rhs b =>
      someDetail (firstLock lhs rhs b) = σ (firstLock lhs rhs b)
  | .assignTmp lhs rhs => someDetail lhs = σ rhs ∧ someDetail rhs = σ lhs
  | .assignRhs lhs rhs tmp => someDetail lhs = σ rhs ∧ tmp = σ lhs
  | .assignLhs lhs rhs tmp => someDetail rhs = σ rhs ∧ tmp = σ lhs
  | .destroy lhs rhs released _ => ∀ x ∈ [lhs, rhs].filter (· ∉ released), someDetail x = σ x
  | _ => True

/-- The swap a thread holds both locks for. -/
def Point.current : Point M D → List (M × M)
  | .assignTmp lhs rhs | .assignRhs lhs rhs _ | .assignLhs lhs rhs _ | .destroy lhs rhs _ _ =>
      [(lhs, rhs)]
  | _ => []

theorem DataAt.congr {sd sd' σ σ' : M → D} {p : Point M D} (h : DataAt sd σ p)
    (heq : ∀ x ∈ p.held, sd' x = sd x ∧ σ' x = σ x) : DataAt sd' σ' p := by
  cases p with
  | tryLock lhs rhs b | backOff lhs rhs b =>
    obtain ⟨hs, hσ⟩ := heq _ List.mem_cons_self
    show sd' _ = σ' _
    rw [hs, hσ]
    exact h
  | assignTmp lhs rhs | assignRhs lhs rhs tmp | assignLhs lhs rhs tmp =>
    obtain ⟨hsl, hσl⟩ := heq lhs (by simp [Point.held])
    obtain ⟨hsr, hσr⟩ := heq rhs (by simp [Point.held])
    simp only [DataAt, hsl, hσl, hsr, hσr]
    exact h
  | destroy lhs rhs released pending =>
    intro x hx
    obtain ⟨hs, hσ⟩ := heq x hx
    rw [hs, hσ]
    exact h x hx
  | _ => exact trivial

/-- The finished swaps of distinct objects, in the order of their returns. -/
def finished (g : Shared T M D) : List (T × M × M) :=
  (g.returned.filter fun r => r.lhs ≠ r.rhs).map fun r => (r.thread, r.lhs, r.rhs)

/-- The objects nobody has locked agree with the serial contents. -/
def Settled (contents : M → D) (g : Shared T M D) : Prop :=
  ∀ x, g.m x = none → g.someDetail x = serial contents g x

variable {guards : Guards M} {t u : T} {g g' : Shared T M D} {p p' : Point M D}

theorem Settled.assign {x : M} (h : Settled contents g) (hx : g.m x = some t) (d : D) :
    Settled contents (g.assign x d) := by
  intro y hy
  have hyx : y ≠ x := by
    intro he
    rw [he] at hy
    exact nomatch hx.symm.trans hy
  exact (Shared.assign_of_ne hyx).trans (h y hy)

theorem serial_acquire (m : M → Mutex T) (lhs rhs : M) :
    serial contents { g with m := m, acquisitions := g.acquisitions ++ [(t, lhs, rhs)] } =
      exchange (serial contents g) (lhs, rhs) := by
  simp [serial, exchanges_concat]

theorem finished_concat (r : Returned T M) :
    finished { g with returned := g.returned ++ [r] } =
      finished g ++ if r.lhs ≠ r.rhs then [(r.thread, r.lhs, r.rhs)] else [] := by
  by_cases h : r.lhs = r.rhs <;> simp [finished, h]

variable [DecidableEq T]

/-- The assertion of thread `t` about the contents, and about its own swaps: those that acquired
their locks are the finished ones and the present one. -/
structure DataAssertion (contents : M → D) (t : T) (g : Shared T M D) (p : Point M D) : Prop where
  data : DataAt g.someDetail (serial contents g) p
  ledger : g.acquisitions.filter (·.1 = t) =
    (finished g).filter (·.1 = t) ++ p.current.map (t, ·)

/-- What thread `u` relies on: the contents of the objects it has locked, and its own swaps. -/
structure DataRely (contents : M → D) (u : T) (g g' : Shared T M D) : Prop where
  data : ∀ x, g.m x = some u →
    g'.someDetail x = g.someDetail x ∧ serial contents g' x = serial contents g x
  acquisitions : g'.acquisitions.filter (·.1 = u) = g.acquisitions.filter (·.1 = u)
  finished : (finished g').filter (·.1 = u) = (finished g).filter (·.1 = u)

/-- A step that leaves the contents and the histories alone. -/
theorem DataRely.of_eq (hsd : g'.someDetail = g.someDetail)
    (hacq : g'.acquisitions = g.acquisitions) (hret : g'.returned = g.returned) :
    DataRely contents u g g' where
  data x _ := by
    rw [hsd, serial, serial, hacq]
    exact ⟨rfl, rfl⟩
  acquisitions := by rw [hacq]
  finished := by
    unfold Swap.finished
    rw [hret]

/-- Another thread's assignment to an object it has locked. -/
theorem DataRely.of_assign {x : M} (hx : g.m x = some t) (hu : u ≠ t) (d : D) :
    DataRely contents u g (g.assign x d) where
  data y hy := by
    have hyx : y ≠ x := fun he => hu (Option.some.inj (hy.symm.trans (he ▸ hx)))
    exact ⟨Shared.assign_of_ne hyx, rfl⟩
  acquisitions := rfl
  finished := rfl

/-- The swaps of the other threads are not concerned by a new event of thread `t`. -/
theorem filter_concat_of_ne {E : Type*} (thread : E → T) (es : List E) {e : E} (hu : thread e ≠ u) :
    (es ++ [e]).filter (thread · = u) = es.filter (thread · = u) := by
  simp [hu]

/-- Another thread's swap returns. -/
theorem DataRely.of_return (r : Returned T M) (hu : r.thread ≠ u) :
    DataRely contents u g { g with returned := g.returned ++ [r] } where
  data _ _ := ⟨rfl, rfl⟩
  acquisitions := rfl
  finished := by
    rw [finished_concat]
    split
    · exact filter_concat_of_ne Prod.fst _ hu
    · rw [List.append_nil]

/-- **A swap acquires its locks**, and counts as made: the two objects hold each other's serial
contents, and nothing changes for the others. -/
theorem DataAssertion.locksSecond {lhs rhs : M} {b : Bool} (hS : Settled contents g)
    (hlock : LockAssertion guards t g (.tryLock lhs rhs b))
    (h : DataAssertion contents t g (.tryLock lhs rhs b))
    (hfree : g.m (secondLock lhs rhs b) = none) :
    let g' := { g.take t (secondLock lhs rhs b) with
      acquisitions := g.acquisitions ++ [(t, lhs, rhs)] }
    Settled contents g' ∧ DataAssertion contents t g' (.assignTmp lhs rhs) ∧
      ∀ u, u ≠ t → DataRely contents u g g' := by
  intro g'
  have hserial : serial contents g' = exchange (serial contents g) (lhs, rhs) :=
    serial_acquire _ _ _
  have hfirst : g.m (firstLock lhs rhs b) = some t := (hlock.owns _).mpr List.mem_cons_self
  have hpair : ∀ x ∈ [lhs, rhs], g.someDetail x = serial contents g x := by
    intro x hx
    rcases (mem_pair_iff b).mp hx with rfl | rfl
    · exact hS _ hfree
    · exact h.data
  have hothers : ∀ x, x ≠ secondLock lhs rhs b → x ≠ firstLock lhs rhs b →
      serial contents g' x = serial contents g x := by
    intro x h₂ h₁
    have hx : x ∉ [lhs, rhs] := fun hx => ((mem_pair_iff b).mp hx).elim h₂ h₁
    rw [hserial]
    exact exchange_of_ne (fun he => hx (by simp [he])) (fun he => hx (by simp [he]))
  refine ⟨fun x hx => ?_, ⟨⟨?_, ?_⟩, ?_⟩, fun u hu => ⟨fun x hx => ⟨rfl, hothers x ?_ ?_⟩, ?_, rfl⟩⟩
  · have h₂ : x ≠ secondLock lhs rhs b := by
      intro he
      rw [he] at hx
      exact nomatch (Function.update_self _ _ _).symm.trans hx
    have hx' : g.m x = none := (Shared.take_of_ne h₂).symm.trans hx
    have h₁ : x ≠ firstLock lhs rhs b := by
      intro he
      rw [he, hfirst] at hx'
      exact nomatch hx'
    exact (hS x hx').trans (hothers x h₂ h₁).symm
  · rw [hserial, exchange_right]
    exact hpair lhs (by simp)
  · rw [hserial, exchange_left]
    exact hpair rhs (by simp)
  · show (g.acquisitions ++ [(t, lhs, rhs)]).filter (·.1 = t) = (finished g).filter (·.1 = t) ++ _
    rw [List.filter_append, h.ledger]
    simp [Point.current]
  · intro he
    rw [he, hfree] at hx
    exact nomatch hx
  · intro he
    rw [he, hfirst] at hx
    exact hu (Option.some.inj hx).symm
  · exact filter_concat_of_ne Prod.fst _ hu.symm

/-- **The step lemma.** -/
theorem DataAssertion.step {ch : Choice M} (hS : Settled contents g)
    (hlock : LockAssertion guards t g p) (h : DataAssertion contents t g p) (hok : p.GuardHolds)
    (hstep : Step guards t g p ch g' p') :
    Settled contents g' ∧ DataAssertion contents t g' p' ∧
      ∀ u, u ≠ t → DataRely contents u g g' := by
  have howns := hlock.owns
  have hwf := hlock.wellFormed
  have hdata := h.data
  have hledger := h.ledger
  cases hstep with
  | call lhs rhs => exact ⟨hS, ⟨trivial, hledger⟩, fun u _ => .of_eq rfl rfl rfl⟩
  | identical x =>
    refine ⟨hS, ⟨trivial, ?_⟩, fun u hu => .of_return _ hu.symm⟩
    rw [finished_concat, if_neg (not_not.mpr rfl), List.append_nil]
    exact hledger
  | distinct _ => exact ⟨hS, ⟨trivial, hledger⟩, fun u _ => .of_eq rfl rfl rfl⟩
  | @locksFirst lhs rhs b hfree =>
    refine ⟨fun x hx => ?_, ⟨hS _ hfree, hledger⟩, fun u _ => .of_eq rfl rfl rfl⟩
    refine hS x ?_
    by_cases hxf : x = firstLock lhs rhs b
    · rw [hxf]
      exact hfree
    · exact (Shared.take_of_ne hxf).symm.trans hx
  | locksSecond hfree => exact h.locksSecond hS hlock hfree
  | fails => exact ⟨hS, ⟨hdata, hledger⟩, fun u _ => .of_eq rfl rfl rfl⟩
  | @backsOff lhs rhs b =>
    refine ⟨fun x hx => ?_, ⟨trivial, hledger⟩, fun u _ => .of_eq rfl rfl rfl⟩
    by_cases hxf : x = firstLock lhs rhs b
    · rw [hxf]
      exact hdata
    · exact hS x ((Shared.release_of_ne hxf).symm.trans hx)
  | assignsTmp =>
    obtain ⟨hl, hr⟩ := hdata
    exact ⟨hS, ⟨⟨hl, hr⟩, hledger⟩, fun u _ => .of_eq rfl rfl rfl⟩
  | @assignsRhs lhs rhs tmp =>
    obtain ⟨hl, htmp⟩ := hdata
    have hr : g.m rhs = some t := (howns rhs).mpr (by simp [Point.held])
    refine ⟨hS.assign hr _, ⟨⟨?_, htmp⟩, hledger⟩, fun u hu => .of_assign hr hu _⟩
    exact Shared.assign_self.trans hl
  | @assignsLhs lhs rhs tmp =>
    obtain ⟨hr, htmp⟩ := hdata
    have hl : g.m lhs = some t := (howns lhs).mpr (by simp [Point.held])
    refine ⟨hS.assign hl _, ⟨fun x hx => ?_, hledger⟩, fun u hu => .of_assign hl hu _⟩
    by_cases hxl : x = lhs
    · subst hxl
      exact Shared.assign_self.trans htmp
    · have hxr : x = rhs := by simpa [hxl] using hx
      subst hxr
      exact (Shared.assign_of_ne hxl).trans hr
  | @destroys lhs rhs x released rest hheld =>
    refine ⟨fun y hy => ?_, ⟨fun y hy => hdata y ?_, hledger⟩, fun u _ => .of_eq rfl rfl rfl⟩
    · by_cases hyx : y = x
      · subst hyx
        exact hdata y ((howns y).mp hheld)
      · exact hS y ((Shared.release_of_ne hyx).symm.trans hy)
    · simp only [List.mem_filter, List.mem_append, decide_eq_true_eq, not_or] at hy ⊢
      exact ⟨hy.1, hy.2.1⟩
  | @destroysForeign lhs rhs x released rest hforeign => exact absurd ((howns x).mpr hok) hforeign
  | @returns lhs rhs released =>
    refine ⟨hS, ⟨trivial, ?_⟩, fun u hu => .of_return _ hu.symm⟩
    rw [finished_concat, if_pos hwf.1, List.filter_append]
    simpa [Point.current] using hledger

/-! ### Every run of the version with `std::scoped_lock` -/

omit [DecidableEq T] in
/-- The guard of `std::scoped_lock` releases what it has locked. -/
theorem guardHolds_of_scopedLock {p : Point M D} (h : WellFormed scopedLock p) : p.GuardHolds := by
  cases p with
  | destroy lhs rhs released pending =>
    cases pending with
    | nil => exact trivial
    | cons x rest =>
      obtain ⟨hne, hsplit, -, -⟩ := h
      match released, hsplit with
      | [], hsplit =>
        obtain ⟨rfl, -⟩ := List.cons.inj hsplit
        simp [Point.GuardHolds]
      | [a], hsplit =>
        obtain ⟨rfl, htail⟩ := List.cons.inj hsplit
        obtain ⟨rfl, -⟩ := List.cons.inj htail
        simp [Point.GuardHolds, hne.symm]
      | a :: b :: as, hsplit =>
        obtain ⟨-, htail⟩ := List.cons.inj hsplit
        obtain ⟨-, hnil⟩ := List.cons.inj htail
        exact absurd hnil (by simp)
  | _ => exact trivial

theorem relyGuarantee (contents : M → D) :
    RelyGuarantee (program (T := T) scopedLock) anyStep
      (fun g => (∀ r ∈ g.returned, ReleasedOnce r) ∧ Settled contents g)
      (fun t g p => LockAssertion scopedLock t g p ∧ DataAssertion contents t g p)
      (fun u g g' => SameHolder u g.m g'.m ∧ DataRely contents u g g') where
  stable u g g' p hr h := by
    obtain ⟨hlock, hdata⟩ := h
    refine ⟨⟨fun x => (hr.1 x).trans (hlock.owns x), hlock.wellFormed⟩,
      ⟨hdata.data.congr fun x hx => hr.2.data x ((hlock.owns x).mpr hx), ?_⟩⟩
    rw [hr.2.acquisitions, hr.2.finished]
    exact hdata.ledger
  step s t c g' p' hS hP _ hp := by
    obtain ⟨hlock, hdata⟩ := hP t
    have hstep := step_of_program hp
    have hok := guardHolds_of_scopedLock hlock.wellFormed
    obtain ⟨honce, hlock', hrely⟩ := hlock.step (fun _ _ => rfl) hS.1 hok hstep
    obtain ⟨hsettled, hdata', hrely'⟩ := hdata.step hS.2 hlock hok hstep
    exact ⟨⟨honce, hsettled⟩, ⟨hlock', hdata'⟩, fun u hu => ⟨hrely u hu, hrely' u hu⟩⟩

/-- **The invariant.** -/
theorem reachable_assertion {contents : M → D} {s : Config T (Shared T M D) (Point M D)}
    (hs : Reachable (program scopedLock) anyStep (initial contents) s) :
    LocksHeld scopedLock s ∧ Settled contents s.shared ∧
      ∀ t, DataAssertion contents t s.shared (s.locals t) := by
  have hinit : LocksHeld (T := T) scopedLock (initial contents) := initial_locksHeld contents
  obtain ⟨⟨honce, hsettled⟩, hP⟩ := hs.rely_guarantee (relyGuarantee contents)
    ⟨⟨hinit.1, fun _ _ => rfl⟩, fun t => ⟨hinit.2 t, ⟨trivial, rfl⟩⟩⟩
  exact ⟨⟨honce, fun t => (hP t).1⟩, hsettled, fun t => (hP t).2⟩

/-- **Serializability.**  In every reachable state in which no swap is in progress, all mutexes are
free; the contents are those of the swaps made one after the other, each as an exchange, in the
order in which they acquired their locks; these are the finished swaps of distinct objects, each
once (a swap of an object with itself takes no lock, and exchanges nothing); and the contents are a
permutation of the initial ones. -/
theorem serializable (contents : M → D) {s : Config T (Shared T M D) (Point M D)}
    (hs : Reachable (program scopedLock) anyStep (initial contents) s)
    (hidle : ∀ t, s.locals t = .idle) :
    (∀ x, s.shared.m x = none) ∧
      s.shared.someDetail = exchanges contents (s.shared.acquisitions.map Prod.snd) ∧
      s.shared.acquisitions.Perm (finished s.shared) ∧
      (∀ x, exchange s.shared.someDetail (x, x) = s.shared.someDetail) ∧
      ∃ σ : Equiv.Perm M, s.shared.someDetail = contents ∘ σ := by
  obtain ⟨hlocks, hsettled, hdata⟩ := reachable_assertion hs
  have hfree := hlocks.locksReleased.free hidle
  have hcontents : s.shared.someDetail = serial contents s.shared := by
    funext x
    exact hsettled x (hfree x)
  refine ⟨hfree, hcontents, perm_of_filter_eq Prod.fst fun t => ?_, fun x => exchange_self x, ?_⟩
  · have hledger := (hdata t).ledger
    rw [hidle t] at hledger
    exact hledger.trans (List.append_nil _)
  · obtain ⟨σ, hσ⟩ := exists_perm_exchanges contents (s.shared.acquisitions.map Prod.snd)
    exact ⟨σ, hcontents.trans hσ⟩

/-- Two swaps that share an object: the second one has to back off once, and waits for the first;
the first is between its two last assignments when the second begins. -/
def overlappingRun : List (Bool × Choice ℕ) :=
  [(true, .call 0 1), (true, .run), (true, .first false), (true, .run), (true, .run), (true, .run),
   (false, .call 1 2), (false, .run), (false, .first true), (false, .run), (false, .run),
   (true, .run), (true, .run), (true, .run), (true, .run),
   (false, .first false), (false, .run), (false, .run), (false, .run), (false, .run), (false, .run),
   (false, .run), (false, .run)]

theorem serializable_overlapping :
    ∃ s, (initial fun x : ℕ => x).run (program scopedLock) overlappingRun = some s ∧
      s.shared.acquisitions = [(true, 0, 1), (false, 1, 2)] ∧
      s.shared.someDetail = exchanges (fun x => x) [(0, 1), (1, 2)] := by
  have hr : Reachable (program scopedLock) anyStep (initial fun x : ℕ => x)
      (((initial fun x : ℕ => x).run (program scopedLock) overlappingRun).get
        (by decide)) :=
    Reachable.of_run_any overlappingRun (Option.some_get _).symm
  have hacq : (((initial fun x : ℕ => x).run (program scopedLock) overlappingRun).get
      (by decide)).shared.acquisitions = [(true, 0, 1), (false, 1, 2)] := by decide
  refine ⟨_, (Option.some_get _).symm, hacq, ?_⟩
  have hserial := (serializable (fun x : ℕ => x) hr (by decide)).2.1
  rw [hserial, hacq]
  rfl

end ConcurrencyInAction.Swap
