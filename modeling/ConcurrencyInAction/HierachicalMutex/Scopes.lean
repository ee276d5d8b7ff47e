import ConcurrencyInAction.HierachicalMutex.Representation
import ConcurrencyInAction.Lib.Exceptions

/-!
# Nested `lock_guard` scopes

One thread that runs nested scopes, each with a `std::lock_guard` on a `hierachical_mutex`, while no
other thread takes a step.

* `callMember`: a call of a member function, run to its end by the steps of the code;
* `Scopes`, `Scopes.run`: the trees of nested scopes and what a thread does with one; the destructor
  of a guard calls `unlock` on every way out of its scope, and terminates when `unlock` throws;
* `Scopes.preorder`: the scopes in the order in which the thread gets to them, each with the level
  of the scope around it; `attempts`: the calls of `lock` that this gives, up to the first that
  throws;
* `Holding`: what holds between two calls, for a thread that holds a given stack of mutexes;
* `nested_guards`: which runs complete, where the others throw, and what is restored.
-/

namespace ConcurrencyInAction.HierachicalMutex

open Interleaving ExclusiveLock Exceptions

variable {T M : Type*}

/-! ### The code -/

/-- The mutexes and the thread, and the calls that it has made, with their outcomes. -/
structure Execution (T M : Type*) where
  shared : Shared T M
  thread : Thread M
  calls : List (Call M × Option Outcome)

/-- Scopes one after the other: a scope has a guard on one mutex, scopes inside it, and scopes that
follow it. -/
inductive Scopes (M : Type*) where
  | nil
  | scope (mutex : M) (inner next : Scopes M)

section Code

variable [DecidableEq T] [DecidableEq M] (hierarchyValue : M → UInt64) (t : T)

/-- The thread takes up to `n` steps, until it is outside every member function. -/
def runToEnd : ℕ → Shared T M × Thread M → Option (Shared T M × Thread M)
  | 0, r => if r.2.point = .idle then some r else none
  | n + 1, r =>
      if r.2.point = .idle then some r
      else (program hierarchyValue t .run r.1 r.2).bind (runToEnd n)

/-- A call of a member function; none takes more than four steps.  The exception that leaves it is
that of its `Outcome`; a thread that does not get to the end is stuck. -/
def callMember (f : Call M) : Prog (Execution T M) Unit := fun x =>
  match (program hierarchyValue t (.call f) x.shared x.thread).bind
      (runToEnd hierarchyValue t 4) with
  | none => .stopped .undefinedBehaviour
  | some (g, l) =>
      match l.outcome with
      | some (.logicError what) => .threw what ⟨g, l, x.calls ++ [(f, l.outcome)]⟩
      | _ => .returned () ⟨g, l, x.calls ++ [(f, l.outcome)]⟩

/-- The scopes in turn.  The guard of a scope locks its mutex and unlocks it on the way out. -/
def Scopes.run : Scopes M → Prog (Execution T M) Unit
  | .nil => pure ()
  | .scope mutex inner next => do
      callMember hierarchyValue t (.lock mutex)
      .inScope (callMember hierarchyValue t (.unlock mutex)) (run inner)
      run next

end Code

/-! ### What the scopes are -/

/-- The scopes in the order in which they are entered, each with the level of the scope around
it. -/
def Scopes.preorder (hierarchyValue : M → UInt64) : UInt64 → Scopes M → List (UInt64 × M)
  | _, .nil => []
  | enclosing, .scope mutex inner next =>
      (enclosing, mutex) ::
        (preorder hierarchyValue (hierarchyValue mutex) inner ++
          preorder hierarchyValue enclosing next)

/-- The mutex of the scope lies strictly below the scope around it. -/
def Below (hierarchyValue : M → UInt64) (p : UInt64 × M) : Prop := hierarchyValue p.2 < p.1

instance (hierarchyValue : M → UInt64) : DecidablePred (Below hierarchyValue) :=
  fun p => inferInstanceAs (Decidable (hierarchyValue p.2 < p.1))

/-- Every scope lies strictly below the one around it. -/
def Fits (hierarchyValue : M → UInt64) (ps : List (UInt64 × M)) : Prop :=
  ∀ p ∈ ps, Below hierarchyValue p

instance (hierarchyValue : M → UInt64) : DecidablePred (Fits hierarchyValue) :=
  fun ps => inferInstanceAs (Decidable (∀ p ∈ ps, Below hierarchyValue p))

/-- The calls of `lock` on entering the scopes: they return, up to the first scope that does not lie
below the one around it, and there the call throws. -/
def attempts (hierarchyValue : M → UInt64) (ps : List (UInt64 × M)) :
    List (Call M × Option Outcome) :=
  (ps.takeWhile (Below hierarchyValue ·)).map (fun p => (.lock p.2, some .returned)) ++
    ((ps.find? (¬ Below hierarchyValue ·)).map fun p =>
      (.lock p.2, some (.logicError hierarchyViolated))).toList

def Call.isLock : Call M → Bool
  | .lock _ => true
  | _ => false

/-- The calls of `lock` among the calls. -/
def locks (calls : List (Call M × Option Outcome)) : List (Call M × Option Outcome) :=
  calls.filter (·.1.isLock)

variable {hierarchyValue : M → UInt64}

theorem attempts_cons_of_below {p : UInt64 × M} (hp : Below hierarchyValue p)
    (ps : List (UInt64 × M)) :
    attempts hierarchyValue (p :: ps) =
      (.lock p.2, some .returned) :: attempts hierarchyValue ps := by
  simp [attempts, hp]

theorem attempts_cons_of_not_below {p : UInt64 × M} (hp : ¬ Below hierarchyValue p)
    (ps : List (UInt64 × M)) :
    attempts hierarchyValue (p :: ps) = [(.lock p.2, some (.logicError hierarchyViolated))] := by
  simp [attempts, hp]

theorem attempts_append_of_fits {ps : List (UInt64 × M)} (h : Fits hierarchyValue ps)
    (qs : List (UInt64 × M)) :
    attempts hierarchyValue (ps ++ qs) =
      attempts hierarchyValue ps ++ attempts hierarchyValue qs := by
  induction ps with
  | nil => simp [attempts]
  | cons p ps ih =>
    have hp : Below hierarchyValue p := h p List.mem_cons_self
    have hps : Fits hierarchyValue ps := fun q hq => h q (List.mem_cons_of_mem p hq)
    rw [List.cons_append, attempts_cons_of_below hp, attempts_cons_of_below hp, ih hps,
      List.cons_append]

theorem attempts_append_of_not_fits {ps : List (UInt64 × M)} (h : ¬ Fits hierarchyValue ps)
    (qs : List (UInt64 × M)) :
    attempts hierarchyValue (ps ++ qs) = attempts hierarchyValue ps := by
  induction ps with
  | nil => exact absurd (fun p hp => nomatch hp) h
  | cons p ps ih =>
    by_cases hp : Below hierarchyValue p
    · have hps : ¬ Fits hierarchyValue ps := fun hfits => h (List.forall_mem_cons.mpr ⟨hp, hfits⟩)
      rw [List.cons_append, attempts_cons_of_below hp, attempts_cons_of_below hp, ih hps]
    · rw [List.cons_append, attempts_cons_of_not_below hp, attempts_cons_of_not_below hp]

/-! ### Between two calls -/

section Calls

variable [DecidableEq T] [DecidableEq M] {t : T} {x₀ x : Execution T M} {held : List M} {m : M}
  {ls : List (Call M × Option Outcome)}

/-- The thread is outside every member function and holds the mutexes `held`; everybody else holds
what they held in `x₀`; no `unlock` has thrown; and the steps so far are a run of the code. -/
structure Holding (hierarchyValue : M → UInt64) (t : T) (x₀ : Execution T M) (held : List M)
    (x : Execution T M) : Prop where
  idle : x.thread.point = .idle
  acquired : x.thread.acquired = held
  level : x.thread.thisThreadHierarchyValue = level hierarchyValue held
  saved : Saved hierarchyValue x.shared.previousHierarchyValue held
  descending : Descending hierarchyValue held
  owner : ∀ m, x.shared.internalMutex m =
    if m ∈ held then some t else x₀.shared.internalMutex m
  unlocks : ∀ m o, (.unlock m, o) ∈ x.calls → o = some .returned
  reached : ∃ cs, Config.solo (program hierarchyValue) t (x₀.shared, x₀.thread) cs =
    some (x.shared, x.thread)

/-- Between two calls, when the calls of `lock` so far are `ls`. -/
def Between (hierarchyValue : M → UInt64) (t : T) (x₀ : Execution T M) (held : List M)
    (ls : List (Call M × Option Outcome)) (x : Execution T M) : Prop :=
  Holding hierarchyValue t x₀ held x ∧ locks x.calls = ls

theorem solo_of_runToEnd : ∀ (n : ℕ) (r r' : Shared T M × Thread M),
    runToEnd hierarchyValue t n r = some r' →
      ∃ cs, Config.solo (program hierarchyValue) t r cs = some r' := by
  intro n
  induction n with
  | zero =>
    intro r r' h
    obtain ⟨-, h⟩ := Option.ite_none_right_eq_some.mp h
    cases h
    exact ⟨[], rfl⟩
  | succ n ih =>
    intro r r' h
    rw [runToEnd] at h
    split at h
    · cases h
      exact ⟨[], rfl⟩
    · obtain ⟨r₁, hp, hrest⟩ := Option.bind_eq_some_iff.mp h
      obtain ⟨cs, hcs⟩ := ih r₁ r' hrest
      refine ⟨.run :: cs, ?_⟩
      rw [Config.solo, hp]
      exact hcs

/-- A call is a run of the code. -/
theorem Holding.reached_call {f : Call M} {r : Shared T M × Thread M}
    (h : Holding hierarchyValue t x₀ held x)
    (hcall : (program hierarchyValue t (.call f) x.shared x.thread).bind
      (runToEnd hierarchyValue t 4) = some r) :
    ∃ cs, Config.solo (program hierarchyValue) t (x₀.shared, x₀.thread) cs = some r := by
  obtain ⟨cs, hcs⟩ := h.reached
  obtain ⟨r₁, hp, hrest⟩ := Option.bind_eq_some_iff.mp hcall
  obtain ⟨ds, hds⟩ := solo_of_runToEnd 4 r₁ r hrest
  refine ⟨cs ++ .call f :: ds, ?_⟩
  rw [Config.solo_append cs _ _ _ hcs, Config.solo, hp]
  exact hds

/-- `lock` on a free mutex strictly below the thread's level. -/
theorem runToEnd_lock (hidle : x.thread.point = .idle)
    (hlt : hierarchyValue m < x.thread.thisThreadHierarchyValue)
    (hfree : x.shared.internalMutex m = none) :
    (program hierarchyValue t (.call (.lock m)) x.shared x.thread).bind
        (runToEnd hierarchyValue t 4) =
      some ((x.shared.take t m).save m x.thread.thisThreadHierarchyValue,
        ⟨hierarchyValue m, .idle, some .returned, m :: x.thread.acquired⟩) := by
  have hle : ¬ x.thread.thisThreadHierarchyValue ≤ hierarchyValue m := UInt64.not_le.mpr hlt
  simp [program, hidle, runToEnd, checkForHierarchyViolation, Thread.enter, Thread.goto,
    Thread.finish, hle, hfree]

/-- `lock` of a mutex that is not below the thread's level. -/
theorem runToEnd_lock_throws (hidle : x.thread.point = .idle)
    (hle : x.thread.thisThreadHierarchyValue ≤ hierarchyValue m) :
    (program hierarchyValue t (.call (.lock m)) x.shared x.thread).bind
        (runToEnd hierarchyValue t 4) =
      some (x.shared, x.thread.finish (.logicError hierarchyViolated)) := by
  simp [program, hidle, runToEnd, checkForHierarchyViolation, Thread.enter, Thread.finish, hle]

/-- `unlock` of the mutex acquired last. -/
theorem runToEnd_unlock (hidle : x.thread.point = .idle)
    (hlevel : x.thread.thisThreadHierarchyValue = hierarchyValue m)
    (hheld : x.shared.internalMutex m = some t) :
    (program hierarchyValue t (.call (.unlock m)) x.shared x.thread).bind
        (runToEnd hierarchyValue t 4) =
      some (x.shared.release m, ⟨x.shared.previousHierarchyValue m, .idle, some .returned,
        x.thread.acquired.erase m⟩) := by
  simp [program, hidle, runToEnd, Thread.enter, Thread.goto, Thread.finish, hlevel, hheld]

/-- The guard's constructor below the thread's level: the thread holds one mutex more. -/
theorem lock_spec (hlt : hierarchyValue m < level hierarchyValue held)
    (hfree : x₀.shared.internalMutex m = none) :
    Triple (Between hierarchyValue t x₀ held ls) (callMember hierarchyValue t (.lock m))
      (fun _ => Between hierarchyValue t x₀ (m :: held) (ls ++ [(.lock m, some .returned)]))
      never := by
  intro x hx
  obtain ⟨h, hls⟩ := hx
  have hd : Descending hierarchyValue (m :: held) := h.descending.cons hlt
  have hnone : x.shared.internalMutex m = none := by rw [h.owner, if_neg hd.not_mem, hfree]
  have hcall := runToEnd_lock (t := t) h.idle (h.level ▸ hlt) hnone
  unfold callMember
  rw [hcall]
  refine ⟨⟨rfl, congrArg (List.cons m) h.acquired, rfl, ⟨?_, ?_⟩, hd, fun y => ?_, fun y o hy => ?_,
    h.reached_call hcall⟩, ?_⟩
  · simp [Shared.save, h.level]
  · refine h.saved.congr fun y hy => ?_
    have hne : y ≠ m := fun he => hd.not_mem (he ▸ hy)
    exact Function.update_of_ne hne _ _
  · show Function.update x.shared.internalMutex m (some t) y = _
    by_cases hy : y = m
    · subst hy
      rw [Function.update_self, if_pos List.mem_cons_self]
    · rw [Function.update_of_ne hy, h.owner]
      exact (if_congr (List.mem_cons.trans (or_iff_right hy)) rfl rfl).symm
  · rcases List.mem_append.mp hy with hy | hy
    · exact h.unlocks y o hy
    · simp at hy
  · rw [locks, List.filter_append, ← locks, hls]
    rfl

/-- The guard's constructor at or above the thread's level throws, and nothing has changed. -/
theorem lock_spec_throws (hle : ¬ hierarchyValue m < level hierarchyValue held) :
    Triple (Between hierarchyValue t x₀ held ls) (callMember hierarchyValue t (.lock m))
      (fun _ _ => False)
      (fun what x => what = hierarchyViolated ∧ Between hierarchyValue t x₀ held
        (ls ++ [(.lock m, some (.logicError hierarchyViolated))]) x) := by
  intro x hx
  obtain ⟨h, hls⟩ := hx
  have hcall := runToEnd_lock_throws (t := t) h.idle (h.level ▸ UInt64.not_lt.mp hle)
  unfold callMember
  rw [hcall]
  refine ⟨rfl, ⟨rfl, h.acquired, h.level, h.saved, h.descending, h.owner, fun y o hy => ?_,
    h.reached_call hcall⟩, ?_⟩
  · rcases List.mem_append.mp hy with hy | hy
    · exact h.unlocks y o hy
    · simp at hy
  · rw [locks, List.filter_append, ← locks, hls]
    rfl

/-- The guard's destructor: the thread holds one mutex less, and its level is what it was. -/
theorem unlock_spec (hfree : x₀.shared.internalMutex m = none) :
    Triple (Between hierarchyValue t x₀ (m :: held) ls) (callMember hierarchyValue t (.unlock m))
      (fun _ => Between hierarchyValue t x₀ held ls) never := by
  intro x hx
  obtain ⟨h, hls⟩ := hx
  have hown : x.shared.internalMutex m = some t := by rw [h.owner, if_pos List.mem_cons_self]
  have hcall := runToEnd_unlock h.idle h.level hown
  unfold callMember
  rw [hcall]
  refine ⟨⟨rfl, ?_, h.saved.1, h.saved.2, (List.pairwise_cons.mp h.descending).2, fun y => ?_,
    fun y o hy => ?_, h.reached_call hcall⟩, ?_⟩
  · show x.thread.acquired.erase m = held
    rw [h.acquired, List.erase_cons_head]
  · show Function.update x.shared.internalMutex m none y = _
    by_cases hy : y = m
    · subst hy
      rw [Function.update_self, if_neg h.descending.not_mem, hfree]
    · rw [Function.update_of_ne hy, h.owner]
      exact if_congr (List.mem_cons.trans (or_iff_right hy)) rfl rfl
  · rcases List.mem_append.mp hy with hy | hy
    · exact h.unlocks y o hy
    · rw [List.mem_singleton, Prod.mk.injEq] at hy
      exact hy.2
  · rw [locks, List.filter_append, ← locks, hls]
    exact List.append_nil ls

/-- A program that enters the scopes `ps`, with the mutexes `held` before and after: it returns if
all of them fit, and otherwise throws at the first one that does not. -/
def Enters (hierarchyValue : M → UInt64) (t : T) (x₀ : Execution T M) (held : List M)
    (ls : List (Call M × Option Outcome)) (ps : List (UInt64 × M))
    (p : Prog (Execution T M) Unit) : Prop :=
  Triple (Between hierarchyValue t x₀ held ls) p
    (fun _ x => Fits hierarchyValue ps ∧
      Between hierarchyValue t x₀ held (ls ++ attempts hierarchyValue ps) x)
    (fun what x => (what = hierarchyViolated ∧ ¬ Fits hierarchyValue ps) ∧
      Between hierarchyValue t x₀ held (ls ++ attempts hierarchyValue ps) x)

variable {ps qs : List (UInt64 × M)} {p q : Prog (Execution T M) Unit}

theorem Enters.nil : Enters hierarchyValue t x₀ held ls [] (pure ()) := by
  intro x hx
  refine ⟨fun p hp => absurd hp List.not_mem_nil, ?_⟩
  rw [show ls ++ attempts hierarchyValue [] = ls from List.append_nil ls]
  exact hx

/-- Scopes one after the other. -/
theorem Enters.append (hp : Enters hierarchyValue t x₀ held ls ps p)
    (hq : Enters hierarchyValue t x₀ held (ls ++ attempts hierarchyValue ps) qs q) :
    Enters hierarchyValue t x₀ held ls (ps ++ qs) (p >>= fun _ => q) := by
  refine Triple.bind (Q := fun _ x => Fits hierarchyValue ps ∧
    Between hierarchyValue t x₀ held (ls ++ attempts hierarchyValue ps) x) ?_ fun _ => ?_
  · refine hp.conseq (fun _ _ hx => hx) ?_
    intro what x h
    obtain ⟨⟨hwhat, hps⟩, hx⟩ := h
    refine ⟨⟨hwhat, fun hall => hps fun p hp => hall p (List.mem_append_left qs hp)⟩, ?_⟩
    rw [attempts_append_of_not_fits hps]
    exact hx
  · refine Triple.assuming fun hps => ?_
    rw [attempts_append_of_fits hps, ← List.append_assoc]
    have hfits : Fits hierarchyValue (ps ++ qs) ↔ Fits hierarchyValue qs :=
      List.forall_mem_append.trans (and_iff_right hps)
    rw [hfits]
    exact hq

/-- A scope: the scopes inside it are run with its mutex held, which the guard gives back however
they end.  If it is not below the level of the thread, the thread does not get inside. -/
theorem Enters.scope (hfree : x₀.shared.internalMutex m = none)
    (hp : Enters hierarchyValue t x₀ (m :: held) (ls ++ [(.lock m, some .returned)]) ps p) :
    Enters hierarchyValue t x₀ held ls ((level hierarchyValue held, m) :: ps)
      (callMember hierarchyValue t (.lock m) >>= fun _ =>
        .inScope (callMember hierarchyValue t (.unlock m)) p) := by
  by_cases hlt : Below hierarchyValue (level hierarchyValue held, m)
  · have hattempts : ls ++ attempts hierarchyValue ((level hierarchyValue held, m) :: ps) =
        ls ++ [(.lock m, some .returned)] ++ attempts hierarchyValue ps := by
      rw [attempts_cons_of_below hlt, List.append_assoc]
      rfl
    have hfits : Fits hierarchyValue ((level hierarchyValue held, m) :: ps) ↔
        Fits hierarchyValue ps := List.forall_mem_cons.trans (and_iff_right hlt)
    unfold Enters
    rw [hattempts, hfits]
    refine (lock_spec hlt hfree).of_never.bind fun _ => ?_
    refine Triple.inScope hp (fun _ => ?_) fun what => ?_
    · refine Triple.assuming fun hps => ?_
      exact (unlock_spec hfree).post fun _ _ hx => ⟨hps, hx⟩
    · refine Triple.assuming fun hps => ?_
      exact (unlock_spec hfree).post fun _ _ hx => ⟨hps, hx⟩
  · unfold Enters
    rw [attempts_cons_of_not_below hlt]
    have hnot : ¬ Fits hierarchyValue ((level hierarchyValue held, m) :: ps) :=
      fun hall => hlt (hall _ List.mem_cons_self)
    refine Triple.bind (Q := fun _ _ => False) ?_ fun _ _ hx => hx.elim
    refine (lock_spec_throws hlt).conseq (fun _ _ hx => hx) ?_
    exact fun what x hx => ⟨⟨hx.1, hnot⟩, hx.2⟩

/-- **The scopes of a tree**, run by a thread that holds the mutexes `held`. -/
theorem Scopes.run_spec (scopes : Scopes M) : ∀ (held : List M)
    (ls : List (Call M × Option Outcome)),
    (∀ p ∈ scopes.preorder hierarchyValue (HierachicalMutex.level hierarchyValue held),
      x₀.shared.internalMutex p.2 = none) →
    Enters hierarchyValue t x₀ held ls
      (scopes.preorder hierarchyValue (HierachicalMutex.level hierarchyValue held))
      (scopes.run hierarchyValue t) := by
  induction scopes with
  | nil => exact fun held ls _ => .nil
  | scope mutex inner next ihInner ihNext =>
    intro held ls hfree
    rw [preorder, List.forall_mem_cons, List.forall_mem_append] at hfree
    obtain ⟨hmutex, hinner, hnext⟩ := hfree
    rw [preorder, Scopes.run, ← Prog.bind_assoc, ← List.cons_append]
    exact (Enters.scope hmutex (ihInner (mutex :: held) _ hinner)).append (ihNext held _ hnext)

/-- **Nested guards.**  From any reachable state in which the thread is outside every member
function and holds nothing, and the mutexes of the scopes are free. -/
theorem nested_guards (hierarchyValue : M → UInt64) {s : Config T (Shared T M) (Thread M)}
    (hs : Reachable (program hierarchyValue) unlocksHeld initial s) {t : T}
    (hidle : (s.locals t).point = .idle) (hnone : ∀ m, s.shared.internalMutex m ≠ some t)
    (scopes : Scopes M)
    (hfree : ∀ p ∈ scopes.preorder hierarchyValue ulongMax, s.shared.internalMutex p.2 = none) :
    ∃ x : Execution T M,
      scopes.run hierarchyValue t ⟨s.shared, s.locals t, []⟩ =
        (if Fits hierarchyValue (scopes.preorder hierarchyValue ulongMax) then .returned () x
          else .threw hierarchyViolated x) ∧
      locks x.calls = attempts hierarchyValue (scopes.preorder hierarchyValue ulongMax) ∧
      (∀ m o, (.unlock m, o) ∈ x.calls → o = some .returned) ∧
      x.shared.internalMutex = s.shared.internalMutex ∧
      x.thread.thisThreadHierarchyValue = ulongMax ∧
      ∃ cs : List (Choice M), s.run (program hierarchyValue) (cs.map fun c => (t, c)) =
        some ⟨x.shared, Function.update s.locals t x.thread⟩ := by
  have ha := reachable_assertion hs t
  have hat := ha.atPoint
  simp only [AtPoint, hidle] at hat
  have hnil : (s.locals t).acquired = [] := by
    rw [List.eq_nil_iff_forall_not_mem]
    intro m hm
    exact hnone m ((ha.owns m).mp hm)
  have hstart : Between hierarchyValue t ⟨s.shared, s.locals t, []⟩ [] []
      ⟨s.shared, s.locals t, []⟩ := by
    refine ⟨⟨hidle, hnil, ?_, trivial, List.Pairwise.nil, fun m => rfl, ?_, [], rfl⟩, rfl⟩
    · rw [hat.1, hnil]
    · exact fun m o hm => absurd hm List.not_mem_nil
  -- what is asked of the state at the end holds between any two calls with nothing held
  have hend : ∀ {ls : List (Call M × Option Outcome)} {x : Execution T M},
      Between hierarchyValue t ⟨s.shared, s.locals t, []⟩ [] ([] ++ ls) x →
      locks x.calls = ls ∧ (∀ m o, (.unlock m, o) ∈ x.calls → o = some .returned) ∧
      x.shared.internalMutex = s.shared.internalMutex ∧
      x.thread.thisThreadHierarchyValue = ulongMax ∧
      ∃ cs : List (Choice M), s.run (program hierarchyValue) (cs.map fun c => (t, c)) =
        some ⟨x.shared, Function.update s.locals t x.thread⟩ := by
    intro ls x hx
    obtain ⟨h, hls⟩ := hx
    obtain ⟨cs, hcs⟩ := h.reached
    exact ⟨hls, h.unlocks, funext h.owner, h.level, cs, Config.run_of_solo cs s hcs⟩
  have hrun := Scopes.run_spec scopes [] [] hfree _ hstart
  cases hx : scopes.run hierarchyValue t ⟨s.shared, s.locals t, []⟩ with
  | returned a x =>
    rw [hx] at hrun
    obtain ⟨hfits, hbetween⟩ := hrun
    exact ⟨x, (if_pos hfits).symm, hend hbetween⟩
  | threw what x =>
    rw [hx] at hrun
    obtain ⟨⟨rfl, hfits⟩, hbetween⟩ := hrun
    exact ⟨x, (if_neg hfits).symm, hend hbetween⟩
  | stopped why =>
    rw [hx] at hrun
    exact hrun.elim

end Calls

/-- `thread_func`, with the guard that is commented out there in its innermost scope. -/
def threadFunc : Scopes GlobalMutex :=
  .scope .highLevelMutex (.scope .lowLevelMutex (.scope .highLevelMutex .nil .nil) .nil) .nil

theorem nested_guards_threadFunc :
    ∃ x : Execution Unit GlobalMutex,
      threadFunc.run globalHierarchyValue ()
          ⟨⟨fun _ => none, fun _ => 0⟩, ⟨ulongMax, .idle, none, []⟩, []⟩ =
        .threw hierarchyViolated x ∧
      locks x.calls =
        [(.lock .highLevelMutex, some .returned), (.lock .lowLevelMutex, some .returned),
          (.lock .highLevelMutex, some (.logicError hierarchyViolated))] ∧
      x.shared.internalMutex = fun _ => none := by
  obtain ⟨x, hrun, hlocks, -, hfree, -⟩ := nested_guards globalHierarchyValue .init (t := ()) rfl
    (fun m => (Option.some_ne_none ()).symm) threadFunc (by decide)
  exact ⟨x, hrun, hlocks, hfree⟩

end ConcurrencyInAction.HierachicalMutex
