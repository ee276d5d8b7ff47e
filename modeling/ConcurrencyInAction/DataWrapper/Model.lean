import ConcurrencyInAction.Lib.LockDiscipline

/-!
# `DataWrapper` and `evil_function`: the accesses

Threads that call `x.process_data(func)` and `unprotected->do_something()`, one statement after the
other, with `unprotected` as the plain pointer that it is.

* `next`: the accesses that the statements make; a function other than `evil_function` is any one
  that accesses its argument only, and leaves the section returning or throwing;
* `foo`: the three statements of the function;
* `Performs`: **what a thread does at each place**, with what it did before;
* `IsExecution.soleLock`: the mutex is what synchronizes, and nothing else does.

`do_something` has an empty body and accesses nothing.
-/

namespace ConcurrencyInAction.DataWrapper

open MemoryModel MemoryModel.Execution

variable {T D : Type*}

inductive Location where
  | m
  | data
  | unprotected
  deriving DecidableEq

/-- Whether the mutex is held, the data, and a pointer: to the data or `nullptr`. -/
inductive Value (D : Type*) where
  | held (isHeld : Bool)
  | someData (d : D)
  | pointer (toData : Bool)
  deriving DecidableEq

/-- A function that is given to `process_data`. -/
inductive Function where
  | evilFunction
  | other
  deriving DecidableEq

inductive Statement where
  | processData (func : Function)
  | doSomething
  deriving DecidableEq

/-- `foo`. -/
def foo : List Statement :=
  [.processData .evilFunction, .processData .evilFunction, .doSomething]

/-- Where a thread is, with the statements that it has still to execute. -/
inductive Thread where
  | statement (rest : List Statement)
  | inFunc (func : Function) (rest : List Statement)
  | unlock (rest : List Statement)
  | undefined
  deriving DecidableEq

/-- The accesses of the statements. -/
def next (l : Thread) (act : Action Location (Value D)) : Option Thread :=
  match l, act with
  | .statement (.processData func :: rest), .update .acquire .m (.held false) (.held true) =>
      some (.inFunc func rest)
  | .statement (.doSomething :: rest), .read .unprotected (.pointer p) =>
      some (if p then .statement rest else .undefined)
  | .inFunc .evilFunction rest, .write .unprotected (.pointer true) => some (.unlock rest)
  | .inFunc .other rest, .read .data (.someData _) => some (.inFunc .other rest)
  | .inFunc .other rest, .write .data (.someData _) => some (.inFunc .other rest)
  | .inFunc .other rest, .store .release .m (.held false) => some (.statement rest)
  | .unlock rest, .store .release .m (.held false) => some (.statement rest)
  | _, _ => none

/-- The executions of threads with the statements `program`. -/
structure IsExecution (program : T → List Statement) (G : Execution T Location (Value D)) :
    Prop where
  mutex : G.initially .m = .held false
  pointer : G.initially .unprotected = .pointer false
  follows : ∀ t, Follows next (.statement (program t)) (G.actions t)

variable {program : T → List Statement} {G : Execution T Location (Value D)} {rule : Rule}
  {t u : T} {a b i j k : ℕ} {act : Action Location (Value D)} {p : Bool}

/-! ### What a thread has done before -/

/-- The thread has been in `process_data` since its place `a`. -/
abbrev HasLock (G : Execution T Location (Value D)) (t : T) (a i : ℕ) : Prop :=
  G.Holds .m (.held false) t a i

/-- It enters `process_data` there. -/
abbrev Enters (G : Execution T Location (Value D)) (t : T) (a : ℕ) : Prop :=
  G.Takes .m (.held false) t a

/-- It reads `unprotected` there. -/
def ReadsUnprotected (G : Execution T Location (Value D)) (t : T) (j : ℕ) (p : Bool) : Prop :=
  G.action (.nth t j) = some (.read .unprotected (.pointer p))

/-- It writes `unprotected` there. -/
def WritesUnprotected (G : Execution T Location (Value D)) (t : T) (j : ℕ) : Prop :=
  G.action (.nth t j) = some (.write .unprotected (.pointer true))

/-- It has passed out the pointer since its place `a`. -/
def Leaked (G : Execution T Location (Value D)) (t : T) (a i : ℕ) : Prop :=
  ∃ j, a < j ∧ j < i ∧ WritesUnprotected G t j

/-- It has last been in `process_data` from its place `a` on, and has passed out the pointer there,
if it does nothing else there. -/
structure LastCall (program : T → List Statement) (G : Execution T Location (Value D)) (t : T)
    (i a : ℕ) : Prop where
  enters : Enters G t a
  last : ∀ c, c < i → Enters G t c → c ≤ a
  leaked : (∃ j, HasLock G t a j ∧ WritesUnprotected G t j ∧ j < i) ∨
    .processData .other ∈ program t

/-- It has been in `process_data`, or has only executed the other statement so far. -/
def Begun (program : T → List Statement) (G : Execution T Location (Value D)) (t : T) (i : ℕ)
    (rest : List Statement) : Prop :=
  (∃ a, LastCall program G t i a) ∨ ∃ n, program t = List.replicate n .doSomething ++ rest

/-- What is known of a thread. -/
def Thread.Knows (program : T → List Statement) (G : Execution T Location (Value D)) (t : T)
    (i : ℕ) : Thread → Prop
  | .statement rest => (∀ a, ¬ HasLock G t a i) ∧ Begun program G t i rest ∧
      ∀ s ∈ rest, s ∈ program t
  | .inFunc func rest => (∃ a, HasLock G t a i) ∧ .processData func ∈ program t ∧
      ∀ s ∈ rest, s ∈ program t
  | .unlock rest => (∃ a, HasLock G t a i ∧ Leaked G t a i) ∧ ∀ s ∈ rest, s ∈ program t
  | .undefined => True

/-- What a thread does at a place. -/
inductive Performs (program : T → List Statement) (G : Execution T Location (Value D)) (t : T)
    (i : ℕ) : Action Location (Value D) → Prop
  | lock : Performs program G t i (.update .acquire .m (.held false) (.held true))
  | evil : (∃ a, HasLock G t a i) →
      Performs program G t i (.write .unprotected (.pointer true))
  | readData (d : D) : (∃ a, HasLock G t a i) →
      Performs program G t i (.read .data (.someData d))
  | writeData (d : D) : (∃ a, HasLock G t a i) →
      Performs program G t i (.write .data (.someData d))
  | unlock : (∃ a, HasLock G t a i ∧ (Leaked G t a i ∨ .processData .other ∈ program t)) →
      Performs program G t i (.store .release .m (.held false))
  | doSomething (p : Bool) (rest : List Statement) : (∀ a, ¬ HasLock G t a i) →
      Begun program G t i (.doSomething :: rest) →
      Performs program G t i (.read .unprotected (.pointer p))

/-- Other locations are not the mutex. -/
theorem not_accesses_m (hact : G.action (.nth t i) = some act) (hloc : act.location ≠ .m) :
    ¬ G.Accesses (.nth t i) .m := fun hm => hloc (location_of_accesses hact hm)

/-- Outside remains outside. -/
theorem not_hasLock_succ (h : ∀ a, ¬ HasLock G t a i)
    (hact : G.action (.nth t i) = some (.read .unprotected (.pointer p))) (a : ℕ) :
    ¬ HasLock G t a (i + 1) := by
  intro hheld
  rcases Nat.lt_succ_iff_lt_or_eq.mp hheld.lt with hlt | heq
  · exact h a ⟨hlt, hheld.takes, fun k hak hki =>
      hheld.untouched k hak (Nat.lt_succ_of_lt hki)⟩
  · subst heq
    obtain ⟨o, w, -, htakes⟩ := hheld.takes
    exact nomatch hact.symm.trans htakes

/-- The section is left. -/
theorem not_hasLock_unlock
    (hact : G.action (.nth t i) = some (.store .release .m (.held false))) (a : ℕ) :
    ¬ HasLock G t a (i + 1) := by
  intro hheld
  rcases Nat.lt_succ_iff_lt_or_eq.mp hheld.lt with hlt | heq
  · exact hheld.untouched i hlt (Nat.lt_succ_self i) (.of_action hact)
  · subst heq
    obtain ⟨o, w, -, htakes⟩ := hheld.takes
    exact nomatch hact.symm.trans htakes

theorem LastCall.of_unlock (h : HasLock G t a i)
    (hleaked : Leaked G t a i ∨ .processData .other ∈ program t)
    (hact : G.action (.nth t i) = some (.store .release .m (.held false))) :
    LastCall program G t (i + 1) a where
  enters := h.takes
  last c hc hcall := by
    by_contra hca
    rcases Nat.lt_succ_iff_lt_or_eq.mp hc with hlt | heq
    · exact h.untouched c (Nat.lt_of_not_le hca) hlt hcall.modifies.accesses
    · subst heq
      obtain ⟨o, w, -, htakes⟩ := hcall
      exact nomatch hact.symm.trans htakes
  leaked := by
    rcases hleaked with ⟨j, haj, hji, hwrites⟩ | hother
    · exact .inl ⟨j, h.before haj (Nat.le_of_lt hji), hwrites, Nat.lt_succ_of_lt hji⟩
    · exact .inr hother

theorem LastCall.doSomething (h : LastCall program G t i a) (hread : ReadsUnprotected G t i p) :
    LastCall program G t (i + 1) a where
  enters := h.enters
  last c hc hcall := by
    rcases Nat.lt_succ_iff_lt_or_eq.mp hc with hlt | heq
    · exact h.last c hlt hcall
    · subst heq
      obtain ⟨o, w, -, htakes⟩ := hcall
      exact nomatch hread.symm.trans htakes
  leaked := by
    rcases h.leaked with ⟨j, hheld, hwrites, hji⟩ | hother
    · exact .inl ⟨j, hheld, hwrites, Nat.lt_succ_of_lt hji⟩
    · exact .inr hother

theorem Begun.doSomething {rest : List Statement}
    (h : Begun program G t i (.doSomething :: rest)) (hread : ReadsUnprotected G t i p) :
    Begun program G t (i + 1) rest := by
  rcases h with ⟨a, ha⟩ | ⟨n, hn⟩
  · exact .inl ⟨a, ha.doSomething hread⟩
  · refine .inr ⟨n + 1, ?_⟩
    rw [hn, List.replicate_succ', List.append_assoc]
    rfl

/-- **One access.** -/
theorem step_knows {l l' : Thread} (hl : l.Knows program G t i)
    (hact : G.action (.nth t i) = some act) (h : next l act = some l') :
    Performs program G t i act ∧ l'.Knows program G t (i + 1) := by
  have hleft : ∀ {a} {rest : List Statement}, HasLock G t a i →
      (Leaked G t a i ∨ .processData .other ∈ program t) → (∀ s ∈ rest, s ∈ program t) →
      act = .store .release .m (.held false) →
      (Thread.statement rest).Knows program G t (i + 1) := by
    intro a rest ha hleaked hrest he
    subst he
    exact ⟨not_hasLock_unlock hact, .inl ⟨a, .of_unlock ha hleaked hact⟩, hrest⟩
  unfold next at h
  split at h
  · rename_i func rest
    cases h
    obtain ⟨-, -, hrest⟩ := hl
    have htakes : Enters G t i := ⟨.acquire, .held true, nofun, hact⟩
    exact ⟨.lock, ⟨i, .of_takes htakes⟩, hrest _ List.mem_cons_self,
      fun s hs => hrest s (List.mem_cons_of_mem _ hs)⟩
  · rename_i rest p
    cases h
    obtain ⟨hout, hbegun, hrest⟩ := hl
    refine ⟨.doSomething p rest hout hbegun, ?_⟩
    cases p with
    | false => exact trivial
    | true =>
      exact ⟨not_hasLock_succ hout hact, hbegun.doSomething hact,
        fun s hs => hrest s (List.mem_cons_of_mem _ hs)⟩
  · rename_i rest
    cases h
    obtain ⟨⟨a, ha⟩, -, hrest⟩ := hl
    exact ⟨.evil ⟨a, ha⟩, ⟨a, ha.step (not_accesses_m hact nofun), i, ha.lt, Nat.lt_succ_self i,
      hact⟩, hrest⟩
  · rename_i rest d
    cases h
    obtain ⟨⟨a, ha⟩, hfunc, hrest⟩ := hl
    exact ⟨.readData d ⟨a, ha⟩, ⟨a, ha.step (not_accesses_m hact nofun)⟩, hfunc, hrest⟩
  · rename_i rest d
    cases h
    obtain ⟨⟨a, ha⟩, hfunc, hrest⟩ := hl
    exact ⟨.writeData d ⟨a, ha⟩, ⟨a, ha.step (not_accesses_m hact nofun)⟩, hfunc, hrest⟩
  · cases h
    obtain ⟨⟨a, ha⟩, hfunc, hrest⟩ := hl
    exact ⟨.unlock ⟨a, ha, .inr hfunc⟩, hleft ha (.inr hfunc) hrest rfl⟩
  · cases h
    obtain ⟨⟨a, ha, hleaked⟩, hrest⟩ := hl
    exact ⟨.unlock ⟨a, ha, .inl hleaked⟩, hleft ha (.inl hleaked) hrest rfl⟩
  · cases h

namespace IsExecution

theorem performs (hG : IsExecution program G) (h : G.action (.nth t i) = some act) :
    Performs program G t i act := by
  have hstart : (Thread.statement (program t)).Knows program G t 0 :=
    ⟨fun a ha => Nat.not_lt_zero a ha.lt, .inr ⟨0, rfl⟩, fun s hs => hs⟩
  obtain ⟨l, l', hl, hnext⟩ := (hG.follows t).before _ _ (fun i l => l.Knows program G t i)
    hstart (fun i l act l' hl hact hnext => (step_knows hl hact hnext).2) i act h
  exact (step_knows hl h hnext).1

/-- **The mutex, and nothing else.** -/
theorem soleLock (hG : IsExecution program G) : G.SoleLock .m (.held false) where
  acquires t i o v w h := by
    cases hG.performs h with
    | lock => exact ⟨nofun, .of_action h (.inl rfl)⟩
  releases t i o v h := by
    cases hG.performs h with
    | unlock hheld =>
      obtain ⟨a, ha, -⟩ := hheld
      exact ⟨rfl, .of_action h (.inl rfl), a, ha⟩
  atomic t i act h hloc := by
    cases hG.performs h with
    | lock => exact .inl ⟨_, _, _, rfl⟩
    | unlock hheld => exact .inr ⟨_, _, rfl⟩
    | evil hheld => exact nomatch hloc
    | readData d hheld => exact nomatch hloc
    | writeData d hheld => exact nomatch hloc
    | doSomething p rest hout hbegun => exact nomatch hloc
  waits t i o v w h := by
    cases hG.performs h with
    | lock => exact ⟨rfl, rfl⟩
  sole t i h := by
    obtain ⟨act, hact, hrel⟩ := h
    cases hG.performs hact with
    | unlock hheld => exact .of_action hact
    | lock => exact (hrel.elim nofun nofun)
    | evil hheld => exact hrel.elim
    | readData d hheld => exact hrel.elim
    | writeData d hheld => exact hrel.elim
    | doSomething p rest hout hbegun => exact hrel.elim

end IsExecution

end ConcurrencyInAction.DataWrapper
