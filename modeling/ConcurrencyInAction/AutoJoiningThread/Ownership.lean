import ConcurrencyInAction.AutoJoiningThread.Model
import Mathlib.Data.List.Count
import Mathlib.Data.Set.Insert
import Mathlib.Order.BooleanAlgebra.Set
import Mathlib.Logic.Equiv.Basic

/-!
# Ownership of the threads

* `Condition`: a thread is owned by one object, joined, or detached, or has not been started yet;
* `Accounted`: every thread is in one condition; what a `std::thread` does keeps it so
  (`Accounted.congr`, `Accounted.permute`, `Accounted.start`, `Accounted.release`);
* `Ok live`: the threads are accounted for and the objects in `live` are those that exist; the
  triples say what every member function does with it, and that it neither throws where it may not
  nor stops;
* `ownership`: the invariant after every sequence of operations.
-/

namespace ConcurrencyInAction.AutoJoiningThread

open Exceptions

variable {H : Type}

/-! ### The condition of a thread -/

/-- Where the responsibility for a thread lies. -/
inductive Condition (H : Type) where
  | unstarted
  | owned (o : Object H)
  | joined
  | detached
  deriving DecidableEq

section

variable [DecidableEq H]

/-- The thread with the number `i` is in the condition `c`, and in no other one. -/
structure HasCondition (s : System H) (i : ℕ) (c : Condition H) : Prop where
  started : i < s.started ↔ c ≠ .unstarted
  owned : ∀ o, s.threads o = some (some i) ↔ c = .owned o
  joined : s.joined.count i = if c = .joined then 1 else 0
  detached : s.detached.count i = if c = .detached then 1 else 0

/-- Every thread is in one condition. -/
def Accounted (s : System H) : Prop := ∀ i, ∃ c, HasCondition s i c

variable {s s' : System H} {o other : Object H} {i : ℕ}

theorem put_self (s : System H) (o : Object H) (t : Option StdThread) :
    (s.put o t).threads o = t := by
  show Function.update s.threads o t o = t
  rw [Function.update_self]

theorem put_of_ne {p : Object H} (hp : p ≠ o) (t : Option StdThread) :
    (s.put o t).threads p = s.threads p := by
  show Function.update s.threads o t p = s.threads p
  rw [Function.update_of_ne hp]

theorem put_idem (o : Object H) (t u : Option StdThread) : (s.put o t).put o u = s.put o u :=
  congrArg (fun f => ({ s with threads := f } : System H)) (Function.update_idem _ _ _)

/-- The owners are what counts. -/
theorem Accounted.congr (h : Accounted s)
    (howned : ∀ o i, s'.threads o = some (some i) ↔ s.threads o = some (some i))
    (hstarted : s'.started = s.started) (hjoined : s'.joined = s.joined)
    (hdetached : s'.detached = s.detached) : Accounted s' := by
  intro i
  obtain ⟨c, hc⟩ := h i
  refine ⟨c, ?_, fun o => (howned o i).trans (hc.owned o), ?_, ?_⟩
  · rw [hstarted]
    exact hc.started
  · rw [hjoined]
    exact hc.joined
  · rw [hdetached]
    exact hc.detached

/-- The objects exchange their threads. -/
theorem Accounted.permute (h : Accounted s) (e : Equiv.Perm (Object H)) :
    Accounted { s with threads := fun o => s.threads (e o) } := by
  intro i
  obtain ⟨c, hc⟩ := h i
  cases c with
  | owned o =>
    refine ⟨.owned (e.symm o), hc.started.trans (iff_of_true nofun nofun), fun p => ?_, hc.joined,
      hc.detached⟩
    show s.threads (e p) = _ ↔ _
    rw [hc.owned, Condition.owned.injEq, Condition.owned.injEq, Equiv.symm_apply_eq]
  | unstarted | joined | detached =>
    refine ⟨_, hc.started, fun p => ?_, hc.joined, hc.detached⟩
    exact (hc.owned (e p)).trans (iff_of_false nofun nofun)

/-- An object without a thread starts the next one. -/
theorem Accounted.start (h : Accounted s) (ho : ∀ i, s.threads o ≠ some (some i)) :
    Accounted ({ s with started := s.started + 1 }.put o (some (some s.started))) := by
  intro i
  obtain ⟨c, hc⟩ := h i
  by_cases hi : i = s.started
  · subst hi
    have hnew : c = .unstarted := by
      by_contra hne
      exact Nat.lt_irrefl _ (hc.started.mpr hne)
    subst hnew
    refine ⟨.owned o, iff_of_true (Nat.lt_succ_self _) nofun, fun p => ?_, hc.joined, hc.detached⟩
    by_cases hp : p = o
    · subst hp
      rw [put_self]
      exact iff_of_true rfl rfl
    · rw [put_of_ne hp, Condition.owned.injEq]
      exact (hc.owned p).trans (iff_of_false nofun (Ne.symm hp))
  · refine ⟨c, ?_, fun p => ?_, hc.joined, hc.detached⟩
    · rw [← hc.started]
      show i < s.started + 1 ↔ _
      omega
    · by_cases hp : p = o
      · subst hp
        rw [put_self, ← hc.owned]
        exact iff_of_false (fun he => hi (Option.some.inj (Option.some.inj he)).symm) (ho i)
      · rw [put_of_ne hp]
        exact hc.owned p

/-- The owner of a thread gives it up, and the thread is joined or detached. -/
theorem Accounted.release {j : ℕ} (h : Accounted s) (ho : s.threads o = some (some j))
    {joined detached : List ℕ} {c' : Condition H} (hc' : c' = .joined ∨ c' = .detached)
    (hjoined : ∀ i, joined.count i = s.joined.count i + if i = j ∧ c' = .joined then 1 else 0)
    (hdetached : ∀ i, detached.count i =
      s.detached.count i + if i = j ∧ c' = .detached then 1 else 0) :
    Accounted { s.put o (some none) with joined := joined, detached := detached } := by
  intro i
  obtain ⟨c, hc⟩ := h i
  by_cases hi : i = j
  · subst hi
    obtain rfl := (hc.owned o).mp ho
    have hj := hc.joined
    have hd := hc.detached
    rw [if_neg nofun] at hj hd
    refine ⟨c', hc.started.trans ?_, fun p => ?_, ?_, ?_⟩
    · rcases hc' with rfl | rfl <;> exact iff_of_true nofun nofun
    · have hnot : c' ≠ .owned p := by rcases hc' with rfl | rfl <;> exact nofun
      refine iff_of_false (fun hp => ?_) hnot
      by_cases hpo : p = o
      · subst hpo
        rw [show ({ s.put p (some none) with joined := joined, detached := detached } :
          System H).threads p = some none from put_self s p _] at hp
        exact nomatch hp
      · have hp' : s.threads p = some (some i) := (put_of_ne hpo _).symm.trans hp
        exact hpo (Condition.owned.inj ((hc.owned p).mp hp')).symm
    · show joined.count i = _
      rw [hjoined, hj]
      simp
    · show detached.count i = _
      rw [hdetached, hd]
      simp
  · refine ⟨c, hc.started, fun p => ?_, ?_, ?_⟩
    · by_cases hpo : p = o
      · subst hpo
        rw [← hc.owned, ho]
        show (s.put p (some none)).threads p = _ ↔ _
        rw [put_self]
        exact iff_of_false nofun (fun he => hi (Option.some.inj (Option.some.inj he)).symm)
      · exact (iff_of_eq (congrArg (· = _) (put_of_ne hpo _))).trans (hc.owned p)
    · show joined.count i = _
      rw [hjoined, if_neg (fun hij => hi hij.1), Nat.add_zero, hc.joined]
    · show detached.count i = _
      rw [hdetached, if_neg (fun hij => hi hij.1), Nat.add_zero, hc.detached]

/-! ### What a `std::thread` does -/

/-- The threads are accounted for, and `live` are the objects that exist. -/
structure Ok (live : Set (Object H)) (s : System H) : Prop where
  accounted : Accounted s
  exists_iff : ∀ o, s.threads o ≠ none ↔ o ∈ live

/-- The object is not joinable. -/
def Empty (o : Object H) (s : System H) : Prop := s.threads o = some none

variable {live : Set (Object H)}

theorem Ok.exists_thread (h : Ok live s) (ho : o ∈ live) : ∃ t, s.threads o = some t :=
  Option.ne_none_iff_exists'.mp ((h.exists_iff o).mpr ho)

theorem Ok.threads_eq_none (h : Ok live s) (ho : o ∉ live) : s.threads o = none := by
  by_contra hne
  exact ho ((h.exists_iff o).mp hne)

theorem exists_put (h : ∀ p, s.threads p ≠ none ↔ p ∈ live) (o : Object H) (t : StdThread)
    (p : Object H) : (s.put o (some t)).threads p ≠ none ↔ p ∈ insert o live := by
  rw [Set.mem_insert_iff]
  by_cases hp : p = o
  · subst hp
    rw [put_self]
    exact iff_of_true (Option.some_ne_none t) (.inl rfl)
  · rw [put_of_ne hp, h p]
    exact (or_iff_right hp).symm

/-- An object that was not there, or had no thread, has none now. -/
theorem Ok.put_empty (h : Ok live s) (ho : ∀ i, s.threads o ≠ some (some i)) :
    Ok (insert o live) (s.put o (some none)) where
  accounted := by
    refine h.accounted.congr (fun p i => ?_) rfl rfl rfl
    by_cases hp : p = o
    · subst hp
      rw [put_self]
      exact iff_of_false nofun (ho i)
    · rw [put_of_ne hp]
  exists_iff := exists_put h.exists_iff o none

/-- Two objects that exist exchange their threads. -/
theorem Ok.exchange (h : Ok live s) (ho : o ∈ live) (hother : other ∈ live) :
    Ok live { s with threads := fun p => s.threads (Equiv.swap o other p) } where
  accounted := h.accounted.permute (Equiv.swap o other)
  exists_iff p := by
    show s.threads (Equiv.swap o other p) ≠ none ↔ p ∈ live
    rw [h.exists_iff]
    by_cases hp : p = o
    · subst hp
      rw [Equiv.swap_apply_left]
      exact iff_of_true hother ho
    · by_cases hp' : p = other
      · subst hp'
        rw [Equiv.swap_apply_right]
        exact iff_of_true ho hother
      · rw [Equiv.swap_apply_of_ne_of_ne hp hp']

theorem put_put_eq_exchange {t u : StdThread} (ho : s.threads o = some t)
    (hother : s.threads other = some u) :
    (s.put o (some u)).put other (some t) =
      { s with threads := fun p => s.threads (Equiv.swap o other p) } := by
  refine congrArg (fun f => ({ s with threads := f } : System H)) (funext fun p => ?_)
  show Function.update (Function.update s.threads o (some u)) other (some t) p = _
  by_cases hp' : p = other
  · subst hp'
    rw [Function.update_self, Equiv.swap_apply_right, ho]
  · rw [Function.update_of_ne hp']
    by_cases hp : p = o
    · subst hp
      rw [Function.update_self, Equiv.swap_apply_left, hother]
    · rw [Function.update_of_ne hp, Equiv.swap_apply_of_ne_of_ne hp hp']

namespace StdThread

theorem create_apply (ho : s.threads o = none) (t : StdThread) :
    create o t s = .returned () (s.put o (some t)) := by
  unfold create
  rw [ho]

omit [DecidableEq H] in
theorem get_apply {t : StdThread} (ho : s.threads o = some t) : get o s = .returned t s := by
  unfold get
  rw [ho]

omit [DecidableEq H] in
theorem joinable_apply {t : StdThread} (ho : s.threads o = some t) :
    joinable o s = .returned t.isSome s := by
  rw [joinable, Prog.bind_of_returned (get_apply ho)]
  rfl

theorem moveAssign_apply {t : StdThread} (ho : s.threads o = some none)
    (hother : s.threads other = some t) :
    moveAssign o other s = .returned () ((s.put o (some t)).put other (some none)) := by
  rw [moveAssign, Prog.bind_of_returned (joinable_apply ho)]
  exact Prog.bind_of_returned (get_apply hother)

theorem moveConstruct_apply {t : StdThread} (ho : s.threads o = none)
    (hother : s.threads other = some t) :
    moveConstruct o other s = .returned () ((s.put o (some t)).put other (some none)) := by
  rw [moveConstruct, Prog.bind_of_returned (get_apply hother),
    Prog.bind_of_returned (create_apply ho t)]
  rfl

theorem destroy_apply (ho : s.threads o = some none) :
    destroy o s = .returned () (s.put o none) := by
  rw [destroy, Prog.bind_of_returned (joinable_apply ho)]
  rfl

theorem construct_spec (ho : o ∉ live) :
    Triple (Ok live) (construct o) (fun _ s => Ok (insert o live) s ∧ Empty o s) never := by
  intro s h
  have hnone := h.threads_eq_none ho
  rw [construct, create_apply hnone]
  refine ⟨h.put_empty fun i => ?_, put_self s o _⟩
  rw [hnone]
  exact nofun

theorem start_spec (ho : o ∉ live) :
    Triple (Ok live) (start o true) (fun _ => Ok (insert o live)) never := by
  intro s h
  have hnone := h.threads_eq_none ho
  rw [start, if_pos rfl, create_apply (s := { s with started := s.started + 1 }) hnone]
  refine ⟨h.accounted.start fun i => ?_, exists_put h.exists_iff o _⟩
  rw [hnone]
  exact nofun

theorem moveAssign_spec (ho : o ∈ live) (hother : other ∈ live) :
    Triple (fun s => Ok live s ∧ Empty o s) (moveAssign o other)
      (fun _ s => Ok live s ∧ Empty other s) never := by
  intro s hs
  obtain ⟨h, hempty⟩ := hs
  obtain ⟨t, ht⟩ := h.exists_thread hother
  rw [moveAssign_apply hempty ht]
  refine ⟨?_, put_self _ other _⟩
  rw [put_put_eq_exchange hempty ht]
  exact h.exchange ho hother

theorem moveConstruct_spec (ho : o ∉ live) (hother : other ∈ live) :
    Triple (Ok live) (moveConstruct o other)
      (fun _ s => Ok (insert o live) s ∧ Empty other s) never := by
  intro s h
  have hnone := h.threads_eq_none ho
  obtain ⟨t, ht⟩ := h.exists_thread hother
  rw [moveConstruct_apply hnone ht]
  refine ⟨?_, put_self _ other _⟩
  -- the same as an exchange with an object that has just been constructed
  have hempty : Ok (insert o live) (s.put o (some none)) :=
    h.put_empty fun i => by rw [hnone]; exact nofun
  have hne : other ≠ o := fun he => ho (he ▸ hother)
  have hx := hempty.exchange (Set.mem_insert o live) (Set.mem_insert_of_mem o hother)
  rw [← put_put_eq_exchange (put_self s o _) ((put_of_ne hne _).trans ht)] at hx
  rw [put_idem] at hx
  exact hx

theorem swap_spec (ho : o ∈ live) (hother : other ∈ live) :
    Triple (Ok live) (swap o other) (fun _ => Ok live) never := by
  intro s h
  obtain ⟨t, ht⟩ := h.exists_thread ho
  obtain ⟨u, hu⟩ := h.exists_thread hother
  have happly : swap o other s = .returned () ((s.put o (some u)).put other (some t)) := by
    rw [swap, Prog.bind_of_returned (get_apply ht), Prog.bind_of_returned (get_apply hu)]
    rfl
  rw [happly, put_put_eq_exchange ht hu]
  exact h.exchange ho hother

theorem destroy_spec (o : Object H) :
    Triple (fun s => Ok live s ∧ Empty o s) (destroy o) (fun _ => Ok (live \ {o})) never := by
  intro s hs
  obtain ⟨h, hempty⟩ := hs
  rw [destroy_apply hempty]
  refine ⟨h.accounted.congr (fun p i => ?_) rfl rfl rfl, fun p => ?_⟩
  · by_cases hp : p = o
    · subst hp
      rw [put_self, hempty]
      exact iff_of_false nofun nofun
    · rw [put_of_ne hp]
  · rw [Set.mem_sdiff_singleton]
    by_cases hp : p = o
    · subst hp
      rw [put_self]
      exact iff_of_false (fun hne => hne rfl) (fun hne => hne.2 rfl)
    · rw [put_of_ne hp, h.exists_iff]
      exact (and_iff_left hp).symm

/-- The owner of a thread has given it up. -/
theorem Ok.release {i : ℕ} (h : Ok live s) (ho : s.threads o = some (some i))
    {joined detached : List ℕ}
    (hacc : Accounted { s.put o (some none) with joined := joined, detached := detached }) :
    Ok live { s.put o (some none) with joined := joined, detached := detached } where
  accounted := hacc
  exists_iff p := by
    have ho' : o ∈ live := (h.exists_iff o).mp (by rw [ho]; exact Option.some_ne_none _)
    have hput := exists_put h.exists_iff o none p
    rw [Set.insert_eq_of_mem ho'] at hput
    exact hput

theorem count_cons_of_pos {p : Prop} [Decidable p] (hp : p) (i j : ℕ) (l : List ℕ) :
    (i :: l).count j = l.count j + if j = i ∧ p then 1 else 0 := by
  by_cases hj : j = i
  · subst hj
    rw [List.count_cons_self, if_pos ⟨rfl, hp⟩]
  · rw [List.count_cons_of_ne (Ne.symm hj), if_neg (fun h => hj h.1), Nat.add_zero]

theorem count_of_neg {p : Prop} [Decidable p] (hp : ¬ p) (i j : ℕ) (l : List ℕ) :
    l.count j = l.count j + if j = i ∧ p then 1 else 0 := by
  rw [if_neg (fun h => hp h.2), Nat.add_zero]

theorem join_spec (ho : o ∈ live) :
    Triple (Ok live) (join o) (fun _ s => Ok live s ∧ Empty o s) (fun _ => Ok live) := by
  intro s h
  obtain ⟨t, ht⟩ := h.exists_thread ho
  rw [join, Prog.bind_of_returned (get_apply ht)]
  cases t with
  | none => exact h
  | some i =>
    refine ⟨Ok.release h ht ?_, put_self s o _⟩
    exact h.accounted.release ht (.inl rfl) (fun j => count_cons_of_pos rfl i j s.joined)
      (fun j => count_of_neg nofun i j s.detached)

theorem detach_spec (ho : o ∈ live) :
    Triple (Ok live) (detach o) (fun _ => Ok live) (fun _ => Ok live) := by
  intro s h
  obtain ⟨t, ht⟩ := h.exists_thread ho
  rw [detach, Prog.bind_of_returned (get_apply ht)]
  cases t with
  | none => exact h
  | some i =>
    refine Ok.release h ht ?_
    exact h.accounted.release ht (.inr rfl) (fun j => count_of_neg nofun i j s.joined)
      (fun j => count_cons_of_pos rfl i j s.detached)

/-- `join` does not throw on a thread that is joinable. -/
theorem join_apply {i : ℕ} (ht : s.threads o = some (some i)) :
    join o s = .returned () { s.put o (some none) with joined := i :: s.joined } := by
  rw [join, Prog.bind_of_returned (get_apply ht)]
  rfl

end StdThread

/-! ### What the member functions do -/

variable {this : H}

omit [DecidableEq H] in
theorem joinable_apply {t : StdThread} (ht : s.threads (.member this) = some t) :
    joinable this s = .returned t.isSome s :=
  Prog.noexcept_of_returned (StdThread.joinable_apply ht)

theorem joinIfJoinable_spec (hthis : .member this ∈ live) :
    Triple (Ok live) (joinIfJoinable this) (fun _ s => Ok live s ∧ Empty (.member this) s)
      never := by
  intro s h
  obtain ⟨t, ht⟩ := h.exists_thread hthis
  rw [joinIfJoinable, Prog.bind_of_returned (joinable_apply ht)]
  cases t with
  | none => exact ⟨h, ht⟩
  | some i =>
    have hjoin := StdThread.join_spec hthis s h
    show (StdThread.join (.member this) s).Satisfies _ _
    rw [StdThread.join_apply ht] at hjoin ⊢
    exact hjoin

theorem moveAssign_spec {other : H} (hthis : .member this ∈ live) (hother : .member other ∈ live) :
    Triple (Ok live) (moveAssign this other) (fun _ => Ok live) never := by
  apply Triple.noexcept
  refine (joinIfJoinable_spec hthis).bind fun _ => ?_
  refine (StdThread.moveAssign_spec hthis hother).bind fun _ => ?_
  exact fun _ hs => hs.1

theorem assign_spec (hthis : .member this ∈ live) (hother : other ∈ live) :
    Triple (Ok live) (assign this other) (fun _ s => Ok live s ∧ Empty other s) never := by
  refine (joinIfJoinable_spec hthis).bind fun _ => ?_
  refine (StdThread.moveAssign_spec hthis hother).bind fun _ => ?_
  exact fun _ hs => hs

theorem destroy_spec (hthis : .member this ∈ live) :
    Triple (Ok live) (destroy this) (fun _ => Ok (live \ {.member this})) never := by
  refine Triple.inScope (E := never) ((joinIfJoinable_spec hthis).noexcept) (fun _ => ?_) nofun
  exact StdThread.destroy_spec (.member this)

theorem makeParameter_spec (running : Bool) (hnew : .parameter ∉ live) :
    Triple (Ok live) (makeParameter (H := H) running) (fun _ => Ok (insert .parameter live))
      never := by
  cases running with
  | true => exact StdThread.start_spec hnew
  | false =>
    exact (StdThread.construct_spec hnew).post fun _ _ hq => hq.1

/-- A call with a `std::thread` that leaves it without a thread. -/
theorem withParameter_spec {A : Type} {call : Object H → Prog (System H) A} (running : Bool)
    {live' : Set (Object H)} (hnew : .parameter ∉ live) (hnew' : .parameter ∉ live')
    (hcall : Triple (Ok (insert .parameter live)) (call .parameter)
      (fun _ s => Ok (insert .parameter live') s ∧ Empty .parameter s) never) :
    Triple (Ok live) (withParameter running call) (fun _ => Ok live') never := by
  refine (makeParameter_spec running hnew).bind fun _ => ?_
  refine Triple.inScope (E := never) hcall (fun _ => ?_) nofun
  refine (StdThread.destroy_spec .parameter).post fun _ s hs => ?_
  rw [Set.insert_sdiff_self_of_notMem hnew'] at hs
  exact hs

/-! ### The operations of the client -/

/-- Between the operations the threads are accounted for, and no argument is being passed. -/
structure Invariant (s : System H) : Prop where
  accounted : Accounted s
  noParameter : s.threads .parameter = none

/-- The objects that exist. -/
def System.objects (s : System H) : Set (Object H) := {o | s.threads o ≠ none}

omit [DecidableEq H] in
theorem not_mem_objects (h : s.threads o = none) : o ∉ s.objects := fun hne => hne h

theorem Invariant.ok (h : Invariant s) : Ok s.objects s := ⟨h.accounted, fun _ => Iff.rfl⟩

theorem Ok.invariant (h : Ok live s) (hp : .parameter ∉ live) : Invariant s :=
  ⟨h.accounted, h.threads_eq_none hp⟩

omit [DecidableEq H] in
theorem not_mem_insert_member (this : H) (hp : .parameter ∉ live) :
    .parameter ∉ insert (.member this) live := by
  rw [Set.mem_insert_iff, not_or]
  exact ⟨nofun, hp⟩

/-- A program that leaves no parameter behind keeps the invariant. -/
theorem Invariant.of_triple {x : Prog (System H) Unit} {live' : Set (Object H)}
    (h : Invariant s) (ht : Triple (Ok s.objects) x (fun _ => Ok live) (fun _ => Ok live'))
    (hp : .parameter ∉ live) (hp' : .parameter ∉ live') :
    (x s).Satisfies (fun _ => Invariant) (fun _ => Invariant) :=
  (ht s h.ok).imp (fun _ _ ho => ho.invariant hp) (fun _ _ ho => ho.invariant hp')

/-- **Every operation keeps the invariant**, and does not stop. -/
theorem exec_spec {op : Op H} (h : Invariant s) (hop : op.Applicable s) :
    (op.exec s).Satisfies (fun _ => Invariant) (fun _ => Invariant) := by
  have hp : .parameter ∉ s.objects := not_mem_objects h.noParameter
  cases op with
  | construct this =>
    have hspec := StdThread.construct_spec (not_mem_objects hop)
    have ht : Triple (Ok s.objects) (construct this) (fun _ => Ok (insert (.member this) s.objects))
        never := (hspec.post fun _ _ hq => hq.1).noexcept
    exact h.of_triple ht.of_never (not_mem_insert_member this hp) hp
  | start this starts =>
    cases starts with
    | false => exact h
    | true =>
      have ht := StdThread.start_spec (not_mem_objects hop)
      exact h.of_triple ht.of_never (not_mem_insert_member this hp) hp
  | fromThread this running =>
    have hp' := not_mem_insert_member this hp
    have hnew : .member this ∉ insert .parameter s.objects := by
      rw [Set.mem_insert_iff, not_or]
      exact ⟨nofun, not_mem_objects hop⟩
    have hspec := (StdThread.moveConstruct_spec hnew (Set.mem_insert _ _)).noexcept (E := never)
    rw [Set.insert_comm] at hspec
    exact h.of_triple (withParameter_spec running hp hp' hspec).of_never hp' hp
  | moveConstruct this other =>
    have hspec := StdThread.moveConstruct_spec (not_mem_objects hop.1) hop.2
    have ht : Triple (Ok s.objects) (moveConstruct this other)
        (fun _ => Ok (insert (.member this) s.objects)) never :=
      (hspec.post fun _ _ hq => hq.1).noexcept
    exact h.of_triple ht.of_never (not_mem_insert_member this hp) hp
  | moveAssign this other =>
    have ht : Triple (Ok s.objects) (Op.moveAssign this other).exec (fun _ => Ok s.objects) never :=
      (moveAssign_spec hop.1 hop.2).bind fun _ => fun _ hs => hs
    exact h.of_triple ht.of_never hp hp
  | assign this running =>
    have hspec := assign_spec (Set.mem_insert_of_mem .parameter hop)
      (Set.mem_insert .parameter s.objects)
    have ht : Triple (Ok s.objects) (Op.assign this running).exec (fun _ => Ok s.objects) never :=
      (withParameter_spec running hp hp hspec).bind fun _ => fun _ hs => hs
    exact h.of_triple ht.of_never hp hp
  | swap this other =>
    have ht : Triple (Ok s.objects) (swap this other) (fun _ => Ok s.objects) never :=
      (StdThread.swap_spec hop.1 hop.2).noexcept
    exact h.of_triple ht.of_never hp hp
  | join this =>
    have hmem : .member this ∈ s.objects := hop
    have hspec := StdThread.join_spec hmem
    exact h.of_triple (hspec.post fun _ _ hq => hq.1) hp hp
  | detach this => exact h.of_triple (StdThread.detach_spec hop) hp hp
  | destroy this => exact h.of_triple (destroy_spec hop).of_never (fun hmem => hp hmem.1) hp

/-! ### Sequences of operations -/

theorem initial_invariant : Invariant (initial : System H) where
  accounted _ := ⟨.unstarted, iff_of_false (Nat.not_lt_zero _) (fun h => h rfl),
    fun _ => iff_of_false nofun nofun, rfl, rfl⟩
  noParameter := rfl

theorem run_invariant : ∀ (ops : List (Op H)) (s : System H), Invariant s →
    ∀ s', run s ops = some s' → Invariant s' := by
  intro ops
  induction ops with
  | nil =>
    intro s hs s' h
    cases h
    exact hs
  | cons op ops ih =>
    intro s hs s' h
    rw [run, Option.ite_none_right_eq_some] at h
    obtain ⟨hop, h⟩ := h
    obtain ⟨s₁, hafter, hrest⟩ := Option.bind_eq_some_iff.mp h
    have hexec := exec_spec hs hop
    refine ih s₁ ?_ s' hrest
    cases hr : op.exec s with
    | returned a s₂ =>
      rw [hr] at hexec hafter
      cases hafter
      exact hexec
    | threw what s₂ =>
      rw [hr] at hexec hafter
      cases hafter
      exact hexec
    | stopped why =>
      rw [hr] at hexec
      exact hexec.elim

/-- The handle owns the thread with the number `i`. -/
def Owns (s : System H) (this : H) (i : ℕ) : Prop := s.threads (.member this) = some (some i)

/-- The three conditions that a thread which has been started can be in. -/
theorem Invariant.cases (h : Invariant s) {i : ℕ} (hi : i < s.started) :
    ((∃! this, Owns s this i) ∧ s.joined.count i = 0 ∧ s.detached.count i = 0) ∨
      ((∀ this, ¬ Owns s this i) ∧ s.joined.count i = 1 ∧ s.detached.count i = 0) ∨
      ((∀ this, ¬ Owns s this i) ∧ s.joined.count i = 0 ∧ s.detached.count i = 1) := by
  obtain ⟨c, hc⟩ := h.accounted i
  cases c with
  | unstarted => exact absurd rfl (hc.started.mp hi)
  | owned o =>
    refine .inl ⟨?_, hc.joined, hc.detached⟩
    have ho := (hc.owned o).mpr rfl
    cases o with
    | parameter =>
      rw [h.noParameter] at ho
      exact nomatch ho
    | member this =>
      refine ⟨this, ho, fun other hother => ?_⟩
      exact (Object.member.inj (Condition.owned.inj ((hc.owned _).mp hother))).symm
  | joined =>
    refine .inr (.inl ⟨fun this ho => ?_, hc.joined, hc.detached⟩)
    exact nomatch (hc.owned _).mp ho
  | detached =>
    refine .inr (.inr ⟨fun this ho => ?_, hc.joined, hc.detached⟩)
    exact nomatch (hc.owned _).mp ho

/-- **Ownership.** -/
theorem ownership {ops : List (Op H)} {s : System H} (hrun : run initial ops = some s) :
    (∀ i < s.started,
      ((∃! this, Owns s this i) ∧ s.joined.count i = 0 ∧ s.detached.count i = 0) ∨
      ((∀ this, ¬ Owns s this i) ∧ s.joined.count i = 1 ∧ s.detached.count i = 0) ∨
      ((∀ this, ¬ Owns s this i) ∧ s.joined.count i = 0 ∧ s.detached.count i = 1)) ∧
    (∀ op : Op H, op.Applicable s → ∀ why, op.exec s ≠ .stopped why) ∧
    ((∀ this, s.threads (.member this) = none) →
      ∀ i < s.started, i ∈ s.joined ∨ i ∈ s.detached) := by
  have h := run_invariant ops initial initial_invariant s hrun
  refine ⟨fun i hi => h.cases hi, fun op hop why hstop => ?_, fun hnone i hi => ?_⟩
  · have hexec := exec_spec h hop
    rw [hstop] at hexec
    exact hexec
  · rcases h.cases hi with ⟨⟨this, ho, -⟩, -⟩ | ⟨-, hjoined, -⟩ | ⟨-, -, hdetached⟩
    · exact absurd ((hnone this).symm.trans ho) nofun
    · exact .inl (List.count_pos_iff.mp (by omega))
    · exact .inr (List.count_pos_iff.mp (by omega))

end

/-- Two handles; the first one is moved to the second one, which joins its own thread first, and
then to itself; it gets another thread and detaches it, and its `join` throws.  The destructor of
the second handle joins the thread that was moved to it. -/
def moveRun : List (Op Bool) :=
  [.start false true, .start true true, .moveAssign true false, .moveAssign false false,
    .assign false true, .detach false, .join false, .destroy true, .destroy false]

theorem ownership_moveRun : ∃ s, run initial moveRun = some s ∧ s.joined = [0, 1] ∧
    s.detached = [2] ∧ ∀ i < 3, i ∈ s.joined ∨ i ∈ s.detached := by
  have hrun : (run initial moveRun).isSome := by decide
  have h := ownership (Option.some_get hrun).symm
  refine ⟨_, (Option.some_get hrun).symm, rfl, rfl, h.2.2 fun this => ?_⟩
  cases this <;> rfl

end ConcurrencyInAction.AutoJoiningThread
