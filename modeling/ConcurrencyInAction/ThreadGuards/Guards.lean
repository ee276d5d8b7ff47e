import ConcurrencyInAction.AutoJoiningThread.Ownership
import ConcurrencyInAction.ThreadGuards.Model

/-!
# Guards around an arbitrary body

* `startIn`: the state in which the body begins;
* `guards_agree_iff`: **the handler and the guard** do the same, except when the body leaves the
  `std::thread` without a thread;
* `join_spec`, `ThreadGuard.destroy_spec`, `ScopedThreadGuard.destroy_spec`: what the parts do with
  the threads accounted for; `ScopedThreadGuard.construct_apply`: what the constructor does;
* `guards_account`: **no guard loses a thread**, and none stops the program.
-/

namespace ConcurrencyInAction.ThreadGuards

open Exceptions AutoJoiningThread

variable {H : Type} [DecidableEq H] {s s₂ : System H} {t : Object H} {body : Prog (System H) Unit}

/-! ### The handler and the guard -/

/-- The object has started the next thread. -/
def startIn (s : System H) (t : Object H) : System H :=
  ({ s with started := s.started + 1 } : System H).put t (some (some s.started))

theorem start_apply (ht : s.threads t = none) :
    StdThread.start t true s = .returned () (startIn s t) := by
  rw [StdThread.start, if_pos rfl]
  exact StdThread.create_apply (s := { s with started := s.started + 1 }) ht _

/-- The part of `betterOops` inside the scope of the thread. -/
def joinOnEveryWay (t : Object H) (body : Prog (System H) Unit) : Prog (System H) Unit := do
  .onThrow (StdThread.join t) body
  StdThread.join t

theorem betterOops_apply (ht : s.threads t = none) :
    betterOops t true body s =
      Prog.inScope (StdThread.destroy t) (joinOnEveryWay t body) (startIn s t) :=
  Prog.bind_of_returned (start_apply ht)

theorem muchBetterOops_apply (ht : s.threads t = none) :
    muchBetterOops t true body s =
      Prog.inScope (StdThread.destroy t) (.inScope (ThreadGuard.destroy t) body) (startIn s t) :=
  Prog.bind_of_returned (start_apply ht)

omit [DecidableEq H] in
theorem get_of_none (ht : s.threads t = none) :
    StdThread.get t s = .stopped .undefinedBehaviour := by
  rw [StdThread.get, ht]

/-- What `join` does, and what the destructor of a guard does, to an object that does not exist, to
one without a thread, and to one with a thread. -/
theorem join_cases (s : System H) (t : Object H) :
    (StdThread.join t s = .stopped .undefinedBehaviour ∧
      ThreadGuard.destroy t s = .stopped .undefinedBehaviour) ∨
    (s.threads t = some none ∧ StdThread.join t s = .threw "invalid_argument" s ∧
      ThreadGuard.destroy t s = .returned () s) ∨
    ∃ s', StdThread.join t s = .returned () s' ∧ ThreadGuard.destroy t s = .returned () s' ∧
      s.threads t ≠ some none := by
  cases ht : s.threads t with
  | none =>
    exact .inl ⟨Prog.bind_of_stopped (get_of_none ht),
      Prog.bind_of_stopped (Prog.bind_of_stopped (get_of_none ht))⟩
  | some u =>
    cases u with
    | none =>
      refine .inr (.inl ⟨rfl, ?_, ?_⟩)
      · rw [StdThread.join, Prog.bind_of_returned (StdThread.get_apply ht)]
        rfl
      · rw [ThreadGuard.destroy, Prog.bind_of_returned (StdThread.joinable_apply ht)]
        rfl
    | some i =>
      refine .inr (.inr ⟨_, StdThread.join_apply ht, ?_, fun hnone => ?_⟩)
      · rw [ThreadGuard.destroy, Prog.bind_of_returned (StdThread.joinable_apply ht)]
        exact StdThread.join_apply ht
      · cases hnone

omit [DecidableEq H] in
/-- The destructor of the thread sees only how the scope has ended. -/
theorem inScope_congr {leave x y : Prog (System H) Unit} (h : x s = y s) :
    Prog.inScope leave x s = Prog.inScope leave y s := by
  unfold Prog.inScope
  rw [h]

/-- The two scopes end in the same way, if the body leaves the object with its thread or throws what
`join` throws. -/
theorem joinOnEveryWay_eq
    (h : ∀ s₂, (body s).after = some s₂ → s₂.threads t = some none →
      body s = .threw "invalid_argument" s₂) :
    joinOnEveryWay t body s = Prog.inScope (ThreadGuard.destroy t) body s := by
  cases hbody : body s with
  | stopped why =>
    rw [joinOnEveryWay, Prog.bind_of_stopped (Prog.onThrow_of_stopped hbody),
      Prog.inScope_of_stopped hbody]
  | returned _ s₂ =>
    have hafter : (body s).after = some s₂ := by rw [hbody]; rfl
    rw [joinOnEveryWay, Prog.bind_of_returned (Prog.onThrow_of_returned hbody)]
    rcases join_cases s₂ t with ⟨hjoin, hguard⟩ | ⟨ht, -⟩ | ⟨s', hjoin, hguard, -⟩
    · rw [hjoin, Prog.inScope_of_leave_stopped hafter hguard]
    · exact nomatch hbody.symm.trans (h s₂ hafter ht)
    · rw [hjoin, Prog.inScope_of_returned hbody hguard]
  | threw what s₂ =>
    have hafter : (body s).after = some s₂ := by rw [hbody]; rfl
    have hthrow : Prog.onThrow (StdThread.join t) body s =
        (StdThread.join t >>= fun _ => Prog.throwing what) s₂ := Prog.onThrow_of_threw hbody
    rcases join_cases s₂ t with ⟨hjoin, hguard⟩ | ⟨ht, hjoin, hguard⟩ | ⟨s', hjoin, hguard, -⟩
    · rw [joinOnEveryWay, Prog.bind_of_stopped (hthrow.trans (Prog.bind_of_stopped hjoin)),
        Prog.inScope_of_leave_stopped hafter hguard]
    · -- the handler throws what the body has thrown
      have hsame := hbody.symm.trans (h s₂ hafter ht)
      cases hsame
      rw [joinOnEveryWay, Prog.bind_of_threw (hthrow.trans (Prog.bind_of_threw hjoin)),
        Prog.inScope_of_threw hbody hguard]
    · have hrethrow : Prog.onThrow (StdThread.join t) body s = .threw what s' :=
        hthrow.trans (Prog.bind_of_returned hjoin)
      rw [joinOnEveryWay, Prog.bind_of_threw hrethrow, Prog.inScope_of_threw hbody hguard]

/-- A body that leaves the object without a thread makes the handler throw. -/
theorem joinOnEveryWay_of_empty (hafter : (body s).after = some s₂)
    (ht : s₂.threads t = some none) :
    joinOnEveryWay t body s = .threw "invalid_argument" s₂ ∧
      Prog.inScope (ThreadGuard.destroy t) body s = body s := by
  obtain ⟨hjoin, hguard⟩ : StdThread.join t s₂ = .threw "invalid_argument" s₂ ∧
      ThreadGuard.destroy t s₂ = .returned () s₂ := by
    rcases join_cases s₂ t with ⟨hjoin, -⟩ | ⟨-, hjoin, hguard⟩ | ⟨s', -, -, hne⟩
    · rw [StdThread.join, Prog.bind_of_returned (StdThread.get_apply ht)] at hjoin
      cases hjoin
    · exact ⟨hjoin, hguard⟩
    · exact absurd ht hne
  cases hbody : body s with
  | stopped why =>
    rw [hbody] at hafter
    cases hafter
  | returned _ s' =>
    rw [hbody] at hafter
    cases hafter
    rw [joinOnEveryWay, Prog.bind_of_returned (Prog.onThrow_of_returned hbody)]
    exact ⟨hjoin, Prog.inScope_of_returned hbody hguard⟩
  | threw what s' =>
    rw [hbody] at hafter
    cases hafter
    have hthrow : Prog.onThrow (StdThread.join t) body s =
        (StdThread.join t >>= fun _ => Prog.throwing what) s₂ := Prog.onThrow_of_threw hbody
    rw [joinOnEveryWay, Prog.bind_of_threw (hthrow.trans (Prog.bind_of_threw hjoin))]
    exact ⟨rfl, Prog.inScope_of_threw hbody hguard⟩

/-- Both functions with a thread that starts. -/
theorem agree_iff_of_starts (ht : s.threads t = none) :
    betterOops t true body s = muchBetterOops t true body s ↔
      ∀ s₂, (body (startIn s t)).after = some s₂ → s₂.threads t = some none →
        body (startIn s t) = .threw "invalid_argument" s₂ := by
  rw [betterOops_apply ht, muchBetterOops_apply ht]
  constructor
  · intro heq s₂ hafter hempty
    obtain ⟨hhandler, hguard⟩ := joinOnEveryWay_of_empty hafter hempty
    rw [inScope_congr hguard,
      Prog.inScope_of_threw hhandler (StdThread.destroy_apply hempty)] at heq
    cases hbody : body (startIn s t) with
    | stopped why =>
      rw [hbody] at hafter
      exact nomatch hafter
    | returned _ s' =>
      rw [hbody] at hafter
      cases hafter
      rw [Prog.inScope_of_returned hbody (StdThread.destroy_apply hempty)] at heq
      exact nomatch heq
    | threw what s' =>
      rw [hbody] at hafter
      cases hafter
      rw [Prog.inScope_of_threw hbody (StdThread.destroy_apply hempty)] at heq
      cases heq
      rfl
  · intro h
    exact inScope_congr (joinOnEveryWay_eq h)

/-- **The handler and the guard.**  `betterOops` and `muchBetterOops` do the same exactly if the
thread cannot be started, or the body does not leave the `std::thread` without a thread, unless it
throws what `join` throws then. -/
theorem guards_agree_iff (ht : s.threads t = none) (starts : Bool) :
    betterOops t starts body s = muchBetterOops t starts body s ↔
      (starts = true → ∀ s₂, (body (startIn s t)).after = some s₂ → s₂.threads t = some none →
        body (startIn s t) = .threw "invalid_argument" s₂) := by
  cases starts with
  | true =>
    rw [agree_iff_of_starts ht, imp_iff_right rfl]
  | false =>
    have hstart : StdThread.start t false s = .threw "resource_unavailable_try_again" s := rfl
    have hleft : betterOops t false body s = .threw "resource_unavailable_try_again" s :=
      Prog.bind_of_threw hstart
    have hright : muchBetterOops t false body s = .threw "resource_unavailable_try_again" s :=
      Prog.bind_of_threw hstart
    exact iff_of_true (hleft.trans hright.symm) nofun

/-- The two functions agree on a body that leaves the thread alone and where no thread starts, and
not on a body that detaches it. -/
theorem guards_agree_iff_detach :
    betterOops (.member ()) true (pure ()) initial =
        muchBetterOops (.member ()) true (pure ()) initial ∧
      betterOops (.member ()) false (StdThread.detach (.member ())) initial =
        muchBetterOops (.member ()) false (StdThread.detach (.member ())) initial ∧
      ¬ betterOops (.member ()) true (StdThread.detach (.member ())) initial =
        muchBetterOops (.member ()) true (StdThread.detach (.member ())) initial := by
  refine ⟨(guards_agree_iff rfl true).mpr fun _ s₂ hafter hempty => ?_,
    (guards_agree_iff rfl false).mpr nofun, fun heq => ?_⟩
  · cases hafter
    exact nomatch hempty
  · have hthrows := (guards_agree_iff rfl true).mp heq rfl _ rfl rfl
    exact nomatch hthrows

/-! ### What the parts do -/

variable {live : Set (Object H)} {o : Object H} {this : H}

theorem start_spec (ho : o ∉ live) (starts : Bool) :
    Triple (Ok live) (StdThread.start o starts) (fun _ => Ok (insert o live))
      (fun _ => Ok live) := by
  cases starts with
  | true => exact (StdThread.start_spec ho).of_never
  | false => exact fun _ hs => hs

/-- Whether `join` returns or throws, the object has no thread afterwards. -/
theorem join_spec (ho : o ∈ live) :
    Triple (Ok live) (StdThread.join o) (fun _ s => Ok live s ∧ Empty o s)
      (fun _ s => Ok live s ∧ Empty o s) := by
  intro s h
  have hjoin := StdThread.join_spec ho s h
  obtain ⟨u, hu⟩ := h.exists_thread ho
  cases u with
  | none =>
    rw [StdThread.join, Prog.bind_of_returned (StdThread.get_apply hu)]
    exact ⟨h, hu⟩
  | some i =>
    rw [StdThread.join_apply hu] at hjoin ⊢
    exact hjoin

theorem ThreadGuard.destroy_spec (ho : o ∈ live) :
    Triple (Ok live) (ThreadGuard.destroy o) (fun _ s => Ok live s ∧ Empty o s) never := by
  intro s h
  obtain ⟨u, hu⟩ := h.exists_thread ho
  rw [ThreadGuard.destroy, Prog.bind_of_returned (StdThread.joinable_apply hu)]
  cases u with
  | none => exact ⟨h, hu⟩
  | some i =>
    have hjoin := StdThread.join_spec ho s h
    show (StdThread.join o s).Satisfies _ _
    rw [StdThread.join_apply hu] at hjoin ⊢
    exact hjoin

/-- The thread of a scope that ends without it is destroyed. -/
theorem scope_spec {x : Prog (System H) Unit} (ho : o ∉ live)
    (h : Triple (Ok (insert o live)) x (fun _ s => Ok (insert o live) s ∧ Empty o s)
      (fun _ s => Ok (insert o live) s ∧ Empty o s)) :
    Triple (Ok (insert o live)) (.inScope (StdThread.destroy o) x) (fun _ => Ok live)
      (fun _ => Ok live) := by
  have hdestroy : Triple (fun s => Ok (insert o live) s ∧ Empty o s) (StdThread.destroy o)
      (fun _ => Ok live) never := by
    refine (StdThread.destroy_spec o).post fun _ s hs => ?_
    rw [Set.insert_sdiff_self_of_notMem ho] at hs
    exact hs
  exact h.inScope (fun _ => hdestroy) (fun _ => hdestroy)

/-! ### Guards around a body -/

theorem betterOops_spec (ht : t ∉ live) (starts : Bool)
    (hbody : Triple (Ok (insert t live)) body (fun _ => Ok (insert t live))
      (fun _ => Ok (insert t live))) :
    Triple (Ok live) (betterOops t starts body) (fun _ => Ok live) (fun _ => Ok live) := by
  have hmem : t ∈ insert t live := Set.mem_insert t live
  refine (start_spec ht starts).bind fun _ => scope_spec ht ?_
  exact (hbody.onThrow fun _ => join_spec hmem).bind fun _ => join_spec hmem

theorem muchBetterOops_spec (ht : t ∉ live) (starts : Bool)
    (hbody : Triple (Ok (insert t live)) body (fun _ => Ok (insert t live))
      (fun _ => Ok (insert t live))) :
    Triple (Ok live) (muchBetterOops t starts body) (fun _ => Ok live) (fun _ => Ok live) := by
  have hguard := ThreadGuard.destroy_spec (Set.mem_insert t live)
  refine (start_spec ht starts).bind fun _ => scope_spec ht ?_
  exact hbody.inScope (fun _ => hguard) (fun _ => hguard)

/-! ### `ScopedThreadGuard` -/

namespace ScopedThreadGuard

/-- The constructor takes the thread of its argument over, or throws when there is none; what is
left of the argument is destroyed. -/
theorem construct_apply {u : StdThread} (hthis : s.threads (.member this) = none)
    (hu : s.threads .parameter = some u) :
    Prog.inScope (StdThread.destroy .parameter) (construct this .parameter) s =
      match u with
      | some i => .returned () ((s.put (.member this) (some (some i))).put .parameter none)
      | none => .threw "no thread" (s.put .parameter none) := by
  have hne : Object.member this ≠ .parameter := nofun
  have hmember : ((s.put (.member this) (some u)).put .parameter (some none)).threads
      (.member this) = some u := by
    rw [put_of_ne hne, put_self]
  have hbody : construct this .parameter s =
      (if u.isSome then (pure () : Prog (System H) Unit) else do
        StdThread.destroy (.member this)
        .throwing "no thread") ((s.put (.member this) (some u)).put .parameter (some none)) := by
    rw [construct, Prog.bind_of_returned (StdThread.moveConstruct_apply hthis hu),
      Prog.bind_of_returned (StdThread.joinable_apply hmember)]
  cases u with
  | some i =>
    refine (Prog.inScope_of_returned hbody (StdThread.destroy_apply (put_self _ _ _))).trans ?_
    rw [put_idem]
  | none =>
    have hthrow : construct this .parameter s = .threw "no thread"
        (((s.put (.member this) (some none)).put .parameter (some none)).put (.member this)
          none) :=
      hbody.trans (Prog.bind_of_returned (StdThread.destroy_apply hmember))
    have hempty : ((((s.put (.member this) (some none)).put .parameter (some none)).put
        (.member this) none).threads .parameter) = some none := by
      rw [put_of_ne hne.symm, put_self]
    rw [Prog.inScope_of_threw hthrow (StdThread.destroy_apply hempty)]
    refine congrArg (Result.threw "no thread")
      (congrArg (fun f => ({ s with threads := f } : System H)) (funext fun o => ?_))
    show Function.update (Function.update (Function.update (Function.update s.threads
      (.member this) (some none)) .parameter (some none)) (.member this) none) .parameter none o =
      Function.update s.threads .parameter none o
    by_cases ho : o = .parameter
    · subst ho
      rw [Function.update_self, Function.update_self]
    · rw [Function.update_of_ne ho, Function.update_of_ne ho]
      by_cases ho' : o = .member this
      · subst ho'
        rw [Function.update_self, hthis]
      · rw [Function.update_of_ne ho', Function.update_of_ne ho, Function.update_of_ne ho']

/-- A scope whose guard gets a running thread. -/
theorem scope_true (hthis : s.threads (.member this) = none)
    (hparameter : s.threads .parameter = none) :
    scope this true body s = Prog.inScope (destroy this) body (startIn s (.member this)) := by
  have hne : Object.member this ≠ .parameter := nofun
  have hthis' : (startIn s .parameter).threads (.member this) = none :=
    (put_of_ne hne _).trans hthis
  have hmake : withParameter true (construct this) s = .returned () (startIn s (.member this)) := by
    rw [withParameter]
    refine (Prog.bind_of_returned (start_apply hparameter)).trans
      ((construct_apply hthis' (put_self _ _ _)).trans ?_)
    refine congrArg (Result.returned ())
      (congrArg (fun f => (⟨f, s.started + 1, s.joined, s.detached⟩ : System H))
        (funext fun o => ?_))
    show Function.update (Function.update (Function.update s.threads .parameter
      (some (some s.started))) (.member this) (some (some s.started))) .parameter none o =
      Function.update s.threads (.member this) (some (some s.started)) o
    by_cases ho : o = .parameter
    · subst ho
      rw [Function.update_self, Function.update_of_ne hne.symm, hparameter]
    · rw [Function.update_of_ne ho]
      by_cases ho' : o = .member this
      · subst ho'
        rw [Function.update_self, Function.update_self]
      · rw [Function.update_of_ne ho', Function.update_of_ne ho, Function.update_of_ne ho']
  exact Prog.bind_of_returned hmake

/-- Without a thread the scope is not entered, and nothing has changed. -/
theorem scope_false (hthis : s.threads (.member this) = none)
    (hparameter : s.threads .parameter = none) :
    scope this false body s = .threw "no thread" s := by
  have hne : Object.member this ≠ .parameter := nofun
  have hmake : makeParameter (H := H) false s = .returned () (s.put .parameter (some none)) :=
    StdThread.create_apply hparameter none
  have hthis' : (s.put .parameter (some none)).threads (.member this) = none :=
    (put_of_ne hne _).trans hthis
  refine Prog.bind_of_threw ((Prog.bind_of_returned hmake).trans
    ((construct_apply hthis' (put_self _ _ _)).trans ?_))
  rw [put_idem]
  refine congrArg (Result.threw "no thread")
    (congrArg (fun f => ({ s with threads := f } : System H)) ?_)
  rw [← hparameter, Function.update_eq_self]

/-- The destructor joins without asking: the thread has to be there. -/
theorem destroy_apply {i : ℕ} (hthis : s.threads (.member this) = some (some i)) :
    destroy this s = .returned ()
      { s.put (.member this) none with joined := i :: s.joined } := by
  have hjoin := Prog.noexcept_of_returned (StdThread.join_apply hthis)
  refine (Prog.inScope_of_returned hjoin (StdThread.destroy_apply (put_self s _ _))).trans ?_
  refine congrArg (Result.returned ())
    (congrArg (fun f => (⟨f, s.started, i :: s.joined, s.detached⟩ : System H)) ?_)
  exact Function.update_idem _ _ _

theorem destroy_spec {i : ℕ} (h : Ok (insert (.member this) live) s)
    (hnew : .member this ∉ live) (hthis : s.threads (.member this) = some (some i)) :
    Ok live { s.put (.member this) none with joined := i :: s.joined } := by
  have hjoin := StdThread.join_spec (Set.mem_insert (.member this) live) s h
  rw [StdThread.join_apply hthis] at hjoin
  have hdestroy := StdThread.destroy_spec (.member this) _ hjoin
  rw [StdThread.destroy_apply hjoin.2, Set.insert_sdiff_self_of_notMem hnew] at hdestroy
  refine cast (congrArg (fun f => Ok live (⟨f, s.started, i :: s.joined, s.detached⟩ : System H))
    ?_) hdestroy
  exact Function.update_idem _ _ _

end ScopedThreadGuard

/-- The program neither stops nor loses a thread, and leaves the members of the guards in `P`
alone. -/
def Respects (P : Set H) (live : Set (Object H)) (x : Prog (System H) Unit) : Prop :=
  ∀ s, Ok live s → (x s).Satisfies
    (fun _ s' => Ok live s' ∧ ∀ h ∈ P, s'.threads (.member h) = s.threads (.member h))
    (fun _ s' => Ok live s' ∧ ∀ h ∈ P, s'.threads (.member h) = s.threads (.member h))

/-- **One guard.** -/
theorem Respects.scope {P : Set H} {x : Prog (System H) Unit}
    (hx : Respects P (insert (.member this) live) x) (hP : this ∈ P) (hthis : .member this ∉ live)
    (hparameter : .parameter ∉ live) (running : Bool) :
    Respects (P \ {this}) live (ScopedThreadGuard.scope this running x) := by
  intro s h
  have hnone := h.threads_eq_none hthis
  have hnone' := h.threads_eq_none hparameter
  cases running with
  | false =>
    rw [ScopedThreadGuard.scope_false hnone hnone']
    exact ⟨h, fun _ _ => rfl⟩
  | true =>
    rw [ScopedThreadGuard.scope_true hnone hnone']
    have hstart : Ok (insert (.member this) live) (startIn s (.member this)) := by
      have hspec := StdThread.start_spec hthis s h
      rw [start_apply hnone] at hspec
      exact hspec
    have hspec := hx _ hstart
    have hleave : ∀ s₂ : System H, Ok (insert (.member this) live) s₂ →
        (∀ h ∈ P, s₂.threads (.member h) = (startIn s (.member this)).threads (.member h)) →
        ∃ s₃, ScopedThreadGuard.destroy this s₂ = .returned () s₃ ∧ Ok live s₃ ∧
          ∀ h ∈ P \ {this}, s₃.threads (.member h) = s.threads (.member h) := by
      intro s₂ hok hsame
      have hmine : s₂.threads (.member this) = some (some s.started) :=
        (hsame this hP).trans (put_self _ _ _)
      refine ⟨_, ScopedThreadGuard.destroy_apply hmine,
        ScopedThreadGuard.destroy_spec hok hthis hmine, fun h hh => ?_⟩
      have hne : Object.member h ≠ .member this := fun he => hh.2 (Object.member.inj he)
      exact (put_of_ne hne _).trans ((hsame h hh.1).trans (put_of_ne hne _))
    cases hr : x (startIn s (.member this)) with
    | returned _ s₂ =>
      rw [hr] at hspec
      obtain ⟨s₃, hdestroy, hs₃⟩ := hleave s₂ hspec.1 hspec.2
      rw [Prog.inScope_of_returned hr hdestroy]
      exact hs₃
    | threw what s₂ =>
      rw [hr] at hspec
      obtain ⟨s₃, hdestroy, hs₃⟩ := hleave s₂ hspec.1 hspec.2
      rw [Prog.inScope_of_threw hr hdestroy]
      exact hs₃
    | stopped why =>
      rw [hr] at hspec
      exact hspec.elim

/-- The members of the guards. -/
def members (guards : List (H × Bool)) : Set (Object H) := {o | ∃ g ∈ guards, o = .member g.1}

/-- **Nested guards**, by induction on the scopes. -/
theorem Respects.scopes {P : Set H} {guards : List (H × Bool)}
    (hnodup : (guards.map Prod.fst).Nodup) (hP : ∀ g ∈ guards, g.1 ∈ P)
    (hnew : ∀ g ∈ guards, .member g.1 ∉ live) (hparameter : .parameter ∉ live)
    (hbody : Respects P (live ∪ members guards) body) :
    Respects (P \ {h | h ∈ guards.map Prod.fst}) live (scopes guards body) := by
  induction guards generalizing live with
  | nil =>
    have hlive : live ∪ members ([] : List (H × Bool)) = live := by
      ext o
      simp [members]
    rw [hlive] at hbody
    have hall : P \ {h | h ∈ ([] : List (H × Bool)).map Prod.fst} = P := by
      ext h
      simp
    rw [hall]
    exact hbody
  | cons g guards ih =>
    obtain ⟨this, running⟩ := g
    rw [List.map_cons, List.nodup_cons] at hnodup
    obtain ⟨hfresh, hnodup⟩ := hnodup
    have hlive : live ∪ members ((this, running) :: guards) =
        insert (.member this) live ∪ members guards := by
      ext o
      simp [members, or_left_comm, or_assoc]
    rw [hlive] at hbody
    have hinner := ih hnodup (fun g hg => hP g (.tail _ hg)) (fun g hg => ?_)
      (not_mem_insert_member this hparameter) hbody
    · have houter := Respects.scope hinner ⟨hP (this, running) (.head _), hfresh⟩ (hnew _ (.head _))
        hparameter running
      have hall : (P \ {h | h ∈ guards.map Prod.fst}) \ {this} =
          P \ {h | h ∈ ((this, running) :: guards).map Prod.fst} := by
        ext h
        rw [List.map_cons, Set.mem_sdiff_singleton, Set.mem_sdiff, Set.mem_sdiff, Set.mem_ofPred_eq,
          Set.mem_ofPred_eq, List.mem_cons, not_or, and_assoc, and_comm (a := ¬ h ∈ _)]
      rw [hall] at houter
      exact houter
    · rw [Set.mem_insert_iff, not_or]
      refine ⟨fun he => hfresh ?_, hnew g (.tail _ hg)⟩
      have hmem : g.1 ∈ guards.map Prod.fst := List.mem_map_of_mem hg
      rw [Object.member.inj he] at hmem
      exact hmem

theorem Respects.triple {P : Set H} (h : Respects P live body) :
    Triple (Ok live) body (fun _ => Ok live) (fun _ => Ok live) :=
  fun s hs => (h s hs).imp (fun _ _ hs' => hs'.1) (fun _ _ hs' => hs'.1)

/-- **No guard loses a thread.**  Around a body that keeps the threads accounted for, returning or
throwing, `betterOops`, `muchBetterOops` and any nest of scopes with a `ScopedThreadGuard` (whose
member the body does not get at) keep them accounted for, and do not stop the program; the objects
that they have made are gone afterwards. -/
theorem guards_account (hparameter : .parameter ∉ live) :
    (∀ (t : Object H) (starts : Bool) (body : Prog (System H) Unit), t ∉ live →
      Triple (Ok (insert t live)) body (fun _ => Ok (insert t live))
        (fun _ => Ok (insert t live)) →
      Triple (Ok live) (betterOops t starts body) (fun _ => Ok live) (fun _ => Ok live) ∧
      Triple (Ok live) (muchBetterOops t starts body) (fun _ => Ok live) (fun _ => Ok live)) ∧
    (∀ (guards : List (H × Bool)) (body : Prog (System H) Unit),
      (guards.map Prod.fst).Nodup → (∀ g ∈ guards, .member g.1 ∉ live) →
      Respects {h | h ∈ guards.map Prod.fst} (live ∪ members guards) body →
      Triple (Ok live) (scopes guards body) (fun _ => Ok live) (fun _ => Ok live)) := by
  refine ⟨fun t starts body ht hbody => ?_, fun guards body hnodup hnew hbody => ?_⟩
  · exact ⟨betterOops_spec ht starts hbody, muchBetterOops_spec ht starts hbody⟩
  · exact (Respects.scopes hnodup (fun g hg => List.mem_map_of_mem hg) hnew hparameter
      hbody).triple

/-- The body of both functions throws; the second guard of two gets no thread. -/
theorem guards_account_twoGuards :
    Triple (Ok (∅ : Set (Object Bool)))
      (betterOops (.member false) true (.throwing "failed")) (fun _ => Ok ∅) (fun _ => Ok ∅) ∧
    Triple (Ok (∅ : Set (Object Bool)))
      (muchBetterOops (.member false) true (.throwing "failed")) (fun _ => Ok ∅) (fun _ => Ok ∅) ∧
    Triple (Ok (∅ : Set (Object Bool))) (scopes [(false, true), (true, false)] (pure ()))
      (fun _ => Ok ∅) (fun _ => Ok ∅) := by
  obtain ⟨hfunctions, hscopes⟩ :=
    guards_account (Set.notMem_empty (Object.parameter : Object Bool))
  obtain ⟨hbetter, hmuchBetter⟩ := hfunctions (.member false) true (.throwing "failed")
    (Set.notMem_empty _) (fun _ hs => hs)
  refine ⟨hbetter, hmuchBetter, hscopes _ _ (by decide) (fun _ _ => Set.notMem_empty _) ?_⟩
  exact fun s hs => ⟨hs, fun _ _ => rfl⟩

end ConcurrencyInAction.ThreadGuards
