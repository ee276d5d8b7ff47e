import ConcurrencyInAction.HierachicalMutex.Unlock

/-!
# When the checks throw

Every member function starts with a comparison of the two levels, and only this comparison throws.

* `Call.Violates`: the comparison of each function; `check_step`: the step that makes it;
* `Rejects`: a call that ends with the exception and changes nothing, whatever the other threads do
  in the meantime; `rejects_iff`: exactly when the comparison fails;
* `Completes`: a call that never throws; `completes_of_not_violates`;
* `rejection_exact_iff`: `lock` and `try_lock` throw for the reason that the hierarchy gives, except
  for a mutex with the level `ULONG_MAX` and a thread that holds nothing.
-/

namespace ConcurrencyInAction.HierachicalMutex

open Interleaving ExclusiveLock

variable {T M : Type*}

namespace Call

/-- The point at which a call starts. -/
def entry : Call M → Point M
  | .lock m => .lockCheck m
  | .tryLock m => .tryCheck m
  | .unlock m => .unlockCheck m

/-- The point behind the check. -/
def passed : Call M → Point M
  | .lock m => .lockAcquire m
  | .tryLock m => .tryAcquire m
  | .unlock m => .unlockRestore m

/-- The check throws at this level of the thread. -/
def Violates (hierarchyValue : M → UInt64) (thisThreadHierarchyValue : UInt64) : Call M → Prop
  | .lock m => thisThreadHierarchyValue ≤ hierarchyValue m
  | .tryLock m => thisThreadHierarchyValue ≤ hierarchyValue m
  | .unlock m => thisThreadHierarchyValue ≠ hierarchyValue m

end Call

/-- The thread has called a function and been rejected. -/
def Thread.reject (l : Thread M) : Thread M :=
  { l with outcome := some (.logicError hierarchyViolated) }

/-- The thread takes no step but those of the call it is in. -/
def StaysInCall (t : T) (ok : Config T (Shared T M) (Thread M) → T → Choice M → Prop) : Prop :=
  ∀ s u c, ok s u c → u = t → ∀ f, c ≠ .call f

section Code

variable [DecidableEq T] [DecidableEq M] {hierarchyValue : M → UInt64} {t : T} {f : Call M}
  {g g' : Shared T M} {l l' : Thread M} {s s₁ : Config T (Shared T M) (Thread M)}
  {ok : Config T (Shared T M) (Thread M) → T → Choice M → Prop}

/-- A call of `f` by `t` throws and changes nothing: whenever `t` gets to the next step of the call,
this step ends it with the exception and leaves the mutexes alone, and the thread is as before. -/
def Rejects (hierarchyValue : M → UInt64)
    (ok : Config T (Shared T M) (Thread M) → T → Choice M → Prop) (t : T) (f : Call M)
    (s : Config T (Shared T M) (Thread M)) : Prop :=
  ∃ s₁, s.step (program hierarchyValue) t (.call f) = some s₁ ∧ s₁.shared = s.shared ∧
    ∀ s', Reachable (program hierarchyValue) ok s₁ s' → (s'.locals t).point ≠ .idle →
      ∃ s'', s'.step (program hierarchyValue) t .run = some s'' ∧ s''.shared = s'.shared ∧
        s''.locals t = (s.locals t).reject

/-- A call of `f` by `t` does not throw, whatever the other threads do in the meantime. -/
def Completes (hierarchyValue : M → UInt64)
    (ok : Config T (Shared T M) (Thread M) → T → Choice M → Prop) (t : T) (f : Call M)
    (s : Config T (Shared T M) (Thread M)) : Prop :=
  ∀ s₁, s.step (program hierarchyValue) t (.call f) = some s₁ →
    ∀ s', Reachable (program hierarchyValue) ok s₁ s' →
      ∀ what, (s'.locals t).outcome ≠ some (.logicError what)

theorem call_step (hidle : l.point = .idle) (f : Call M) :
    program hierarchyValue t (.call f) g l = some (g, l.enter f.entry) := by
  cases f <;> simp [program, hidle, Call.entry]

/-- **The check**, the first step of every member function. -/
theorem check_step (hp : l.point = f.entry) :
    (f.Violates hierarchyValue l.thisThreadHierarchyValue →
      program hierarchyValue t .run g l = some (g, l.finish (.logicError hierarchyViolated))) ∧
    (¬ f.Violates hierarchyValue l.thisThreadHierarchyValue →
      program hierarchyValue t .run g l = some (g, l.goto f.passed)) := by
  cases f with
  | lock m | tryLock m =>
    constructor
    · intro hle
      simp [program, hp, Call.entry, checkForHierarchyViolation, show _ ≤ _ from hle]
    · intro hle
      simp [program, hp, Call.entry, Call.passed, checkForHierarchyViolation,
        show ¬ _ ≤ _ from hle]
  | unlock m =>
    constructor
    · intro hne
      simp [program, hp, Call.entry, show _ ≠ _ from hne]
    · intro hne
      simp [program, hp, Call.entry, Call.passed, not_not.mp hne]

/-- What a step at the check does. -/
theorem check_cases {c : Choice M} (hp : l.point = f.entry) (hc : ∀ f, c ≠ .call f)
    (hstep : Step hierarchyValue t g l c g' l') :
    g' = g ∧ (f.Violates hierarchyValue l.thisThreadHierarchyValue ∧
        l' = l.finish (.logicError hierarchyViolated) ∨
      ¬ f.Violates hierarchyValue l.thisThreadHierarchyValue ∧ l' = l.goto f.passed) := by
  have h := (program_eq_some hierarchyValue).mpr hstep
  cases c with
  | call f' => exact absurd rfl (hc f')
  | spurious => cases f <;> simp [program, hp, Call.entry] at h
  | run =>
    by_cases hv : f.Violates hierarchyValue l.thisThreadHierarchyValue
    · rw [(check_step hp).1 hv] at h
      cases h
      exact ⟨rfl, .inl ⟨hv, rfl⟩⟩
    · rw [(check_step hp).2 hv] at h
      cases h
      exact ⟨rfl, .inr ⟨hv, rfl⟩⟩

/-- A thread outside every function only calls one. -/
theorem not_step_of_idle {c : Choice M} (hp : l.point = .idle) (hc : ∀ f, c ≠ .call f) :
    ¬ Step hierarchyValue t g l c g' l' := by
  intro hstep
  have h := (program_eq_some hierarchyValue).mpr hstep
  cases c with
  | call f => exact hc f rfl
  | run => simp [program, hp] at h
  | spurious => simp [program, hp] at h

/-- What the steps of the call keep of the thread's own state holds until the next call. -/
theorem local_of_reachable {P : Thread M → Prop} (hok : StaysInCall t ok) (h₁ : P (s₁.locals t))
    (hstep : ∀ g l c g' l', P l → (∀ f, c ≠ .call f) → Step hierarchyValue t g l c g' l' → P l')
    (hs : Reachable (program hierarchyValue) ok s₁ s) : P (s.locals t) := by
  refine hs.local_invariant (P := fun u l => u = t → P l) (fun u hu => hu ▸ h₁) ?_ t rfl
  intro s u c g l _ hI hoks hp hu
  subst hu
  exact hstep _ _ c _ _ (hI rfl) (hok s u c hoks rfl) ((program_eq_some hierarchyValue).mp hp)

/-- **A call is rejected exactly when its check fails.** -/
theorem rejects_iff (hok : StaysInCall t ok) (hidle : (s.locals t).point = .idle) (f : Call M) :
    Rejects hierarchyValue ok t f s ↔
      f.Violates hierarchyValue (s.locals t).thisThreadHierarchyValue := by
  have hcall : s.step (program hierarchyValue) t (.call f) =
      some ⟨s.shared, Function.update s.locals t ((s.locals t).enter f.entry)⟩ :=
    Config.step_eq_some.mpr ⟨_, _, call_step hidle f, rfl⟩
  have hrejected : ((s.locals t).enter f.entry).finish (.logicError hierarchyViolated) =
      (s.locals t).reject := by
    show Thread.mk _ .idle _ _ = Thread.mk _ (s.locals t).point _ _
    rw [hidle]
    rfl
  constructor
  · intro h
    obtain ⟨s₁, hs₁, -, hall⟩ := h
    obtain rfl := Option.some.inj (hcall.symm.trans hs₁)
    have hentry : f.entry ≠ .idle := by cases f <;> exact nofun
    obtain ⟨s'', hs'', -, hl⟩ := hall _ .init (by simpa [Thread.enter] using hentry)
    by_contra hv
    -- past the check the thread is still inside the call
    obtain ⟨g, l, hp, rfl⟩ := Config.step_eq_some.mp hs''
    simp only [Function.update_self] at hp hl
    rw [(check_step (l := (s.locals t).enter f.entry) rfl).2 hv] at hp
    cases hp
    have hpoint : f.passed = .idle := (congrArg Thread.point hl).trans hidle
    cases f <;> cases hpoint
  · intro hv
    refine ⟨_, hcall, rfl, fun s' hs' hbusy => ?_⟩
    have hl := local_of_reachable
      (P := fun l => l = (s.locals t).enter f.entry ∨ l.point = .idle) hok
      (.inl (Function.update_self t _ _)) (fun g l c g' l' hP hc hst => ?_) hs'
    · rcases hl with hl | hl
      · refine ⟨_, Config.step_eq_some.mpr ⟨_, _, (check_step (f := f) ?_).1 ?_, rfl⟩, rfl, ?_⟩
        · rw [hl]
          rfl
        · rw [hl]
          exact hv
        · show Function.update s'.locals t _ t = _
          rw [Function.update_self, hl]
          exact hrejected
      · exact absurd hl hbusy
    · rcases hP with rfl | hP
      · obtain ⟨-, ⟨-, rfl⟩ | ⟨hnot, -⟩⟩ := check_cases rfl hc hst
        · exact .inr rfl
        · exact absurd hv hnot
      · exact (not_step_of_idle hP hc hst).elim

/-! ### Calls that pass their check -/

/-- The thread is past the check of its call, or the call has ended without an exception. -/
structure Past (l : Thread M) : Prop where
  notAtCheck : ∀ f : Call M, l.point ≠ f.entry
  noLogicError : ∀ what, l.outcome ≠ some (.logicError what)

omit [DecidableEq T] in
/-- Only the checks throw. -/
theorem Past.step {c : Choice M} (h : Past l) (hc : ∀ f, c ≠ .call f)
    (hstep : Step hierarchyValue t g l c g' l') : Past l' := by
  have hpoint := h.notAtCheck
  have hout := h.noLogicError
  cases hstep with
  | callLock _ | callTryLock _ | callUnlock _ => exact absurd rfl (hc _)
  | @checkThrows m hp _ =>
    rcases hp with hp | hp
    · exact absurd hp (hpoint (.lock m))
    · exact absurd hp (hpoint (.tryLock m))
  | @lockCheckPasses m hp _ => exact absurd hp (hpoint (.lock m))
  | @tryCheckPasses m hp _ => exact absurd hp (hpoint (.tryLock m))
  | @unlockThrows m hp _ => exact absurd hp (hpoint (.unlock m))
  | @unlockPasses m hp _ => exact absurd hp (hpoint (.unlock m))
  | takes _ _ | savesPrevious _ | restores _ | releasesForeign _ _ =>
    exact ⟨fun f => by cases f <;> exact nofun, hout⟩
  | tryFails _ _ | tryFailsSpuriously _ | setsThis _ | releases _ _ =>
    exact ⟨fun f => by cases f <;> exact nofun, nofun⟩

/-- A call that passes its check does not throw. -/
theorem completes_of_not_violates (hok : StaysInCall t ok) (hidle : (s.locals t).point = .idle)
    (hv : ¬ f.Violates hierarchyValue (s.locals t).thisThreadHierarchyValue) :
    Completes hierarchyValue ok t f s := by
  intro s₁ hs₁ s' hs'
  obtain ⟨g₁, l₁, hp₁, rfl⟩ := Config.step_eq_some.mp hs₁
  rw [call_step hidle f] at hp₁
  cases hp₁
  have hl := local_of_reachable
    (P := fun l => l = (s.locals t).enter f.entry ∨ Past l) hok
    (.inl (Function.update_self t _ _)) (fun g l c g' l' hP hc hst => ?_) hs'
  · rcases hl with hl | hl
    · rw [hl]
      exact nofun
    · exact hl.noLogicError
  · right
    rcases hP with rfl | hP
    · obtain ⟨-, ⟨hyes, -⟩ | ⟨-, rfl⟩⟩ := check_cases rfl hc hst
      · exact absurd hyes hv
      · refine ⟨fun f' => ?_, nofun⟩
        cases f <;> cases f' <;> exact nofun
    · exact hP.step hc hst

/-! ### The reason to throw -/

/-- The thread holds a mutex that is not above `m`. -/
def HoldsAtMost (hierarchyValue : M → UInt64) (t : T) (m : M) (g : Shared T M) : Prop :=
  ∃ m', g.internalMutex m' = some t ∧ hierarchyValue m' ≤ hierarchyValue m

/-- `lock` and `try_lock` of `m` are rejected if the thread holds a mutex that is not above `m`, and
do not throw otherwise. -/
def RejectionExact (hierarchyValue : M → UInt64) (t : T) (m : M)
    (s : Config T (Shared T M) (Thread M)) : Prop :=
  ∀ f, f = .lock m ∨ f = .tryLock m →
    (HoldsAtMost hierarchyValue t m s.shared → Rejects hierarchyValue (duringCall t) t f s) ∧
    (¬ HoldsAtMost hierarchyValue t m s.shared → Completes hierarchyValue (duringCall t) t f s)

theorem staysInCall_duringCall (t : T) :
    StaysInCall t (duringCall (T := T) (M := M) t) := fun _ _ _ hok hu => hok.2 hu

omit [DecidableEq T] [DecidableEq M] in
/-- The level of a thread is the lowest of the levels that it holds. -/
theorem level_le_iff {held : List M} (hd : Descending hierarchyValue held) (hne : held ≠ [])
    (value : UInt64) :
    level hierarchyValue held ≤ value ↔ ∃ m ∈ held, hierarchyValue m ≤ value := by
  constructor
  · intro hle
    obtain ⟨m, ms, rfl⟩ := List.exists_cons_of_ne_nil hne
    exact ⟨m, List.mem_cons_self, hle⟩
  · intro h
    obtain ⟨m, hm, hle⟩ := h
    exact UInt64.le_trans (hd.level_le hm) hle

omit [DecidableEq M] in
theorem violates_iff {m : M} (hf : f = .lock m ∨ f = .tryLock m) (value : UInt64) :
    f.Violates hierarchyValue value ↔ value ≤ hierarchyValue m := by
  rcases hf with rfl | rfl <;> exact Iff.rfl

omit [DecidableEq T] [DecidableEq M] in
theorem ulongMax_le_iff (value : UInt64) : ulongMax ≤ value ↔ value = ulongMax := by
  have hmax : ulongMax.toNat = 18446744073709551615 := rfl
  have hlt : value.toNat < 18446744073709551616 := value.toNat_lt
  rw [UInt64.le_iff_toNat_le, ← UInt64.toNat_inj]
  omega

/-- A call cannot both be rejected and not throw. -/
theorem not_completes_of_rejects (h : Rejects hierarchyValue (duringCall t) t f s)
    (hidle : (s.locals t).point = .idle) : ¬ Completes hierarchyValue (duringCall t) t f s := by
  intro hcompletes
  obtain ⟨s₁, hs₁, -, hall⟩ := h
  have hbusy : (s₁.locals t).point ≠ .idle := by
    obtain ⟨g, l, hp, rfl⟩ := Config.step_eq_some.mp hs₁
    rw [call_step hidle f] at hp
    cases hp
    simp only [Function.update_self]
    cases f <;> exact nofun
  obtain ⟨s₂, hs₂, -, hl⟩ := hall s₁ .init hbusy
  have hok : duringCall t s₁ t .run := ⟨nofun, fun _ _ => nofun⟩
  exact hcompletes s₁ hs₁ s₂ (Reachable.init.step hok hs₂) hierarchyViolated (by rw [hl]; rfl)

/-- **When `lock` and `try_lock` throw for the right reason.**  The level of a thread that holds
nothing is `ULONG_MAX`, which a mutex may have as well. -/
theorem rejection_exact_iff (hierarchyValue : M → UInt64)
    (hs : Reachable (program hierarchyValue) unlocksHeld initial s) {t : T}
    (hidle : (s.locals t).point = .idle) (m : M) :
    RejectionExact hierarchyValue t m s ↔
      hierarchyValue m ≠ ulongMax ∨ ∃ m', s.shared.internalMutex m' = some t := by
  have ha := reachable_assertion hs t
  have hat := ha.atPoint
  simp only [AtPoint, hidle] at hat
  have hrejects : ∀ f, f = .lock m ∨ f = .tryLock m →
      (Rejects hierarchyValue (duringCall t) t f s ↔
        level hierarchyValue (s.locals t).acquired ≤ hierarchyValue m) := by
    intro f hf
    rw [rejects_iff (staysInCall_duringCall t) hidle, violates_iff hf, hat.1]
  have hcompletes : ∀ f, f = .lock m ∨ f = .tryLock m →
      ¬ level hierarchyValue (s.locals t).acquired ≤ hierarchyValue m →
        Completes hierarchyValue (duringCall t) t f s := by
    intro f hf hle
    refine completes_of_not_violates (staysInCall_duringCall t) hidle ?_
    rw [violates_iff hf, hat.1]
    exact hle
  by_cases hnil : (s.locals t).acquired = []
  · -- nothing is held, and only the level `ULONG_MAX` is rejected
    have hnone : ∀ m', s.shared.internalMutex m' ≠ some t := by
      intro m' hm'
      have hmem := (ha.owns m').mpr hm'
      rw [hnil] at hmem
      exact List.not_mem_nil hmem
    have hholds : ¬ HoldsAtMost hierarchyValue t m s.shared := by
      intro h
      obtain ⟨m', hm', -⟩ := h
      exact hnone m' hm'
    have hlevel : level hierarchyValue (s.locals t).acquired ≤ hierarchyValue m ↔
        hierarchyValue m = ulongMax := by
      rw [hnil]
      exact ulongMax_le_iff _
    rw [or_iff_left (not_exists.mpr hnone)]
    constructor
    · intro hexact he
      refine not_completes_of_rejects ?_ hidle ((hexact (.lock m) (.inl rfl)).2 hholds)
      exact (hrejects _ (.inl rfl)).mpr (hlevel.mpr he)
    · intro hne f hf
      exact ⟨fun h => absurd h hholds, fun _ => hcompletes f hf (fun hle => hne (hlevel.mp hle))⟩
  · -- the level is that of the lowest mutex held
    have hholds : HoldsAtMost hierarchyValue t m s.shared ↔
        level hierarchyValue (s.locals t).acquired ≤ hierarchyValue m := by
      rw [level_le_iff ha.descending hnil]
      exact exists_congr fun m' => and_congr_left' (ha.owns m').symm
    obtain ⟨m', ms, hcons⟩ := List.exists_cons_of_ne_nil hnil
    have hheld : s.shared.internalMutex m' = some t :=
      (ha.owns m').mp (by rw [hcons]; exact List.mem_cons_self)
    refine iff_of_true (fun f hf => ⟨fun h => ?_, fun h => ?_⟩) (.inr ⟨m', hheld⟩)
    · exact (hrejects f hf).mpr (hholds.mp h)
    · exact hcompletes f hf (fun hle => h (hholds.mpr hle))

end Code

theorem rejection_exact_iff_lockBoth :
    RejectionExact globalHierarchyValue () .highLevelMutex
      ((initial.run (program globalHierarchyValue) lockBoth).get (by decide)) := by
  have hr : Reachable (program globalHierarchyValue) unlocksHeld initial
      ((initial.run (program globalHierarchyValue) lockBoth).get (by decide)) :=
    Reachable.of_run lockBoth _ _ .init (by decide) (Option.some_get _).symm
  exact (rejection_exact_iff globalHierarchyValue hr (by decide) .highLevelMutex).mpr
    (.inr ⟨.highLevelMutex, by decide⟩)

/-- A thread that holds nothing cannot lock a mutex with the level `ULONG_MAX`. -/
theorem not_rejectionExact_ulongMax :
    ¬ RejectionExact (fun _ : Unit => ulongMax) () () (initial (T := Unit)) := by
  intro h
  have hnone : ¬ HoldsAtMost (fun _ : Unit => ulongMax) () () (initial (T := Unit)).shared := by
    intro hholds
    obtain ⟨m, hm, -⟩ := hholds
    exact nomatch hm
  refine not_completes_of_rejects ?_ rfl ((h (.lock ()) (.inl rfl)).2 hnone)
  exact (rejects_iff (staysInCall_duringCall ()) rfl _).mpr (UInt64.le_refl _)

end ConcurrencyInAction.HierachicalMutex
