import ConcurrencyInAction.LazyInitialization.Model
import ConcurrencyInAction.Lib.CriticalRegion

/-!
# The resource is initialized once

* `region`: the mutex guards the pointer and the number of objects; outside, there is either no
  object and a null pointer, or one object that the pointer points to;
* `Sees`: what a thread that has seen a non-null pointer knows of it without the mutex;
* `Published`: what holds of the pointer at any time, with the mutex taken or not;
* `lazy_initialization`: one object at most, the pointer stays, every use is of that object, and
  after an exception the mutex is free and a later call initializes.
-/

namespace ConcurrencyInAction.LazyInitialization

open Interleaving ExclusiveLock

variable {T : Type*}

/-! ### The critical region -/

/-- The points between the acquisition of the mutex and its release. -/
def Point.Inside : Point → Prop
  | .test | .construct | .reset _ | .unlock | .unwind => True
  | _ => False

/-- No object and a null pointer, or one object and a pointer to it. -/
def Initialized : Option ℕ × ℕ → Prop
  | (pointer, constructed) =>
      (pointer = none ∧ constructed = 0) ∨ (pointer = some 0 ∧ constructed = 1)

/-- What a thread that holds the mutex knows of the pointer and of the number of objects. -/
def Point.Known : Point → Option ℕ × ℕ → Prop
  | .test, r => Initialized r
  | .construct, r | .unwind, r => r = (none, 0)
  | .reset object, r => object = 0 ∧ r = (none, 1)
  | .unlock, r => r = (some 0, 1)
  | _, _ => False

def region : CriticalRegion T (Shared T) Thread (Option ℕ × ℕ) where
  owner := (·.resourceMutex)
  resource g := (g.resourcePtr, g.constructed)
  Inside l := l.point.Inside
  Invariant := Initialized
  Known l := l.point.Known

/-! ### Outside the region -/

/-- What a thread knows of the pointer once it has seen that it is not null. -/
def Point.Sees : Point → Option ℕ → Prop
  | .arrow, pointer => pointer = some 0
  | .doSomething p, pointer => p = some 0 ∧ pointer = some 0
  | .undefined, _ => False
  | _, _ => True

/-- What holds at any time. -/
structure Published (g : Shared T) : Prop where
  once : g.constructed ≤ 1
  points : ∀ object, g.resourcePtr = some object → object = 0
  used : ∀ object ∈ g.used, g.resourcePtr = some object

/-- The pointer stays when it is not null. -/
def Stays (g g' : Shared T) : Prop :=
  ∀ object, g.resourcePtr = some object → g'.resourcePtr = some object

/-- What is true of a thread at every point. -/
structure Assertion (t : T) (g : Shared T) (l : Thread) : Prop where
  region : region.Assertion t g l
  sees : l.point.Sees g.resourcePtr

/-- What a thread relies on. -/
structure Rely (u : T) (g g' : Shared T) : Prop where
  region : region.Rely u g g'
  stays : Stays g g'

variable {t u : T} {c : Choice} {g g' : Shared T} {l l' : Thread}

theorem Point.Sees.stable {p : Point} (h : p.Sees g.resourcePtr) (hstays : Stays g g') :
    p.Sees g'.resourcePtr := by
  cases p with
  | arrow => exact hstays 0 h
  | doSomething pointer => exact ⟨h.1, hstays 0 h.2⟩
  | undefined => exact h
  | idle | firstTest | lock | test | construct | reset _ | unlock | unwind => exact trivial

theorem Assertion.stable (hr : Rely u g g') (h : Assertion u g l) : Assertion u g' l where
  region := h.region.stable hr.region
  sees := h.sees.stable hr.stays

/-- What a thread inside the region knows at its point. -/
theorem Assertion.known (h : Assertion t g l) {p : Point} (hp : l.point = p) (hin : p.Inside) :
    p.Known (g.resourcePtr, g.constructed) := by
  subst hp
  exact h.region.known hin

/-! ### One step -/

/-- A step outside the region. -/
theorem move_outside {p : Point} (hp : l.point = p) (hout : ¬ p.Inside) (hout' : ¬ l'.point.Inside)
    (howner : g'.resourceMutex = g.resourceMutex)
    (hres : (g'.resourcePtr, g'.constructed) = (g.resourcePtr, g.constructed)) :
    region.Move t g l g' l' :=
  .outside howner hres (hp ▸ hout : ¬ l.point.Inside) hout'

/-- A step inside the region. -/
theorem move_inside {p : Point} (hp : l.point = p) (hin : p.Inside) (hin' : l'.point.Inside)
    (howner : g'.resourceMutex = g.resourceMutex)
    (hknown : p.Known (g.resourcePtr, g.constructed) →
      l'.point.Known (g'.resourcePtr, g'.constructed)) :
    region.Move t g l g' l' := by
  subst hp
  exact .inside howner hin hin' hknown

/-- A step that leaves the region. -/
theorem move_leave {p : Point} (hp : l.point = p) (hin : p.Inside) (hout : ¬ l'.point.Inside)
    (howner : g'.resourceMutex = none)
    (hinv : p.Known (g.resourcePtr, g.constructed) →
      Initialized (g'.resourcePtr, g'.constructed)) :
    region.Move t g l g' l' := by
  subst hp
  exact .leave howner hin hout hinv

/-- **Every step is a move of the region.** -/
theorem Step.move (hstep : Step t g l c g' l') : region.Move t g l g' l' := by
  cases hstep with
  | calls f hp =>
    refine move_outside hp id ?_ rfl rfl
    cases f with
    | unnecesarySerializedProtection => exact id
    | undefinedBehaviourWithDoubleCheckedLocking => exact id
  | firstTestNull hp _ => exact move_outside hp id id rfl rfl
  | firstTestSet hp _ => exact move_outside hp id id rfl rfl
  | locks hp hfree => exact .enter hfree rfl rfl trivial id
  | testNull hp hnull =>
    refine move_inside hp trivial trivial rfl ?_
    intro hk
    rcases hk with ⟨hptr, hconstructed⟩ | ⟨hptr, -⟩
    · exact Prod.ext hptr hconstructed
    · exact absurd (hnull.symm.trans hptr).symm (Option.some_ne_none 0)
  | testSet hp hset =>
    refine move_inside hp trivial trivial rfl ?_
    intro hk
    rcases hk with ⟨hptr, -⟩ | ⟨hptr, hconstructed⟩
    · exact absurd hptr hset
    · exact Prod.ext hptr hconstructed
  | constructs hp =>
    refine move_inside hp trivial trivial rfl ?_
    intro hk
    obtain ⟨hptr, hconstructed⟩ := Prod.mk.inj hk
    refine ⟨hconstructed, Prod.ext hptr ?_⟩
    show g.constructed + 1 = 1
    rw [hconstructed]
  | fails hp => exact move_inside hp trivial trivial rfl id
  | resets hp =>
    refine move_inside hp trivial trivial rfl ?_
    intro hk
    obtain ⟨rfl, hr⟩ := hk
    exact Prod.ext rfl (Prod.mk.inj hr).2
  | unlocks hp => exact move_leave hp trivial id rfl (fun hk => .inr (Prod.mk.inj hk))
  | unwinds hp => exact move_leave hp trivial id rfl (fun hk => .inl (Prod.mk.inj hk))
  | reads hp => exact move_outside hp id id rfl rfl
  | does hp => exact move_outside hp id id rfl rfl
  | dereferencesNull hp => exact move_outside hp id id rfl rfl

/-- **The pointer stays.**  Only `reset` writes it, and then it is null. -/
theorem Step.stays (h : Assertion t g l) (hstep : Step t g l c g' l') : Stays g g' := by
  intro object hptr
  cases hstep with
  | resets hp =>
    have hnull := (Prod.mk.inj (h.known hp trivial).2).1
    exact absurd (hptr.symm.trans hnull) (Option.some_ne_none object)
  | calls | firstTestNull | firstTestSet | locks | testNull | testSet | constructs | fails
  | unlocks | unwinds | reads | does | dereferencesNull => exact hptr

/-- A step keeps what holds at any time. -/
theorem Step.published (hS : Published g) (h : Assertion t g l) (hstep : Step t g l c g' l') :
    Published g' := by
  have hstays := hstep.stays h
  cases hstep with
  | constructs hp =>
    obtain ⟨hptr, hconstructed⟩ := Prod.mk.inj (h.known hp trivial)
    refine ⟨?_, hS.points, hS.used⟩
    show g.constructed + 1 ≤ 1
    rw [hconstructed]
  | resets hp =>
    obtain ⟨rfl, -⟩ := h.known hp trivial
    refine ⟨hS.once, fun object he => ?_, fun object hu => hstays object (hS.used object hu)⟩
    exact (Option.some.inj he).symm
  | @does object hp =>
    have hsees := h.sees
    rw [hp] at hsees
    refine ⟨hS.once, hS.points, fun x hx => ?_⟩
    rcases List.mem_cons.mp hx with rfl | hx
    · exact hsees.2.trans hsees.1.symm
    · exact hS.used x hx
  | calls | firstTestNull | firstTestSet | locks | testNull | testSet | fails
  | unlocks | unwinds | reads | dereferencesNull => exact ⟨hS.once, hS.points, hS.used⟩

/-- A thread that has seen the pointer knows that it points to the object. -/
theorem Step.sees (hS : Published g) (h : Assertion t g l) (hstep : Step t g l c g' l') :
    l'.point.Sees g'.resourcePtr := by
  have hsees := h.sees
  cases hstep with
  | calls f _ =>
    cases f with
    | unnecesarySerializedProtection => exact trivial
    | undefinedBehaviourWithDoubleCheckedLocking => exact trivial
  | firstTestSet _ hset =>
    obtain ⟨object, hptr⟩ := Option.ne_none_iff_exists'.mp hset
    show g.resourcePtr = some 0
    rw [hptr, hS.points object hptr]
  | unlocks hp => exact (Prod.mk.inj (h.known hp trivial)).1
  | reads hp =>
    rw [hp] at hsees
    exact ⟨hsees, hsees⟩
  | dereferencesNull hp =>
    rw [hp] at hsees
    exact absurd hsees.1.symm (Option.some_ne_none 0)
  | firstTestNull | locks | testNull | testSet | constructs | fails | resets | unwinds | does =>
    exact trivial

/-- A call that ends by an exception gives the mutex back in its last step. -/
theorem Step.frees (hl : l.point ≠ .idle) (hstep : Step t g l c g' l')
    (hthrew : l' = .finish .threw) : g'.resourceMutex = none := by
  cases hstep with
  | unwinds hp => rfl
  | calls f hp => exact absurd hp hl
  | does hp => exact nomatch hthrew
  | firstTestNull hp | firstTestSet hp | locks hp | testNull hp | testSet hp | constructs hp
  | fails hp | resets hp | unlocks hp | reads hp | dereferencesNull hp =>
    exact absurd (congrArg Thread.point hthrew) nofun

theorem relyGuarantee [DecidableEq T] :
    RelyGuarantee (program (T := T)) anyStep (fun g => region.Free g ∧ Published g) Assertion
      Rely where
  stable _ _ _ _ hr h := h.stable hr
  step s t c g' l' hS hP _ hp := by
    have hstep := step_of_program hp
    obtain ⟨hfree, hregion, hrely⟩ := hstep.move.keeps hS.1 (hP t).region
    refine ⟨⟨hfree, hstep.published hS.2 (hP t)⟩, ⟨hregion, hstep.sees hS.2 (hP t)⟩, ?_⟩
    exact fun u hu => ⟨hrely u hu, hstep.stays (hP t)⟩

/-! ### Runs -/

section Runs

variable [DecidableEq T] {s : Config T (Shared T) Thread}

theorem reachable_assertion (hs : Reachable program anyStep initial s) :
    (region.Free s.shared ∧ Published s.shared) ∧ ∀ t, Assertion t s.shared (s.locals t) := by
  refine hs.rely_guarantee relyGuarantee ⟨⟨fun _ => .inl ⟨rfl, rfl⟩, ?_⟩, fun t => ⟨⟨?_, ?_⟩, ?_⟩⟩
  · exact ⟨Nat.zero_le 1, fun _ he => absurd he.symm (Option.some_ne_none _),
      fun _ hx => absurd hx List.not_mem_nil⟩
  · exact iff_of_false (Option.some_ne_none t).symm id
  · exact fun hin => hin.elim
  · exact trivial

/-- A thread that is about to take the free mutex, and that nobody disturbs, leaves the pointer
set. -/
theorem lock_completes (hfree : g.resourceMutex = none) (hp : l.point = .lock) :
    ∃ cs g', Config.solo program t (g, l) cs = some (g', .finish .returned) ∧
      g'.resourcePtr ≠ none := by
  cases hptr : g.resourcePtr with
  | none =>
    -- test, construct, reset, unlock, use
    refine ⟨[.run, .run, .run, .run, .run, .run, .run],
      ⟨some g.constructed, none, g.constructed + 1, g.constructed :: g.used⟩, ?_,
      Option.some_ne_none g.constructed⟩
    simp [Config.solo, program, hp, hfree, hptr, Thread.goto]
  | some object =>
    -- test, unlock, use
    refine ⟨[.run, .run, .run, .run, .run],
      ⟨some object, none, g.constructed, object :: g.used⟩, ?_, Option.some_ne_none object⟩
    simp [Config.solo, program, hp, hfree, hptr, Thread.goto]

/-- **A call that nobody disturbs leaves the pointer set.** -/
theorem call_completes (hfree : g.resourceMutex = none) (hp : l.point = .idle) (f : Call) :
    ∃ cs g', Config.solo program t (g, l) (.call f :: cs) = some (g', .finish .returned) ∧
      g'.resourcePtr ≠ none := by
  have hcall : ∀ cs, Config.solo program t (g, l) (.call f :: cs) =
      Config.solo program t (g, ⟨f.entry, none⟩) cs := by
    intro cs
    simp [Config.solo, program, hp]
  cases f with
  | unnecesarySerializedProtection =>
    obtain ⟨cs, g', hsolo, hset⟩ := lock_completes (t := t) (l := ⟨.lock, none⟩) hfree rfl
    exact ⟨cs, g', (hcall cs).trans hsolo, hset⟩
  | undefinedBehaviourWithDoubleCheckedLocking =>
    cases hptr : g.resourcePtr with
    | none =>
      obtain ⟨cs, g', hsolo, hset⟩ := lock_completes (t := t) (l := ⟨.lock, none⟩) hfree rfl
      refine ⟨.run :: cs, g', (hcall _).trans ?_, hset⟩
      rw [← hsolo]
      simp [Config.solo, program, hptr, Call.entry, Thread.goto]
    | some object =>
      refine ⟨[.run, .run, .run], { g with used := object :: g.used }, (hcall _).trans ?_, ?_⟩
      · simp [Config.solo, program, hptr, Call.entry, Thread.goto]
      · show g.resourcePtr ≠ none
        rw [hptr]
        exact Option.some_ne_none object

/-- **Lazy initialization.** -/
theorem lazy_initialization (hs : Reachable program anyStep initial s) :
    s.shared.constructed ≤ 1 ∧
      (∀ object ∈ s.shared.used, s.shared.resourcePtr = some object) ∧
      (∀ t, (s.locals t).point ≠ .undefined) ∧
      (∀ t c s', s.step program t c = some s' → Stays s.shared s'.shared) ∧
      (∀ t c s', s.step program t c = some s' → (s.locals t).point ≠ .idle →
        s'.locals t = .finish .threw → s'.shared.resourceMutex = none) ∧
      (s.shared.resourceMutex = none → ∀ t f, (s.locals t).point = .idle →
        ∃ cs s', s.run program ((.call f :: cs).map fun c => (t, c)) = some s' ∧
          s'.locals t = .finish .returned ∧ s'.shared.resourcePtr ≠ none) := by
  obtain ⟨⟨-, hS⟩, hP⟩ := reachable_assertion hs
  refine ⟨hS.once, hS.used, fun t hu => ?_, ?_, ?_, ?_⟩
  · have hsees := (hP t).sees
    rw [hu] at hsees
    exact hsees
  · intro t c s' hst
    obtain ⟨g, l, hp, rfl⟩ := Config.step_eq_some.mp hst
    exact (step_of_program hp).stays (hP t)
  · intro t c s' hst hbusy hthrew
    obtain ⟨g, l, hp, rfl⟩ := Config.step_eq_some.mp hst
    replace hthrew : Function.update s.locals t l t = .finish .threw := hthrew
    rw [Function.update_self] at hthrew
    exact (step_of_program hp).frees hbusy hthrew
  · intro hfree t f hidle
    obtain ⟨cs, g, hsolo, hptr⟩ := call_completes hfree hidle f
    exact ⟨cs, _, Config.run_of_solo _ s hsolo, Function.update_self t _ _, hptr⟩

end Runs

/-- The first thread fails to construct the object, and the second one, which had seen the null
pointer before, constructs it. -/
def failThenConstructRun : List (Bool × Choice) :=
  [(true, .call .undefinedBehaviourWithDoubleCheckedLocking), (true, .run),
    (false, .call .unnecesarySerializedProtection), (false, .run), (false, .run), (false, .throws),
    (false, .run), (true, .run), (true, .run), (true, .run), (true, .run), (true, .run)]

theorem lazy_initialization_failThenConstructRun :
    ((initial.run program failThenConstructRun).get (by decide)).shared.constructed ≤ 1 ∧
      ∀ t f, (((initial.run program failThenConstructRun).get (by decide)).locals t).point = .idle →
        ∃ cs s', ((initial.run program failThenConstructRun).get (by decide)).run program
          ((.call f :: cs).map fun c => (t, c)) = some s' ∧
          s'.locals t = .finish .returned ∧ s'.shared.resourcePtr ≠ none := by
  have hr := Reachable.of_run_any failThenConstructRun
    (Option.some_get (x := initial.run program failThenConstructRun) (by decide)).symm
  have h := lazy_initialization hr
  exact ⟨h.1, h.2.2.2.2.2 (by decide)⟩

end ConcurrencyInAction.LazyInitialization
