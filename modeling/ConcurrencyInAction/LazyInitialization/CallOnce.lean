import ConcurrencyInAction.Lib.CriticalRegion
import ConcurrencyInAction.Lib.Completion
import ConcurrencyInAction.Lib.OnceFlag

/-!
# Initialization through `std::call_once`

The member functions `send_data` and `receive_data` of `X`, which share `connection_init_flag`, and
`well_managed_protected_initialization` with `resouce_flag`.  Both make an object in a function that
is passed to `std::call_once` (`open_connection`, `init_resource`), assign it, and use it after the
call.

* `program`: one flag and one object, for any set `F` of functions that go through the flag; making
  the object (`new some_resource`, `connection_manager.open`) may throw, and the exception goes to
  the thread that was active; nothing else throws, so that the assignment (for `resource_ptr` the
  control block that `reset` allocates) is taken to succeed once the object has been made;
* `region`: the flag guards the object;
* `call_once_once`: **safety**.  The object is made once and used by everybody; no call fails after
  one has returned;
* `call_once_completes`: **completion**.  All calls of all threads end, however many of them throw.

The object is its number in the order in which objects are made, and `none` is the one before the
first assignment.  `used` and `ended` are history variables.
-/

namespace ConcurrencyInAction.CallOnce

open Interleaving ExclusiveLock

variable {T F : Type*}

/-- The members of `X` that go through `connection_init_flag`. -/
inductive XMember where
  | sendData
  | receiveData
  deriving DecidableEq

/-- The function that goes through `resouce_flag`. -/
inductive ResourceFunction where
  | wellManagedProtectedInitialization
  deriving DecidableEq

inductive Outcome where
  | returned
  | threw
  deriving DecidableEq

/-- The statement that a thread is at: between two calls, at `std::call_once`, in the function that
is passed to it (`make`, `assign`), at its end, or behind `std::call_once`. -/
inductive Point (F : Type*) where
  | idle
  | callOnce (f : F)
  | make (f : F)
  | assign (f : F) (object : ℕ)
  | complete (f : F)
  | use (f : F)
  deriving DecidableEq

/-- The flag, the object, how many have been made, the uses, and the calls that have ended, the
latest first. -/
structure Shared (T F : Type*) where
  flag : OnceFlag T
  object : Option ℕ
  made : ℕ
  used : List (F × Option ℕ)
  ended : List (F × Outcome)

/-- A thread: its program point, the calls that it has still to make, and how the others ended. -/
structure Thread (F : Type*) where
  point : Point F
  rest : List F
  outcomes : List Outcome

/-- A thread takes its next step, or making the object throws; the assignment does not. -/
inductive Choice where
  | run
  | throws
  deriving DecidableEq

namespace Thread

def goto (l : Thread F) (p : Point F) : Thread F := { l with point := p }

/-- The call ends. -/
def finish (l : Thread F) (o : Outcome) : Thread F := ⟨.idle, l.rest, o :: l.outcomes⟩

end Thread

/-- The functions that go through one flag. -/
def program : Program T Choice (Shared T F) (Thread F) := fun t c g l =>
  match l.point, c with
  | .idle, .run =>
      match l.rest with
      | [] => none
      | f :: fs => some (g, { l with point := .callOnce f, rest := fs })
  | .callOnce f, .run =>
      (g.flag.enter t).map fun flag =>
        ({ g with flag := flag }, l.goto (if flag.isDone then .use f else .make f))
  | .make f, .run => some ({ g with made := g.made + 1 }, l.goto (.assign f g.made))
  | .make f, .throws =>
      some ({ g with flag := .untouched, ended := (f, .threw) :: g.ended }, l.finish .threw)
  | .assign f object, .run => some ({ g with object := some object }, l.goto (.complete f))
  | .complete f, .run => some ({ g with flag := .done }, l.goto (.use f))
  | .use f, .run =>
      some ({ g with used := (f, g.object) :: g.used, ended := (f, .returned) :: g.ended },
        l.finish .returned)
  | _, _ => none

/-- Nothing has been made, and the threads have the calls `calls` before them. -/
def initial (calls : T → List F) : Config T (Shared T F) (Thread F) where
  shared := ⟨.untouched, none, 0, [], []⟩
  locals t := ⟨.idle, calls t, []⟩

/-- The members of `X`. -/
abbrev X.program : Program T Choice (Shared T XMember) (Thread XMember) := CallOnce.program

/-- The callers of `well_managed_protected_initialization`. -/
abbrev Resource.program : Program T Choice (Shared T ResourceFunction) (Thread ResourceFunction) :=
  CallOnce.program

/-! ### What a step can do -/

/-- The steps of the code. -/
inductive Step (t : T) (g : Shared T F) (l : Thread F) : Choice → Shared T F → Thread F → Prop
  | calls {f : F} {fs : List F} : l.point = .idle → l.rest = f :: fs →
      Step t g l .run g { l with point := .callOnce f, rest := fs }
  | activates {f : F} : l.point = .callOnce f → g.flag = .untouched →
      Step t g l .run { g with flag := .active t } (l.goto (.make f))
  | passes {f : F} : l.point = .callOnce f → g.flag = .done → Step t g l .run g (l.goto (.use f))
  | makes {f : F} : l.point = .make f →
      Step t g l .run { g with made := g.made + 1 } (l.goto (.assign f g.made))
  | fails {f : F} : l.point = .make f →
      Step t g l .throws { g with flag := .untouched, ended := (f, .threw) :: g.ended }
        (l.finish .threw)
  | assigns {f : F} {object : ℕ} : l.point = .assign f object →
      Step t g l .run { g with object := some object } (l.goto (.complete f))
  | completes {f : F} : l.point = .complete f →
      Step t g l .run { g with flag := .done } (l.goto (.use f))
  | uses {f : F} : l.point = .use f →
      Step t g l .run
        { g with used := (f, g.object) :: g.used, ended := (f, .returned) :: g.ended }
        (l.finish .returned)

variable {t u : T} {c : Choice} {g g' : Shared T F} {l l' : Thread F}

/-- **Inversion.** -/
theorem step_of_program (h : program t c g l = some (g', l')) : Step t g l c g' l' := by
  unfold program at h
  split at h
  all_goals rename_i hp
  · split at h
    · cases h
    · rename_i hrest
      cases h
      exact .calls hp hrest
  · obtain ⟨flag, hflag, hpair⟩ := Option.map_eq_some_iff.mp h
    cases hpair
    rcases OnceFlag.enter_eq_some hflag with ⟨hu, ha⟩ | ⟨hd, ha⟩
    · subst ha
      exact .activates hp hu
    · subst ha
      have hsame : { g with flag := .done } = g := by rw [← hd]
      rw [hsame]
      exact .passes hp hd
  · cases h
    exact .makes hp
  · cases h
    exact .fails hp
  · cases h
    exact .assigns hp
  · cases h
    exact .completes hp
  · cases h
    exact .uses hp
  · cases h

/-! ### The critical region -/

/-- The points of the function that is passed to `std::call_once`. -/
def Point.Inside : Point F → Prop
  | .make _ | .assign _ _ | .complete _ => True
  | .idle | .callOnce _ | .use _ => False

/-- Whether the initialization has been completed, the object, and how many have been made. -/
abbrev Resource := Bool × Option ℕ × ℕ

/-- Nothing has been made, or one object, which has been assigned. -/
def Initialized (r : Resource) : Prop := r = (false, none, 0) ∨ r = (true, some 0, 1)

/-- What the active thread knows. -/
def Point.Known : Point F → Resource → Prop
  | .make _, r => r = (false, none, 0)
  | .assign _ object, r => object = 0 ∧ r = (false, none, 1)
  | .complete _, r => r = (false, some 0, 1)
  | .idle, _ | .callOnce _, _ | .use _, _ => False

def region : CriticalRegion T (Shared T F) (Thread F) Resource where
  owner g := g.flag.owner
  resource g := (g.flag.isDone, g.object, g.made)
  Inside l := l.point.Inside
  Invariant := Initialized
  Known l := l.point.Known

/-! ### Outside the region -/

/-- The initialization has been completed, with the first object. -/
structure Done (g : Shared T F) : Prop where
  flag : g.flag = .done
  object : g.object = some 0
  made : g.made = 1

/-- What holds at any time. -/
structure Published (g : Shared T F) : Prop where
  made : g.made ≤ 1
  used : ∀ e ∈ g.used, e.2 = some 0
  /-- What ended before a failure has failed. -/
  ordered : g.ended.Pairwise fun later earlier => later.2 = .threw → earlier.2 = .threw
  failed : g.flag ≠ .done → ∀ e ∈ g.ended, e.2 = .threw

/-- The thread is behind `std::call_once`, or has been there. -/
def Thread.Past (l : Thread F) : Prop := (∃ f, l.point = .use f) ∨ .returned ∈ l.outcomes

/-- What is true of a thread at every point. -/
structure Assertion (t : T) (g : Shared T F) (l : Thread F) : Prop where
  region : region.Assertion t g l
  past : l.Past → Done g

/-- What a thread relies on. -/
structure Rely (u : T) (g g' : Shared T F) : Prop where
  region : region.Rely u g g'
  stays : Done g → Done g'

theorem Assertion.stable (hr : Rely u g g') (h : Assertion u g l) : Assertion u g' l where
  region := h.region.stable hr.region
  past hl := hr.stays (h.past hl)

/-- What the active thread knows at its point. -/
theorem Assertion.known (h : Assertion t g l) {p : Point F} (hp : l.point = p) (hin : p.Inside) :
    p.Known (g.flag.isDone, g.object, g.made) := by
  subst hp
  exact h.region.known hin

/-- The flag of the active thread. -/
theorem Assertion.active (h : Assertion t g l) {p : Point F} (hp : l.point = p) (hin : p.Inside) :
    g.flag = .active t := by
  subst hp
  have hown : g.flag.owner = some t := h.region.owns.mpr hin
  cases hflag : g.flag with
  | active u =>
    rw [hflag] at hown
    rw [Option.some.inj hown]
  | untouched =>
    rw [hflag] at hown
    exact nomatch hown
  | done =>
    rw [hflag] at hown
    exact nomatch hown

theorem Done.of_free (h : region.Free g) (hflag : g.flag = .done) : Done g := by
  have howner : g.flag.owner = none := by rw [hflag]; rfl
  have hdone : g.flag.isDone = true := by rw [hflag]; rfl
  rcases h howner with hr | hr
  · have hfalse : g.flag.isDone = false := congrArg Prod.fst hr
    exact nomatch hdone.symm.trans hfalse
  · obtain ⟨hobject, hmade⟩ := Prod.mk.inj (Prod.mk.inj hr).2
    exact ⟨hflag, hobject, hmade⟩

/-! ### One step -/

/-- A step outside the region. -/
theorem move_outside {p : Point F} (hp : l.point = p) (hout : ¬ p.Inside)
    (hout' : ¬ l'.point.Inside) (hflag : g'.flag = g.flag) (hobject : g'.object = g.object)
    (hmade : g'.made = g.made) : region.Move t g l g' l' := by
  subst hp
  refine .outside (congrArg OnceFlag.owner hflag) ?_ hout hout'
  show (g'.flag.isDone, g'.object, g'.made) = (g.flag.isDone, g.object, g.made)
  rw [hflag, hobject, hmade]

/-- A step inside the region. -/
theorem move_inside {p : Point F} (hp : l.point = p) (hin : p.Inside) (hin' : l'.point.Inside)
    (hflag : g'.flag = g.flag)
    (hknown : p.Known (g.flag.isDone, g.object, g.made) →
      l'.point.Known (g'.flag.isDone, g'.object, g'.made)) :
    region.Move t g l g' l' := by
  subst hp
  exact .inside (congrArg OnceFlag.owner hflag) hin hin' hknown

/-- A step that leaves the region. -/
theorem move_leave {p : Point F} (hp : l.point = p) (hin : p.Inside) (hout : ¬ l'.point.Inside)
    (howner : g'.flag.owner = none)
    (hinv : p.Known (g.flag.isDone, g.object, g.made) →
      Initialized (g'.flag.isDone, g'.object, g'.made)) :
    region.Move t g l g' l' := by
  subst hp
  exact .leave howner hin hout hinv

/-- **Every step is a move of the region.** -/
theorem Step.move (hstep : Step t g l c g' l') : region.Move t g l g' l' := by
  cases hstep with
  | calls hp hrest => exact move_outside hp id id rfl rfl rfl
  | activates hp hflag =>
    have howner : g.flag.owner = none := by rw [hflag]; rfl
    have hdone : g.flag.isDone = false := by rw [hflag]; rfl
    refine .enter howner rfl ?_ trivial fun hinv => ?_
    · show (false, g.object, g.made) = (g.flag.isDone, g.object, g.made)
      rw [hdone]
    · rcases hinv with hr | hr
      · exact hr
      · exact nomatch hdone.symm.trans (congrArg Prod.fst hr)
  | passes hp hflag => exact move_outside hp id id rfl rfl rfl
  | makes hp =>
    refine move_inside hp trivial trivial rfl fun hknown => ?_
    obtain ⟨hdone, hrest⟩ := Prod.mk.inj hknown
    obtain ⟨hobject, hmade⟩ := Prod.mk.inj hrest
    refine ⟨hmade, ?_⟩
    show (g.flag.isDone, g.object, g.made + 1) = (false, none, 1)
    rw [hdone, hobject, hmade]
  | fails hp =>
    refine move_leave hp trivial id rfl fun hknown => .inl ?_
    obtain ⟨-, hrest⟩ := Prod.mk.inj hknown
    show (false, g.object, g.made) = (false, none, 0)
    rw [hrest]
  | assigns hp =>
    refine move_inside hp trivial trivial rfl fun hknown => ?_
    obtain ⟨hobject, hr⟩ := hknown
    obtain ⟨hdone, hrest⟩ := Prod.mk.inj hr
    show (g.flag.isDone, some _, g.made) = (false, some 0, 1)
    rw [hdone, hobject, (Prod.mk.inj hrest).2]
  | completes hp =>
    refine move_leave hp trivial id rfl fun hknown => .inr ?_
    obtain ⟨-, hrest⟩ := Prod.mk.inj hknown
    show (true, g.object, g.made) = (true, some 0, 1)
    rw [hrest]
  | uses hp => exact move_outside hp id id rfl rfl rfl

/-- **The object stays.**  Nobody is active any more once the initialization has been completed. -/
theorem Step.stays (h : Assertion t g l) (hstep : Step t g l c g' l') (hdone : Done g) :
    Done g' := by
  have hno : ∀ {p : Point F}, l.point = p → ¬ p.Inside := by
    intro p hp hin
    exact nomatch hdone.flag.symm.trans (h.active hp hin)
  cases hstep with
  | calls hp hrest => exact hdone
  | activates hp hflag => exact nomatch hdone.flag.symm.trans hflag
  | passes hp hflag => exact hdone
  | makes hp => exact absurd trivial (hno hp)
  | fails hp => exact absurd trivial (hno hp)
  | assigns hp => exact absurd trivial (hno hp)
  | completes hp => exact absurd trivial (hno hp)
  | uses hp => exact ⟨hdone.flag, hdone.object, hdone.made⟩

/-- A step keeps what holds at any time. -/
theorem Step.published (hS : Published g) (h : Assertion t g l) (hstep : Step t g l c g' l') :
    Published g' := by
  cases hstep with
  | calls hp hrest => exact hS
  | activates hp hflag =>
    have hnot : g.flag ≠ .done := by rw [hflag]; exact nofun
    exact ⟨hS.made, hS.used, hS.ordered, fun _ => hS.failed hnot⟩
  | passes hp hflag => exact hS
  | makes hp =>
    have hmade := (Prod.mk.inj (Prod.mk.inj (h.known hp trivial)).2).2
    refine ⟨?_, hS.used, hS.ordered, hS.failed⟩
    show g.made + 1 ≤ 1
    omega
  | fails hp =>
    have hnot : g.flag ≠ .done := by rw [h.active hp trivial]; exact nofun
    have hfailed := hS.failed hnot
    refine ⟨hS.made, hS.used, ?_, fun _ e he => ?_⟩
    · exact List.pairwise_cons.mpr ⟨fun e he _ => hfailed e he, hS.ordered⟩
    · rcases List.mem_cons.mp he with he | he
      · rw [he]
      · exact hfailed e he
  | assigns hp => exact ⟨hS.made, hS.used, hS.ordered, hS.failed⟩
  | completes hp => exact ⟨hS.made, hS.used, hS.ordered, fun hnot => absurd rfl hnot⟩
  | uses hp =>
    have hdone := h.past (.inl ⟨_, hp⟩)
    refine ⟨hS.made, fun e he => ?_, ?_, fun hnot => absurd hdone.flag hnot⟩
    · rcases List.mem_cons.mp he with he | he
      · rw [he]
        exact hdone.object
      · exact hS.used e he
    · exact List.pairwise_cons.mpr ⟨fun _ _ hthrew => (nomatch hthrew), hS.ordered⟩

/-- A thread that gets past `std::call_once` finds the initialization completed. -/
theorem Step.past (hfree' : region.Free g') (h : Assertion t g l)
    (hstep : Step t g l c g' l') (hpast : l'.Past) : Done g' := by
  have hkept : l.Past → Done g' := fun hl => hstep.stays h (h.past hl)
  cases hstep with
  | calls hp hrest =>
    rcases hpast with ⟨f, hf⟩ | hreturned
    · exact nomatch hf
    · exact hkept (.inr hreturned)
  | activates hp hflag =>
    rcases hpast with ⟨f, hf⟩ | hreturned
    · exact nomatch hf
    · exact hkept (.inr hreturned)
  | passes hp hflag => exact Done.of_free hfree' hflag
  | makes hp =>
    rcases hpast with ⟨f, hf⟩ | hreturned
    · exact nomatch hf
    · exact hkept (.inr hreturned)
  | fails hp =>
    rcases hpast with ⟨f, hf⟩ | hreturned
    · exact nomatch hf
    · rcases List.mem_cons.mp hreturned with hthrew | hreturned
      · exact nomatch hthrew
      · exact hkept (.inr hreturned)
  | assigns hp =>
    rcases hpast with ⟨f, hf⟩ | hreturned
    · exact nomatch hf
    · exact hkept (.inr hreturned)
  | completes hp => exact Done.of_free hfree' rfl
  | uses hp => exact hkept (.inl ⟨_, hp⟩)

theorem relyGuarantee : RelyGuarantee (program (T := T) (F := F)) anyStep
    (fun g => region.Free g ∧ Published g) Assertion Rely where
  stable _ _ _ _ hr h := h.stable hr
  step s t c g' l' hS hP _ hp := by
    have hstep := step_of_program hp
    obtain ⟨hfree, hregion, hrely⟩ := hstep.move.keeps hS.1 (hP t).region
    refine ⟨⟨hfree, hstep.published hS.2 (hP t)⟩, ⟨hregion, hstep.past hfree (hP t)⟩, ?_⟩
    exact fun u hu => ⟨hrely u hu, hstep.stays (hP t)⟩

/-! ### Runs -/

section Runs

variable [DecidableEq T] {calls : T → List F} {s : Config T (Shared T F) (Thread F)}

theorem reachable_assertion (hs : Reachable program anyStep (initial calls) s) :
    (region.Free s.shared ∧ Published s.shared) ∧ ∀ t, Assertion t s.shared (s.locals t) := by
  refine hs.rely_guarantee relyGuarantee ⟨⟨fun _ => .inl rfl, ?_⟩, fun t => ⟨⟨?_, ?_⟩, ?_⟩⟩
  · exact ⟨Nat.zero_le 1, nofun, .nil, fun _ => nofun⟩
  · exact iff_of_false nofun id
  · exact fun hin => hin.elim
  · intro hpast
    rcases hpast with ⟨f, hf⟩ | hreturned
    · exact nomatch hf
    · exact nomatch hreturned

/-- All calls of all threads have ended. -/
def AllEnded (s : Config T (Shared T F) (Thread F)) : Prop :=
  ∀ t, (s.locals t).point = .idle ∧ (s.locals t).rest = []

/-- The steps of a call that are still to be taken. -/
def Point.stepsLeft : Point F → ℕ
  | .idle => 0
  | .callOnce _ => 5
  | .make _ => 4
  | .assign _ _ => 3
  | .complete _ => 2
  | .use _ => 1

/-- The steps of a thread that are still to be taken, at most. -/
def Thread.work (l : Thread F) : ℕ := l.point.stepsLeft + 6 * l.rest.length

omit [DecidableEq T] in
/-- Every step brings the end of all calls closer. -/
theorem Step.work_lt (hstep : Step t g l c g' l') : l'.work < l.work := by
  cases hstep with
  | calls hp hrest =>
    simp [Thread.work, Point.stepsLeft, hp, hrest]
    omega
  | activates hp _ | passes hp _ | makes hp | fails hp | assigns hp | completes hp | uses hp =>
    simp [Thread.work, Point.stepsLeft, Thread.goto, Thread.finish, hp]

/-- The calls of a thread that have ended, the one in progress and those to come. -/
def Thread.Accounts (fs : List F) (l : Thread F) : Prop :=
  l.outcomes.length + (if l.point.stepsLeft = 0 then 0 else 1) + l.rest.length = fs.length

omit [DecidableEq T] in
theorem Step.accounts {fs : List F} (h : l.Accounts fs) (hstep : Step t g l c g' l') :
    l'.Accounts fs := by
  unfold Thread.Accounts at h ⊢
  cases hstep with
  | calls hp hrest =>
    simp [Point.stepsLeft, hp, hrest] at h ⊢
    omega
  | activates hp _ | passes hp _ | makes hp | fails hp | assigns hp | completes hp | uses hp =>
    simp [Point.stepsLeft, Thread.goto, Thread.finish, hp] at h ⊢
    omega

theorem reachable_accounts (hs : Reachable program anyStep (initial calls) s) (t : T) :
    (s.locals t).Accounts (calls t) :=
  hs.local_invariant (P := fun t l => l.Accounts (calls t))
    (fun t => by simp [Thread.Accounts, initial, Point.stepsLeft])
    (fun _ _ _ _ _ _ h _ hp => (step_of_program hp).accounts h) t

/-- A thread without calls does nothing. -/
theorem reachable_idle (hs : Reachable program anyStep (initial calls) s) {t : T}
    (ht : calls t = []) : (s.locals t).point = .idle ∧ (s.locals t).rest = [] := by
  have h := reachable_accounts hs t
  rw [Thread.Accounts, ht, List.length_nil] at h
  refine ⟨?_, List.eq_nil_of_length_eq_zero (by omega)⟩
  cases hp : (s.locals t).point with
  | idle => rfl
  | callOnce f | make f | assign f object | complete f | use f =>
    rw [hp] at h
    simp [Point.stepsLeft] at h

omit [DecidableEq T] in
/-- A thread that is not waiting for another one can take its next step. -/
theorem enabled (hnot : ¬ (l.point = .idle ∧ l.rest = []))
    (hwait : ∀ f, l.point = .callOnce f → g.flag.enter t ≠ none) :
    ∃ g' l', program t .run g l = some (g', l') := by
  cases hp : l.point with
  | idle =>
    cases hrest : l.rest with
    | nil => exact absurd ⟨hp, hrest⟩ hnot
    | cons f fs =>
      refine ⟨g, { l with point := .callOnce f, rest := fs }, ?_⟩
      simp [program, hp, hrest]
  | callOnce f =>
    obtain ⟨flag, hflag⟩ := Option.ne_none_iff_exists'.mp (hwait f hp)
    refine ⟨{ g with flag := flag }, l.goto (if flag.isDone then .use f else .make f), ?_⟩
    simp [program, hp, hflag]
  | make f =>
    exact ⟨{ g with made := g.made + 1 }, l.goto (.assign f g.made), by simp [program, hp]⟩
  | assign f object =>
    exact ⟨{ g with object := some object }, l.goto (.complete f), by simp [program, hp]⟩
  | complete f => exact ⟨{ g with flag := .done }, l.goto (.use f), by simp [program, hp]⟩
  | use f =>
    refine ⟨{ g with used := (f, g.object) :: g.used, ended := (f, .returned) :: g.ended },
      l.finish .returned, ?_⟩
    simp [program, hp]

/-- **No deadlock.**  Who waits, waits for a thread that can go on. -/
theorem exists_step (hs : Reachable program anyStep (initial calls) s) (hnot : ¬ AllEnded s) :
    ∃ t c s', anyStep s t c ∧ s.step program t c = some s' := by
  have hstep : ∀ t, (∃ g' l', program t .run s.shared (s.locals t) = some (g', l')) →
      ∃ t c s', anyStep s t c ∧ s.step program t c = some s' := by
    intro t ht
    obtain ⟨g', l', hp⟩ := ht
    exact ⟨t, .run, _, trivial, Config.step_eq_some.mpr ⟨g', l', hp, rfl⟩⟩
  obtain ⟨t, ht⟩ := not_forall.mp hnot
  by_cases hwait : ∀ f, (s.locals t).point = .callOnce f → s.shared.flag.enter t ≠ none
  · exact hstep t (enabled ht hwait)
  · obtain ⟨f, hf⟩ := not_forall.mp hwait
    have henter : s.shared.flag.enter t = none := by
      by_contra hne
      exact hf fun _ => hne
    obtain ⟨u, hu⟩ := OnceFlag.exists_owner_of_enter henter
    have hin : (s.locals u).point.Inside := ((reachable_assertion hs).2 u).region.owns.mp hu
    refine hstep u (enabled (fun hidle => ?_) fun f' hf' => ?_)
    · rw [hidle.1] at hin
      exact hin
    · rw [hf'] at hin
      exact hin.elim

omit [DecidableEq T] in
/-- A thread that has got past `std::call_once` has done so for good. -/
theorem Step.past_of_past (hstep : Step t g l c g' l') (hpast : l.Past) : l'.Past := by
  have hne : ∀ {p : Point F}, l.point = p → (∀ f, p ≠ .use f) → .returned ∈ l.outcomes := by
    intro p hp hp'
    rcases hpast with ⟨f, hf⟩ | hreturned
    · exact absurd (hp.symm.trans hf) (hp' f)
    · exact hreturned
  cases hstep with
  | calls hp hrest => exact .inr (hne hp fun _ => nofun)
  | activates hp hflag => exact .inr (hne hp fun _ => nofun)
  | passes hp hflag => exact .inl ⟨_, rfl⟩
  | makes hp => exact .inr (hne hp fun _ => nofun)
  | fails hp => exact .inr (List.mem_cons_of_mem _ (hne hp fun _ => nofun))
  | assigns hp => exact .inr (hne hp fun _ => nofun)
  | completes hp => exact .inl ⟨_, rfl⟩
  | uses hp => exact .inr List.mem_cons_self

omit [DecidableEq T] in
/-- The thread that completes the initialization gets past it. -/
theorem Step.past_of_done (hstep : Step t g l c g' l') (hdone : g'.flag = .done) :
    g.flag = .done ∨ l'.Past := by
  cases hstep with
  | activates hp hflag => exact nomatch hdone
  | fails hp => exact nomatch hdone
  | completes hp => exact .inr (.inl ⟨_, rfl⟩)
  | calls hp hrest => exact .inl hdone
  | passes hp hflag => exact .inl hdone
  | makes hp => exact .inl hdone
  | assigns hp => exact .inl hdone
  | uses hp => exact .inl hdone

/-- When the initialization has been completed, somebody has got past it. -/
theorem exists_past (hs : Reachable program anyStep (initial calls) s) :
    s.shared.flag = .done → ∃ t, (s.locals t).Past := by
  have hstart : (initial calls : Config T (Shared T F) (Thread F)).shared.flag = .done →
      ∃ t, ((initial calls : Config T (Shared T F) (Thread F)).locals t).Past :=
    fun h => nomatch h
  apply hs.invariant (I := fun s => s.shared.flag = .done → ∃ t, (s.locals t).Past) hstart
  intro s t c g l _ hI _ hp hdone
  have hstep := step_of_program hp
  have hself : l.Past → ∃ u, (Function.update s.locals t l u).Past := by
    intro hl
    refine ⟨t, ?_⟩
    rw [Function.update_self]
    exact hl
  rcases hstep.past_of_done hdone with hbefore | hpast
  · obtain ⟨u, hu⟩ := hI hbefore
    by_cases hut : u = t
    · subst hut
      exact hself (hstep.past_of_past hu)
    · refine ⟨u, ?_⟩
      show (Function.update s.locals t l u).Past
      rw [Function.update_of_ne hut]
      exact hu
  · exact hself hpast

/-- **Every call ends.**  For finitely many calls of finitely many threads, from any reachable
state: no run goes on for ever, and none stops before all calls have ended, whatever throws.  Then
every thread has made all its calls, and some call has returned exactly if the initialization has
been completed. -/
theorem call_once_completes {S : Finset T} (hcalls : ∀ t, t ∉ S → calls t = [])
    (hs : Reachable program anyStep (initial calls) s) :
    Config.Completes program anyStep AllEnded s ∧
    (AllEnded s → (∀ t, (s.locals t).outcomes.length = (calls t).length) ∧
      ((∃ t, .returned ∈ (s.locals t).outcomes) ↔ s.shared.flag = .done)) := by
  constructor
  · refine Config.completes_of_work (I := Reachable program anyStep (initial calls)) Thread.work S
      (fun s t c s' hs hok hst => ?_) (fun s hs hnot => exists_step hs hnot) hs
    obtain ⟨l, hp, hself, -⟩ := Config.step_focus t hst
    have hlt := (step_of_program hp).work_lt
    refine ⟨hs.step hok hst, ?_, ?_⟩
    · by_contra ht
      obtain ⟨hidle, hrest⟩ := reachable_idle hs (hcalls t ht)
      rw [Thread.work, Thread.work, hidle, hrest] at hlt
      exact absurd hlt (Nat.not_lt_zero _)
    · rw [hself rfl]
      exact hlt
  · intro hended
    refine ⟨fun t => ?_, ⟨fun hreturned => ?_, fun hdone => ?_⟩⟩
    · obtain ⟨hidle, hrest⟩ := hended t
      have h := reachable_accounts hs t
      rw [Thread.Accounts, hidle, hrest] at h
      exact h
    · obtain ⟨t, ht⟩ := hreturned
      exact (((reachable_assertion hs).2 t).past (.inr ht)).flag
    · obtain ⟨t, ⟨f, hf⟩ | hreturned⟩ := exists_past hs hdone
      · exact nomatch (hended t).1.symm.trans hf
      · exact ⟨t, hreturned⟩

end Runs

/-- Two threads: the first one fails to open the connection, and the second one, which waits for it,
opens it. -/
def failThenOpenRun : List (Bool × Choice) :=
  [(false, .run), (true, .run), (false, .run), (false, .throws), (true, .run), (true, .run),
    (true, .run), (true, .run), (true, .run)]

def failThenOpenCalls (t : Bool) : List XMember := if t then [.receiveData] else [.sendData]

theorem call_once_completes_failThenOpen :
    Config.Completes X.program anyStep AllEnded (initial failThenOpenCalls) ∧
      ∃ s, (initial failThenOpenCalls).run X.program failThenOpenRun = some s ∧ AllEnded s ∧
        (∀ t, (s.locals t).outcomes.length = (failThenOpenCalls t).length) ∧
        (s.locals false).outcomes = [.threw] ∧ s.shared.flag = .done ∧
        ∃ t, .returned ∈ (s.locals t).outcomes := by
  have hcalls : ∀ t, t ∉ ({false, true} : Finset Bool) → failThenOpenCalls t = [] :=
    fun t ht => absurd (by cases t <;> decide) ht
  have hrun : ((initial failThenOpenCalls).run X.program failThenOpenRun).isSome := by decide
  have hended :
      AllEnded (((initial failThenOpenCalls).run X.program failThenOpenRun).get hrun) := by
    intro t
    cases t with
    | false => exact ⟨rfl, rfl⟩
    | true => exact ⟨rfl, rfl⟩
  obtain ⟨houtcomes, hreturned⟩ :=
    (call_once_completes hcalls (.of_run_any failThenOpenRun (Option.some_get hrun).symm)).2 hended
  exact ⟨(call_once_completes hcalls .init).1, _, (Option.some_get hrun).symm, hended, houtcomes,
    rfl, rfl, hreturned.mpr rfl⟩

end ConcurrencyInAction.CallOnce
