import ConcurrencyInAction.ComparisonOperator.Model
import ConcurrencyInAction.Lib.UpdateLog
import ConcurrencyInAction.Lib.Completion

/-!
# What a comparison says

* `Point.held`: a thread holds one mutex at most, and none while it waits for one;
* `Point.Known`: the values a thread has copied, each with a moment at which it was the detail;
* `two_moments`: **a comparison compares the details of two moments**.  It says "different" only if
  they were different at some moment, and is right about one moment if nobody modifies one of the
  objects meanwhile;
* `equal_without_a_moment_iff`: it says "equal" of objects that are different at every moment as
  soon as there are three values;
* `comparisons_complete`: comparisons return, whatever the order of their steps.
-/

namespace ConcurrencyInAction.ComparisonOperator

open Interleaving ExclusiveLock UpdateLog

variable {T Y V : Type*}

/-- The object whose mutex the thread holds. -/
def Point.held : Point Y V → Option Y
  | .copy call | .unlockA call _ => some call.object
  | _ => none

theorem Call.held_returned {call : Call Y V} {v : V} : (call.returned v).held = none := by
  cases call <;> rfl

/-- At most one modification later. -/
def Later (g g' : Shared T Y V) : Prop :=
  g'.modifications = g.modifications ∨ ∃ e, g'.modifications = g.modifications ++ [e]

theorem Later.length_le {g g' : Shared T Y V} (h : Later g g') :
    g.modifications.length ≤ g'.modifications.length := by
  rcases h with he | ⟨e, he⟩
  · rw [he]
  · rw [he, List.length_append]
    exact Nat.le_add_right _ _

section Assertions

variable [DecidableEq Y]

/-- The value was the detail of `y` after `n` modifications, when or after the comparison began. -/
structure Moment (details : Y → V) (g : Shared T Y V) (began : ℕ) (y : Y) (v : V) (n : ℕ) :
    Prop where
  began_le : began ≤ n
  le_now : n ≤ g.modifications.length
  value : v = valuesAt details g.modifications n y

/-- What a thread knows of the values it has copied. -/
def Point.Known (details : Y → V) (g : Shared T Y V) (began : ℕ) : Point Y V → Prop
  | .idle | .addresses _ _ => True
  | .lockA (.ofLhs lhs rhs) | .copy (.ofLhs lhs rhs) => lhs ≠ rhs
  | .unlockA (.ofLhs lhs rhs) v | .lockA (.ofRhs lhs rhs v) | .copy (.ofRhs lhs rhs v) =>
      lhs ≠ rhs ∧ ∃ n, Moment details g began lhs v n
  | .unlockA (.ofRhs lhs rhs v) w | .values lhs rhs v w =>
      lhs ≠ rhs ∧ ∃ n₁ n₂, n₁ ≤ n₂ ∧ Moment details g began lhs v n₁ ∧
        Moment details g began rhs w n₂

/-- The comparison is of the values at two moments between its beginning and its end. -/
structure Comparison.Explained (details : Y → V) (ms : List (Y × V)) (c : Comparison Y) :
    Prop where
  began_le : c.began ≤ c.ended
  ended_le : c.ended ≤ ms.length
  identical : c.lhs = c.rhs → c.result = true
  distinct : c.lhs ≠ c.rhs → ∃ n₁ n₂, c.began ≤ n₁ ∧ n₁ ≤ n₂ ∧ n₂ ≤ c.ended ∧
    (c.result = true ↔ valuesAt details ms n₁ c.lhs = valuesAt details ms n₂ c.rhs)

/-- The history is that of the present details, and accounts for the comparisons. -/
structure Recorded (details : Y → V) (g : Shared T Y V) : Prop where
  someDetail : g.someDetail = valuesAt details g.modifications g.modifications.length
  comparisons : ∀ c ∈ g.comparisons, c.Explained details g.modifications

/-- A thread holds the mutex that it should hold where it is, and knows what it has copied. -/
structure Assertion (details : Y → V) (t : T) (g : Shared T Y V) (l : Thread Y V) : Prop where
  owns : ∀ y, g.m y = some t ↔ l.point.held = some y
  began_le : l.began ≤ g.modifications.length
  known : l.point.Known details g l.began

/-- Other threads neither take nor release the mutexes of `u`, and only add to the history. -/
structure Rely (u : T) (g g' : Shared T Y V) : Prop where
  sameHolder : SameHolder u g.m g'.m
  later : Later g g'

variable {details : Y → V} {t u : T} {g g' : Shared T Y V} {l l' : Thread Y V} {y : Y} {v w : V}
  {n began : ℕ} {p : Point Y V} {call : Call Y V}

theorem valuesAt_later (hr : Later g g') (hn : n ≤ g.modifications.length) :
    valuesAt details g'.modifications n = valuesAt details g.modifications n := by
  rcases hr with he | ⟨e, he⟩
  · rw [he]
  · rw [he, valuesAt_snoc e hn]

theorem Moment.later (h : Moment details g began y v n) (hr : Later g g') :
    Moment details g' began y v n where
  began_le := h.began_le
  le_now := Nat.le_trans h.le_now hr.length_le
  value := by
    rw [valuesAt_later hr h.le_now]
    exact h.value

theorem Point.Known.later (h : p.Known details g began) (hr : Later g g') :
    p.Known details g' began := by
  have hone : ∀ {lhs rhs : Y} {v : V}, (lhs ≠ rhs ∧ ∃ n, Moment details g began lhs v n) →
      lhs ≠ rhs ∧ ∃ n, Moment details g' began lhs v n := by
    intro lhs rhs v h
    obtain ⟨hne, n, hn⟩ := h
    exact ⟨hne, n, hn.later hr⟩
  have htwo : ∀ {lhs rhs : Y} {v w : V}, (lhs ≠ rhs ∧ ∃ n₁ n₂, n₁ ≤ n₂ ∧
      Moment details g began lhs v n₁ ∧ Moment details g began rhs w n₂) →
      lhs ≠ rhs ∧ ∃ n₁ n₂, n₁ ≤ n₂ ∧
        Moment details g' began lhs v n₁ ∧ Moment details g' began rhs w n₂ := by
    intro lhs rhs v w h
    obtain ⟨hne, n₁, n₂, hle, h₁, h₂⟩ := h
    exact ⟨hne, n₁, n₂, hle, h₁.later hr, h₂.later hr⟩
  cases p with
  | idle | addresses lhs rhs => exact trivial
  | lockA call | copy call =>
    cases call with
    | ofLhs lhs rhs => exact h
    | ofRhs lhs rhs v => exact hone h
  | unlockA call v =>
    cases call with
    | ofLhs lhs rhs => exact hone h
    | ofRhs lhs rhs w => exact htwo h
  | values lhs rhs v w => exact htwo h

theorem Assertion.stable (h : Assertion details u g l) (hr : Rely u g g') :
    Assertion details u g' l where
  owns y := (hr.sameHolder y).trans (h.owns y)
  began_le := Nat.le_trans h.began_le hr.later.length_le
  known := h.known.later hr.later

theorem Comparison.Explained.later {c : Comparison Y} (h : c.Explained details g.modifications)
    (hr : Later g g') : c.Explained details g'.modifications where
  began_le := h.began_le
  ended_le := Nat.le_trans h.ended_le hr.length_le
  identical := h.identical
  distinct hne := by
    obtain ⟨n₁, n₂, hn₁, hle, hn₂, hresult⟩ := h.distinct hne
    have hnow := Nat.le_trans hn₂ h.ended_le
    refine ⟨n₁, n₂, hn₁, hle, hn₂, ?_⟩
    rw [valuesAt_later hr (Nat.le_trans hle hnow), valuesAt_later hr hnow]
    exact hresult

/-! ### What the steps keep -/

/-- What a thread copies is the detail of this moment. -/
theorem Moment.now (h : Recorded details g) (hbegan : began ≤ g.modifications.length) (y : Y) :
    Moment details g began y (g.someDetail y) g.modifications.length where
  began_le := hbegan
  le_now := Nat.le_refl _
  value := by
    rw [h.someDetail]

theorem Point.Known.copied (h : Recorded details g) (hbegan : began ≤ g.modifications.length)
    (hknown : (Point.copy call).Known details g began) :
    (Point.unlockA call (g.someDetail call.object)).Known details g began := by
  have hnow := Moment.now h hbegan call.object
  cases call with
  | ofLhs lhs rhs => exact ⟨hknown, _, hnow⟩
  | ofRhs lhs rhs v =>
    obtain ⟨hne, n, hn⟩ := hknown
    exact ⟨hne, n, _, hn.le_now, hn, hnow⟩

theorem Point.Known.locked (h : (Point.lockA call).Known details g began) :
    (Point.copy call).Known details g began := by
  cases call <;> exact h

theorem Point.Known.returned (h : (Point.unlockA call v).Known details g began) :
    (call.returned v).Known details g began := by
  cases call <;> exact h

theorem Recorded.of_history (h : Recorded details g) (hd : g'.someDetail = g.someDetail)
    (hm : g'.modifications = g.modifications) (hc : g'.comparisons = g.comparisons) :
    Recorded details g' where
  someDetail := by
    rw [hd, hm]
    exact h.someDetail
  comparisons := by
    rw [hc, hm]
    exact h.comparisons

theorem Recorded.returns (h : Recorded details g) {lhs rhs : Y} {result : Bool}
    (hnew : Comparison.Explained details g.modifications
      ⟨lhs, rhs, l.began, g.modifications.length, result⟩) :
    Recorded details (g.returns l lhs rhs result) where
  someDetail := h.someDetail
  comparisons c hc := by
    rcases List.mem_append.mp hc with hc | hc
    · exact h.comparisons c hc
    · rw [List.mem_singleton.mp hc]
      exact hnew

theorem Recorded.modify (h : Recorded details g) (y : Y) (v : V) :
    Recorded details (g.modify y v) where
  someDetail := by
    show Function.update g.someDetail y v = valuesAt details (g.modifications ++ [(y, v)]) _
    rw [h.someDetail]
    exact (valuesAt_length_snoc (y, v)).symm
  comparisons c hc := by
    exact (h.comparisons c hc).later (.inr ⟨_, rfl⟩)

omit [DecidableEq Y] in
theorem Rely.of_eq (hm : g'.m = g.m) (hmods : g'.modifications = g.modifications) :
    Rely u g g' where
  sameHolder := by
    rw [hm]
    exact .refl _ _
  later := .inl hmods

/-- A step that leaves the mutexes and the history of the details alone. -/
theorem Assertion.moves {q : Point Y V} (h : Assertion details t g l) (hp : l.point = q)
    (hm : g'.m = g.m) (hmods : g'.modifications = g.modifications) (hheld : q.held = p.held)
    (hknown : p.Known details g l.began) : Assertion details t g' (l.goto p) where
  owns y := by
    show g'.m y = some t ↔ p.held = some y
    rw [hm, ← hheld, ← hp]
    exact h.owns y
  began_le := by
    rw [hmods]
    exact h.began_le
  known := hknown.later (.inl hmods)

theorem Assertion.locks (h : Assertion details t g l) (hp : l.point = .lockA call) :
    Assertion details t (g.setOwner call.object (some t)) (l.goto (.copy call)) where
  owns y := by
    show Function.update g.m call.object (some t) y = some t ↔ some call.object = some y
    by_cases hy : y = call.object
    · subst hy
      rw [Function.update_self]
      exact iff_of_true rfl rfl
    · rw [Function.update_of_ne hy, h.owns y, hp]
      exact iff_of_false nofun fun he => hy (Option.some.inj he).symm
  began_le := h.began_le
  known := by
    have hknown := h.known
    rw [hp] at hknown
    exact hknown.locked.later (.inl rfl)

theorem Assertion.unlocks (h : Assertion details t g l) (hp : l.point = .unlockA call v) :
    Assertion details t (g.setOwner call.object none) (l.goto (call.returned v)) where
  owns y := by
    show Function.update g.m call.object none y = some t ↔ (call.returned v).held = some y
    rw [Call.held_returned]
    by_cases hy : y = call.object
    · subst hy
      rw [Function.update_self]
      exact iff_of_false nofun nofun
    · rw [Function.update_of_ne hy, h.owns y, hp]
      exact iff_of_false (fun he => hy (Option.some.inj he).symm) nofun
  began_le := h.began_le
  known := by
    have hknown := h.known
    rw [hp] at hknown
    exact hknown.returned.later (.inl rfl)

/-- **Every step keeps the assertions.** -/
theorem Assertion.step [DecidableEq V] {c : Choice Y V} (hrec : Recorded details g)
    (h : Assertion details t g l) (hstep : Step t g l c g' l') :
    Recorded details g' ∧ Assertion details t g' l' ∧ ∀ u, u ≠ t → Rely u g g' := by
  have hknown := h.known
  cases hstep with
  | begins lhs rhs hp =>
    refine ⟨hrec, ⟨fun y => ?_, Nat.le_refl _, trivial⟩, fun u _ => .of_eq rfl rfl⟩
    rw [h.owns y, hp]
    rfl
  | @modifies y v hp hfree =>
    have hr : ∀ u, Rely u g (g.modify y v) := fun u => ⟨.refl _ _, .inr ⟨_, rfl⟩⟩
    exact ⟨hrec.modify y v, h.stable (hr t), fun u _ => hr u⟩
  | identical hp =>
    exact ⟨hrec.returns ⟨h.began_le, Nat.le_refl _, fun _ => rfl, fun hne => absurd rfl hne⟩,
      h.moves hp rfl rfl rfl trivial, fun u _ => .of_eq rfl rfl⟩
  | distinct hp hne =>
    exact ⟨hrec, h.moves hp rfl rfl rfl hne, fun u _ => .of_eq rfl rfl⟩
  | locks hp hfree =>
    exact ⟨hrec.of_history rfl rfl rfl, h.locks hp, fun u hu => ⟨.lock hfree hu, .inl rfl⟩⟩
  | copies hp =>
    rw [hp] at hknown
    exact ⟨hrec, h.moves hp rfl rfl rfl (hknown.copied hrec h.began_le),
      fun u _ => .of_eq rfl rfl⟩
  | unlocks hp =>
    have hown := (h.owns _).mpr (congrArg Point.held hp)
    exact ⟨hrec.of_history rfl rfl rfl, h.unlocks hp, fun u hu => ⟨.unlock hown hu, .inl rfl⟩⟩
  | compares hp =>
    rw [hp] at hknown
    obtain ⟨hne, n₁, n₂, hle, h₁, h₂⟩ := hknown
    refine ⟨hrec.returns ⟨h.began_le, Nat.le_refl _, fun he => absurd he hne, fun _ => ?_⟩,
      h.moves hp rfl rfl rfl trivial, fun u _ => .of_eq rfl rfl⟩
    refine ⟨n₁, n₂, h₁.began_le, hle, h₂.le_now, ?_⟩
    rw [decide_eq_true_iff, h₁.value, h₂.value]

theorem Step.modify_free [DecidableEq V] (hstep : Step t g l (.modify y v) g' l') :
    g.m y = none := by
  cases hstep with
  | modifies _ hfree => exact hfree

/-! ### What can be said of one moment -/

section Explained

variable {ms : List (Y × V)} {c : Comparison Y}

/-- Objects that are the same all the time are not found different. -/
theorem Comparison.Explained.exists_ne (h : c.Explained details ms) (hc : c.result = false) :
    ∃ n, c.began ≤ n ∧ n ≤ c.ended ∧ valuesAt details ms n c.lhs ≠ valuesAt details ms n c.rhs := by
  have hne : c.lhs ≠ c.rhs := by
    intro he
    rw [h.identical he] at hc
    exact Bool.noConfusion hc
  obtain ⟨n₁, n₂, hn₁, hle, hn₂, hresult⟩ := h.distinct hne
  by_contra hnone
  have hagree : ∀ n, c.began ≤ n → n ≤ c.ended →
      valuesAt details ms n c.lhs = valuesAt details ms n c.rhs := by
    intro n hn hn'
    by_contra hdiff
    exact hnone ⟨n, hn, hn', hdiff⟩
  have hsame : valuesAt details ms n₂ c.lhs = valuesAt details ms n₁ c.lhs :=
    valuesAt_eq_of_agree hne hle fun n hn hn' =>
      hagree n (Nat.le_trans hn₁ hn) (Nat.le_trans hn' hn₂)
  have htrue : c.result = true := by
    rw [hresult, ← hsame]
    exact hagree n₂ (Nat.le_trans hn₁ hle) hn₂
  rw [htrue] at hc
  exact Bool.noConfusion hc

/-- If one of the objects is not modified meanwhile, the comparison is of one moment. -/
theorem Comparison.Explained.of_untouched (h : c.Explained details ms)
    (hquiet : Untouched ms c.lhs c.began c.ended ∨ Untouched ms c.rhs c.began c.ended) :
    ∃ n, c.began ≤ n ∧ n ≤ c.ended ∧
      (c.result = true ↔ valuesAt details ms n c.lhs = valuesAt details ms n c.rhs) := by
  by_cases hne : c.lhs = c.rhs
  · refine ⟨c.began, Nat.le_refl _, h.began_le, ?_⟩
    rw [hne]
    exact iff_of_true (h.identical hne) rfl
  · obtain ⟨n₁, n₂, hn₁, hle, hn₂, hresult⟩ := h.distinct hne
    have hbetween : ∀ {y : Y}, Untouched ms y c.began c.ended →
        valuesAt details ms n₂ y = valuesAt details ms n₁ y := by
      intro y hy
      exact valuesAt_eq_of_untouched hle fun k v hk hk' =>
        hy k v (Nat.le_trans hn₁ hk) (Nat.lt_of_lt_of_le hk' hn₂)
    rcases hquiet with hlhs | hrhs
    · refine ⟨n₂, Nat.le_trans hn₁ hle, hn₂, ?_⟩
      rw [hbetween hlhs]
      exact hresult
    · refine ⟨n₁, hn₁, Nat.le_trans hle hn₂, ?_⟩
      rw [← hbetween hrhs]
      exact hresult

/-- Two values are too few to be found equal without a moment. -/
theorem Comparison.Explained.exists_eq (h : c.Explained details ms) (hc : c.result = true)
    (htwo : ∀ u v w : V, u = v ∨ v = w ∨ u = w) :
    ∃ n, c.began ≤ n ∧ n ≤ c.ended ∧ valuesAt details ms n c.lhs = valuesAt details ms n c.rhs := by
  by_cases hne : c.lhs = c.rhs
  · exact ⟨c.began, Nat.le_refl _, h.began_le, by rw [hne]⟩
  · obtain ⟨n₁, n₂, hn₁, hle, hn₂, hresult⟩ := h.distinct hne
    by_contra hnone
    have hdiffer : ∀ n, c.began ≤ n → n ≤ c.ended →
        valuesAt details ms n c.lhs ≠ valuesAt details ms n c.rhs :=
      fun n hn hn' he => hnone ⟨n, hn, hn', he⟩
    have hsame : valuesAt details ms n₂ c.rhs = valuesAt details ms n₁ c.rhs :=
      valuesAt_eq_of_differ hne hle htwo fun n hn hn' =>
        hdiffer n (Nat.le_trans hn₁ hn) (Nat.le_trans hn' hn₂)
    refine hdiffer n₁ hn₁ (Nat.le_trans hle hn₂) ?_
    rw [← hsame]
    exact hresult.mp hc

end Explained

end Assertions

/-! ### Whole runs -/

section Run

variable [DecidableEq T] [DecidableEq Y] [DecidableEq V] {details : Y → V}
  {s s' : Config T (Shared T Y V) (Thread Y V)} {t u : T} {y : Y} {v : V}

omit [DecidableEq T] in
theorem relyGuarantee (details : Y → V) : RelyGuarantee (T := T) (program (T := T)) anyStep
    (Recorded details) (Assertion details) Rely where
  stable _ _ _ _ hr h := h.stable hr
  step _ t _ _ _ hrec hP _ hp := (hP t).step hrec (step_of_program hp)

theorem reachable_assertion (hs : Reachable program anyStep (initial details) s) :
    Recorded details s.shared ∧ ∀ t, Assertion details t s.shared (s.locals t) := by
  refine hs.rely_guarantee (relyGuarantee details)
    ⟨⟨rfl, fun c hc => ?_⟩, fun t => ⟨fun y => ?_, ?_, ?_⟩⟩
  · exact absurd hc List.not_mem_nil
  · exact iff_of_false nofun nofun
  · exact Nat.le_refl _
  · exact trivial

/-- **A comparison compares the details of two moments**: of the first argument, and of the second
one not before.  If it says that the objects are different, they were different at some moment of
it; and if nobody modifies the one or nobody the other object meanwhile, what it says is true of
some moment of it.  No thread ever holds two mutexes, and nobody modifies what is being copied. -/
theorem two_moments (hs : Reachable program anyStep (initial details) s) :
    (∀ c ∈ s.shared.comparisons,
      c.began ≤ c.ended ∧ c.ended ≤ s.shared.modifications.length ∧
      (c.lhs = c.rhs → c.result = true) ∧
      (c.lhs ≠ c.rhs → ∃ n₁ n₂, c.began ≤ n₁ ∧ n₁ ≤ n₂ ∧ n₂ ≤ c.ended ∧
        (c.result = true ↔ valuesAt details s.shared.modifications n₁ c.lhs =
          valuesAt details s.shared.modifications n₂ c.rhs)) ∧
      (c.result = false → ∃ n, c.began ≤ n ∧ n ≤ c.ended ∧
        valuesAt details s.shared.modifications n c.lhs ≠
          valuesAt details s.shared.modifications n c.rhs) ∧
      (Untouched s.shared.modifications c.lhs c.began c.ended ∨
        Untouched s.shared.modifications c.rhs c.began c.ended →
        ∃ n, c.began ≤ n ∧ n ≤ c.ended ∧
          (c.result = true ↔ valuesAt details s.shared.modifications n c.lhs =
            valuesAt details s.shared.modifications n c.rhs))) ∧
    (∀ t x y, s.shared.m x = some t → s.shared.m y = some t → x = y) ∧
    ∀ t call u v, (s.locals t).point = .copy call →
      s.step program u (.modify call.object v) = none := by
  obtain ⟨hrec, hP⟩ := reachable_assertion hs
  refine ⟨fun c hc => ?_, fun t x y hx hy => ?_, fun t call u v hp => ?_⟩
  · have hexplained := hrec.comparisons c hc
    exact ⟨hexplained.began_le, hexplained.ended_le, hexplained.identical, hexplained.distinct,
      hexplained.exists_ne, hexplained.of_untouched⟩
  · have hx' := ((hP t).owns x).mp hx
    have hy' := ((hP t).owns y).mp hy
    exact Option.some.inj (hx'.symm.trans hy')
  · have hown : s.shared.m call.object = some t := ((hP t).owns _).mpr (congrArg Point.held hp)
    by_contra hstep
    obtain ⟨s', hs'⟩ := Option.ne_none_iff_exists'.mp hstep
    obtain ⟨l, hu, -⟩ := Config.step_focus u hs'
    exact nomatch hown.symm.trans (step_of_program hu).modify_free

/-- Thread `false` compares the objects, of which `true` modifies both before the second copy. -/
def overtakenRun : List (Bool × Choice Bool ℕ) :=
  (false, .compare false true) :: List.replicate 4 (false, .run) ++
    [(true, .modify false 7), (true, .modify true 3)] ++ List.replicate 4 (false, .run)

theorem two_moments_overtakenRun : ∃ s : Config Bool (Shared Bool Bool ℕ) (Thread Bool ℕ),
    (initial fun y => bif y then 5 else 3).run program overtakenRun = some s ∧
    s.shared.comparisons = [⟨false, true, 0, 2, true⟩] ∧
    ∃ n₁ n₂, n₁ ≤ n₂ ∧ n₂ ≤ 2 ∧
      valuesAt (fun y => bif y then 5 else 3) s.shared.modifications n₁ false =
        valuesAt (fun y => bif y then 5 else 3) s.shared.modifications n₂ true := by
  have hrun : ((initial (T := Bool) fun y => bif y then 5 else 3).run program
      overtakenRun).isSome := by decide
  have hc : ((((initial (T := Bool) fun y => bif y then 5 else 3).run program overtakenRun).get
      hrun).shared.comparisons) = [⟨false, true, 0, 2, true⟩] := rfl
  obtain ⟨-, -, -, hmoments, -, -⟩ := (two_moments (.of_run_any overtakenRun
    (Option.some_get hrun).symm)).1 ⟨false, true, 0, 2, true⟩ (hc ▸ List.mem_singleton_self _)
  obtain ⟨n₁, n₂, -, hle, hn₂, hresult⟩ := hmoments Bool.false_ne_true
  exact ⟨_, (Option.some_get hrun).symm, hc, n₁, n₂, hle, hn₂, hresult.mp rfl⟩

/-! ### Equal without a moment -/

omit [DecidableEq T] in
/-- `get_detail`, with nobody in between. -/
theorem solo_getDetail {g : Shared T Y V} {t : T} {call : Call Y V} {n : ℕ}
    (hfree : g.m call.object = none) :
    Config.solo program t (g, ⟨.lockA call, n⟩) [.run, .run, .run] =
      some (g, ⟨call.returned (g.someDetail call.object), n⟩) := by
  have hback : (g.setOwner call.object (some t)).setOwner call.object none = g := by
    rw [Shared.setOwner, Shared.setOwner, Function.update_idem, ← hfree, Function.update_eq_self]
  simp only [Config.solo, program, hfree, Option.isNone_none, if_true, Option.bind_some,
    Thread.goto, hback]
  rfl

omit [DecidableEq V] in
/-- The first object takes a third value before the second one takes the value it had. -/
theorem valuesAt_ne {details : Y → V} {lhs rhs : Y} (hne : lhs ≠ rhs) {a b v : V}
    (hlhs : details lhs = a) (hrhs : details rhs = b) (hab : a ≠ b) (hbv : b ≠ v) (hav : a ≠ v)
    {n : ℕ} (hn : n ≤ 2) : valuesAt details [(lhs, v), (rhs, a)] n lhs ≠
      valuesAt details [(lhs, v), (rhs, a)] n rhs := by
  rcases (by omega : n = 0 ∨ n = 1 ∨ n = 2) with h | h | h
  · subst h
    show details lhs ≠ details rhs
    rw [hlhs, hrhs]
    exact hab
  · subst h
    show Function.update details lhs v lhs ≠ Function.update details lhs v rhs
    rw [Function.update_self, Function.update_of_ne (Ne.symm hne), hrhs]
    exact Ne.symm hbv
  · subst h
    show Function.update (Function.update details lhs v) rhs a lhs ≠
      Function.update (Function.update details lhs v) rhs a rhs
    rw [Function.update_of_ne hne, Function.update_self, Function.update_self]
    exact Ne.symm hav

/-- A comparison, between whose two halves another thread modifies both objects. -/
theorem exists_equal_without_a_moment {lhs rhs : Y} (htu : t ≠ u) (hne : lhs ≠ rhs) {a b v : V}
    (hab : a ≠ b) (hbv : b ≠ v) (hav : a ≠ v) :
    ∃ (details : Y → V) (s : Config T (Shared T Y V) (Thread Y V)),
      Reachable program anyStep (initial details) s ∧
      s.shared.modifications = [(lhs, v), (rhs, a)] ∧
      ⟨lhs, rhs, 0, 2, true⟩ ∈ s.shared.comparisons ∧
      ∀ n, n ≤ 2 → valuesAt details [(lhs, v), (rhs, a)] n lhs ≠
        valuesAt details [(lhs, v), (rhs, a)] n rhs := by
  let details : Y → V := Function.update (fun _ => b) lhs a
  let g₀ : Shared T Y V := (initial details).shared
  let g₂ : Shared T Y V := (g₀.modify lhs v).modify rhs a
  let l₁ : Thread Y V := ⟨.lockA (.ofRhs lhs rhs a), 0⟩
  let s₁ : Config T (Shared T Y V) (Thread Y V) :=
    ⟨g₀, Function.update (initial (T := T) details).locals t l₁⟩
  let s₂ : Config T (Shared T Y V) (Thread Y V) :=
    ⟨g₂, Function.update s₁.locals u ⟨.idle, 0⟩⟩
  have hlhs : details lhs = a := Function.update_self _ _ _
  have hfirst : Config.solo program t ((initial details).shared, (initial details).locals t)
      ([.compare lhs rhs, .run] ++ [.run, .run, .run]) = some (g₀, l₁) := by
    have hcall : Config.solo program t ((initial details).shared, (initial details).locals t)
        [.compare lhs rhs, .run] = some (g₀, ⟨.lockA (.ofLhs lhs rhs), 0⟩) := by
      simp only [Config.solo, program, initial, hne, if_false, Option.bind_some]
      rfl
    rw [Config.solo_append _ _ _ _ hcall, solo_getDetail rfl]
    show some (g₀, (⟨.lockA (.ofRhs lhs rhs (details lhs)), 0⟩ : Thread Y V)) = _
    rw [hlhs]
  have hmodify : Config.solo program u (s₁.shared, s₁.locals u) [.modify lhs v, .modify rhs a] =
      some (g₂, ⟨.idle, 0⟩) := by
    have hu : s₁.locals u = ⟨.idle, 0⟩ := Function.update_of_ne (Ne.symm htu) _ _
    rw [hu]
    rfl
  have hsecond : Config.solo program t (s₂.shared, s₂.locals t) ([.run, .run, .run] ++ [.run]) =
      some (g₂.returns ⟨.idle, 0⟩ lhs rhs true, ⟨.idle, 0⟩) := by
    have ht : s₂.locals t = l₁ := (Function.update_of_ne htu _ _).trans (Function.update_self _ _ _)
    have hrhs : g₂.someDetail rhs = a := Function.update_self _ _ _
    rw [ht, Config.solo_append _ _ _ _ (solo_getDetail rfl)]
    show some (g₂.returns _ lhs rhs (decide (a = g₂.someDetail rhs)), _) = _
    rw [hrhs, decide_eq_true rfl]
    rfl
  have hs₁ : Reachable program anyStep (initial details) s₁ :=
    .of_run_any _ (Config.run_of_solo _ _ hfirst)
  have hs₂ : Reachable program anyStep s₁ s₂ := .of_run_any _ (Config.run_of_solo _ s₁ hmodify)
  have hs₃ : Reachable program anyStep s₂
      ⟨g₂.returns ⟨.idle, 0⟩ lhs rhs true, Function.update s₂.locals t ⟨.idle, 0⟩⟩ :=
    .of_run_any _ (Config.run_of_solo _ s₂ hsecond)
  have hrhs : details rhs = b := Function.update_of_ne (Ne.symm hne) _ _
  exact ⟨details, _, (hs₁.trans hs₂).trans hs₃, rfl, List.mem_singleton_self _,
    fun n hn => valuesAt_ne hne hlhs hrhs hab hbv hav hn⟩

/-- **Equal without a moment.**  A comparison can say that two objects are equal that are different
at every moment of it exactly if their details can have three values. -/
theorem equal_without_a_moment_iff {lhs rhs : Y} (htu : t ≠ u) (hne : lhs ≠ rhs) :
    (∃ (details : Y → V) (s : Config T (Shared T Y V) (Thread Y V)),
      Reachable program anyStep (initial details) s ∧
      ∃ c ∈ s.shared.comparisons, c.lhs = lhs ∧ c.rhs = rhs ∧ c.result = true ∧
        ∀ n, c.began ≤ n → n ≤ c.ended →
          valuesAt details s.shared.modifications n lhs ≠
            valuesAt details s.shared.modifications n rhs) ↔
      ∃ a b v : V, a ≠ b ∧ b ≠ v ∧ a ≠ v := by
  constructor
  · intro h
    obtain ⟨details, s, hs, c, hc, hlhs, hrhs, hresult, hnever⟩ := h
    subst hlhs
    subst hrhs
    by_contra hfew
    have htwo : ∀ a b v : V, a = b ∨ b = v ∨ a = v := by
      intro a b v
      by_contra hthree
      rw [not_or, not_or] at hthree
      exact hfew ⟨a, b, v, hthree⟩
    have hexplained := (reachable_assertion hs).1.comparisons c hc
    obtain ⟨n, hn, hn', heq⟩ := hexplained.exists_eq hresult htwo
    exact hnever n hn hn' heq
  · intro h
    obtain ⟨a, b, v, hab, hbv, hav⟩ := h
    obtain ⟨details, s, hs, hms, hc, hnever⟩ :=
      exists_equal_without_a_moment htu hne hab hbv hav
    refine ⟨details, s, hs, _, hc, rfl, rfl, rfl, fun n _ hn => ?_⟩
    rw [hms]
    exact hnever n hn

theorem equal_without_a_moment_iff_int :
    ∃ (details : Bool → ℤ) (s : Config Bool (Shared Bool Bool ℤ) (Thread Bool ℤ)),
      Reachable program anyStep (initial details) s ∧
      ∃ c ∈ s.shared.comparisons, c.lhs = false ∧ c.rhs = true ∧ c.result = true ∧
        ∀ n, c.began ≤ n → n ≤ c.ended →
          valuesAt details s.shared.modifications n false ≠
            valuesAt details s.shared.modifications n true :=
  (equal_without_a_moment_iff (t := false) (u := true) Bool.false_ne_true Bool.false_ne_true).mpr
    ⟨0, 1, 2, by decide, by decide, by decide⟩

/-! ### Comparisons end -/

/-- The steps that a thread has still to take. -/
def Point.work : Point Y V → ℕ
  | .idle => 0
  | .addresses _ _ => 8
  | .lockA (.ofLhs _ _) => 7
  | .copy (.ofLhs _ _) => 6
  | .unlockA (.ofLhs _ _) _ => 5
  | .lockA (.ofRhs _ _ _) => 4
  | .copy (.ofRhs _ _ _) => 3
  | .unlockA (.ofRhs _ _ _) _ => 2
  | .values _ _ _ _ => 1

/-- No new call and no modification. -/
def inProgress (_ : Config T (Shared T Y V) (Thread Y V)) (_ : T) (c : Choice Y V) : Prop :=
  c = .run

/-- No comparison is in progress. -/
def AllIdle (s : Config T (Shared T Y V) (Thread Y V)) : Prop := ∀ t, (s.locals t).point = .idle

omit [DecidableEq T] in
theorem Step.work_lt {g g' : Shared T Y V} {l l' : Thread Y V} (hstep : Step t g l .run g' l') :
    l'.point.work < l.point.work := by
  cases hstep with
  | identical hp | compares hp =>
    rw [hp]
    exact Nat.succ_pos _
  | distinct hp _ =>
    rw [hp]
    exact Nat.lt_succ_self _
  | @locks call hp _ | @copies call hp | @unlocks call _ hp =>
    rw [hp]
    cases call <;> exact Nat.lt_succ_self _

omit [DecidableEq T] in
/-- A thread goes on unless it waits for a mutex. -/
theorem exists_run {g : Shared T Y V} {l : Thread Y V} (hp : l.point ≠ .idle)
    (hfree : ∀ call, l.point = .lockA call → g.m call.object = none) :
    ∃ r, program t .run g l = some r := by
  obtain ⟨p, n⟩ := l
  cases p with
  | idle => exact absurd rfl hp
  | addresses lhs rhs =>
    by_cases hne : lhs = rhs
    · exact ⟨_, if_pos hne⟩
    · exact ⟨_, if_neg hne⟩
  | lockA call => exact ⟨_, if_pos (Option.isNone_iff_eq_none.mpr (hfree call rfl))⟩
  | copy call => exact ⟨_, rfl⟩
  | unlockA call v => exact ⟨_, rfl⟩
  | values lhs rhs v w => exact ⟨_, rfl⟩

/-- While a comparison is in progress, one of those in progress can take its next step: who waits
for a mutex, waits for a thread that waits for none. -/
theorem exists_enabled (hs : Reachable program anyStep (initial details) s)
    (hbusy : (s.locals t).point ≠ .idle) : ∃ u s', s.step program u .run = some s' := by
  have hstep : ∀ u, (∃ r, program u .run s.shared (s.locals u) = some r) →
      ∃ u s', s.step program u .run = some s' := by
    intro u hu
    obtain ⟨r, hr⟩ := hu
    exact ⟨u, _, Config.step_eq_some.mpr ⟨r.1, r.2, hr, rfl⟩⟩
  by_cases hwait : ∃ call u, (s.locals t).point = .lockA call ∧ s.shared.m call.object = some u
  · obtain ⟨call, u, -, hown⟩ := hwait
    have hheld := (((reachable_assertion hs).2 u).owns _).mp hown
    refine hstep u (exists_run (fun hp => ?_) fun call' hp => ?_)
    · rw [hp] at hheld
      exact nomatch hheld
    · rw [hp] at hheld
      exact nomatch hheld
  · refine hstep t (exists_run hbusy fun call hp => ?_)
    by_contra hheld
    obtain ⟨u, hu⟩ := Option.ne_none_iff_exists'.mp hheld
    exact hwait ⟨call, u, hp, hu⟩

/-- **Comparisons return**, however many threads compare the objects and in whatever order they
name them: the comparisons in progress take boundedly many steps, and cannot stop before all of them
have returned. -/
theorem comparisons_complete (hs : Reachable program anyStep (initial details) s) :
    Config.Completes program inProgress AllIdle s := by
  refine hs.completes (fun l => l.point.work) (fun _ => rfl) (fun _ _ _ _ => trivial) ?_ ?_
  · intro s t c g l _ hok hp
    cases hok
    exact (step_of_program hp).work_lt
  · intro s hr hbusy
    obtain ⟨t, ht⟩ := not_forall.mp hbusy
    obtain ⟨u, s', hstep⟩ := exists_enabled hr ht
    exact ⟨u, .run, s', rfl, hstep⟩

/-- Two threads compare the objects in opposite orders, and each has locked its first one. -/
def crossedRun : List (Bool × Choice Bool ℕ) :=
  [(false, .compare false true), (false, .run), (true, .compare true false), (true, .run),
    (false, .run), (true, .run)]

theorem comparisons_complete_crossedRun :
    ∃ s : Config Bool (Shared Bool Bool ℕ) (Thread Bool ℕ),
      (initial fun _ => 3).run program crossedRun = some s ∧
      s.shared.m false = some false ∧ s.shared.m true = some true ∧
      Config.Completes program inProgress AllIdle s := by
  have hrun : ((initial (T := Bool) (Y := Bool) fun _ => 3).run program crossedRun).isSome := by
    decide
  exact ⟨_, (Option.some_get hrun).symm, rfl, rfl,
    comparisons_complete (.of_run_any crossedRun (Option.some_get hrun).symm)⟩

end Run

end ConcurrencyInAction.ComparisonOperator
