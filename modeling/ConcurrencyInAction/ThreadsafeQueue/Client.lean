import ConcurrencyInAction.ThreadsafeQueue.Wakeup

/-!
# What a client of `threadsafe_queue` can rely on

* `Call.Inside`, `Call.Ends`: the points of a call, and the results it can end with;
  `Call.Inside.step`: **the contract of the member functions**; `Call.Inside.notThrew`,
  `exists_fifoHistory`;
* `Point.work`, `Shared.work`: a measure of one thread and the queue, which every step brings down,
  unless a sleeper wakes spuriously or a copy throws inside `wait_and_pop` (`Step.work_lt`);
* `exists_step_of_owner`, `exists_step_of_free`: who holds `mut` can go on; while it is free,
  everybody inside a call can who is not asleep.
-/

namespace ConcurrencyInAction.ThreadsafeQueue

open Interleaving ExclusiveLock

variable {T V : Type*}

/-! ### Calls -/

/-- How a call of `f` can end. -/
def Call.Ends (f : Call V) : Result V → Prop
  | .pushed v => f = .push v
  | .popped o _ => f = .tryPop o ∨ f = .waitAndPop o
  | .failed o => f = .tryPop o
  | .threw => True

/-- The points of a call of `f`. -/
def Call.Inside (f : Call V) : Point V → Prop
  | .pushLock v | .pushContainer v | .pushNotify v => f = .push v
  | .tryLock o | .tryTest o | .tryCopy o => f = .tryPop o
  | .waitLock o | .waitTest o | .waitSleep o | .waiting o | .waitCopy o => f = .waitAndPop o
  | .popContainer o _ => f = .tryPop o ∨ f = .waitAndPop o
  | .unlock r => f.Ends r
  | .idle | .undefined => False

theorem Call.inside_entry (f : Call V) : f.Inside f.entry := by
  cases f <;> exact rfl

theorem Call.Inside.ne_idle {f : Call V} {p : Point V} (hin : f.Inside p) : p ≠ .idle := by
  intro hp
  rw [hp] at hin
  exact hin

section Steps

variable [DecidableEq T] {t : T} {c : Choice T V} {g g' : Shared T V} {l l' : Thread V}

/-- **The contract of the member functions.**  A step of a call of `f` stays inside the call and
ends no other one; or it is the last step, and adds the result of the call to the history. -/
theorem Call.Inside.step {f : Call V} (h : region.Assertion t g l) (hin : f.Inside l.point)
    (hstep : Step t g l c g' l') :
    (f.Inside l'.point ∧ g'.history = g.history) ∨
      ∃ r, f.Ends r ∧ l' = ⟨.idle, some r⟩ ∧ g'.history = g.history ++ [r] := by
  cases hstep with
  | call hp =>
    rw [hp] at hin
    exact hin.elim
  | locks hp _ =>
    refine .inl ⟨?_, rfl⟩
    obtain ⟨v, hp, rfl⟩ | ⟨o, hp, rfl⟩ | ⟨o, hp, rfl⟩ := hp <;> rw [hp] at hin <;> exact hin
  | pushes hp | notifies hp _ | notifiesNobody hp _ | tryFindsEmpty hp _ | tryFindsValue hp _
  | waitFindsEmpty hp _ | waitFindsValue hp _ | sleeps hp | relocks hp _ _ =>
    rw [hp] at hin
    exact .inl ⟨hin, rfl⟩
  | pushThrows hp | tryCopyThrows hp | waitCopyThrows hp => exact .inl ⟨trivial, rfl⟩
  | wakesSpuriously hp _ => exact .inl ⟨hin, rfl⟩
  | copies hp _ =>
    refine .inl ⟨?_, rfl⟩
    rcases hp with hp | hp <;> rw [hp] at hin
    · exact .inl hin
    · exact .inr hin
  | pops hp _ =>
    rw [hp] at hin
    exact .inl ⟨hin, rfl⟩
  | @unlocks r hp =>
    rw [hp] at hin
    exact .inr ⟨r, hin, rfl, rfl⟩
  | undefined hp he => exact absurd he (ne_nil_at h hp)

/-- The call has not thrown, and is not about to. -/
def Thread.NotThrew (l : Thread V) : Prop := l.point ≠ .unlock .threw ∧ l.result ≠ some .threw

/-- `wait_and_pop` throws only where it copies the element. -/
theorem Call.Inside.notThrew {o : Overload} (hin : (Call.waitAndPop o).Inside l.point)
    (hc : c = .throws → ∀ o, l.point ≠ .waitCopy o) (hno : l.NotThrew)
    (hstep : Step t g l c g' l') : l'.NotThrew := by
  obtain ⟨hpoint, hresult⟩ := hno
  cases hstep with
  | call hp =>
    rw [hp] at hin
    exact hin.elim
  | locks hp _ =>
    obtain ⟨v, hp, rfl⟩ | ⟨o, hp, rfl⟩ | ⟨o, hp, rfl⟩ := hp <;> exact ⟨nofun, hresult⟩
  | pushThrows hp =>
    rw [hp] at hin
    exact nomatch hin
  | tryCopyThrows hp =>
    rw [hp] at hin
    exact nomatch hin
  | waitCopyThrows hp => exact absurd hp (hc rfl _)
  | wakesSpuriously _ _ => exact ⟨hpoint, hresult⟩
  | @unlocks r hp =>
    refine ⟨nofun, fun hr => hpoint ?_⟩
    rw [hp, Option.some.inj hr]
  | pushes _ | notifies _ _ | notifiesNobody _ _ | tryFindsEmpty _ _ | tryFindsValue _ _
  | waitFindsEmpty _ _ | waitFindsValue _ _ | sleeps _ | relocks _ _ _ | copies _ _ | pops _ _
  | undefined _ _ => exact ⟨nofun, hresult⟩

omit [DecidableEq T] in
/-- The operations that have ended are those of a sequential queue, also while `mut` is held. -/
theorem exists_fifoHistory {locals : T → Thread V} (hS : SharedAssertion g)
    (hP : ∀ t, Assertion t g (locals t)) : ∃ q, FifoHistory g.history q := by
  cases hown : g.queueMut with
  | none => exact ⟨g.dataQueue, hS.free hown⟩
  | some u =>
    have hk : Known (locals u).point (g.history, g.dataQueue) :=
      (hP u).inRegion.known ((hP u).inRegion.owns.mp hown)
    cases hp : (locals u).point with
    | pushContainer | tryTest | waitTest =>
      rw [hp] at hk
      exact ⟨_, hk⟩
    | pushNotify | unlock =>
      rw [hp] at hk
      obtain ⟨q, hq, -⟩ := hk
      exact ⟨q, hq⟩
    | tryCopy | waitCopy | waitSleep | popContainer =>
      rw [hp] at hk
      exact ⟨_, hk.1⟩
    | idle | pushLock | tryLock | waitLock | waiting | undefined =>
      rw [hp] at hk
      exact hk.elim

/-! ### A measure of the queue -/

/-- The steps a call still needs at each point, the thread being left alone.  A thread that is
asleep needs none; what a notification or an element is worth is counted for the queue. -/
def Point.work : Point V → ℕ
  | .idle => 6
  | .pushLock _ => 21
  | .pushContainer _ => 20
  | .pushNotify _ => 11
  | .tryLock _ => 11
  | .tryTest _ => 10
  | .tryCopy _ => 9
  | .waitLock _ => 3
  | .waitTest _ => 2
  | .waitSleep _ => 1
  | .waiting _ => 0
  | .waitCopy _ => 1
  | .popContainer _ _ => 0
  | .unlock _ => 7
  | .undefined => 0

/-- An element is worth what its consumer does once it has taken it, and a woken thread is worth its
test of the predicate. -/
def Shared.work (g : Shared T V) : ℕ := 8 * g.dataQueue.length + 3 * g.dataCond.woken.card

/-- Inside a call, the steps that neither wake a sleeper spuriously nor throw in `wait_and_pop`. -/
structure Settling (l : Thread V) (c : Choice T V) : Prop where
  inside : l.point ≠ .idle
  notSpurious : c ≠ .spurious
  notThrows : c = .throws → ∀ o, l.point ≠ .waitCopy o

/-- **The measure goes down.** -/
theorem Step.work_lt (hd : Disjoint g.dataCond.asleep g.dataCond.woken)
    (h : region.Assertion t g l) (hc : Settling l c) (hstep : Step t g l c g' l') :
    l'.point.work + g'.work < l.point.work + g.work := by
  cases hstep with
  | call hp => exact absurd hp hc.inside
  | locks hp _ =>
    refine Nat.add_lt_add_right ?_ _
    obtain ⟨v, hp, rfl⟩ | ⟨o, hp, rfl⟩ | ⟨o, hp, rfl⟩ := hp <;> rw [hp] <;>
      exact Nat.lt_succ_self _
  | pushes hp =>
    rw [hp]
    show 11 + (8 * (g.dataQueue ++ [_]).length + 3 * g.dataCond.woken.card) <
      20 + (8 * g.dataQueue.length + 3 * g.dataCond.woken.card)
    rw [List.length_append, List.length_singleton]
    omega
  | @notifies v u hp hu =>
    have hcard := ConditionVariable.card_woken_wake hd hu
    rw [hp]
    show 7 + (8 * g.dataQueue.length + 3 * (g.dataCond.wake u).woken.card) <
      11 + (8 * g.dataQueue.length + 3 * g.dataCond.woken.card)
    rw [hcard]
    omega
  | notifiesNobody hp _ | tryFindsEmpty hp _ | tryFindsValue hp _ | waitFindsEmpty hp _
  | waitFindsValue hp _ | pushThrows hp | tryCopyThrows hp | unlocks hp =>
    refine Nat.add_lt_add_right ?_ _
    rw [hp]
    simp [Point.work, Thread.goto]
  | sleeps hp =>
    refine Nat.add_lt_add_right ?_ _
    rw [hp]
    exact Nat.zero_lt_one
  | wakesSpuriously hp _ => exact absurd rfl hc.notSpurious
  | relocks hp hwoken _ =>
    have hcard := Finset.card_erase_of_mem hwoken
    have hpos := Finset.card_pos.mpr ⟨t, hwoken⟩
    rw [hp]
    show 2 + (8 * g.dataQueue.length + 3 * (g.dataCond.woken.erase t).card) <
      0 + (8 * g.dataQueue.length + 3 * g.dataCond.woken.card)
    omega
  | copies hp _ =>
    refine Nat.add_lt_add_right ?_ _
    rcases hp with hp | hp <;> rw [hp]
    · exact Nat.zero_lt_succ 8
    · exact Nat.zero_lt_one
  | waitCopyThrows hp => exact absurd hp (hc.notThrows rfl _)
  | @pops o v w rest hp hq =>
    rw [hp]
    show 7 + (8 * rest.length + 3 * g.dataCond.woken.card) <
      0 + (8 * g.dataQueue.length + 3 * g.dataCond.woken.card)
    rw [hq, List.length_cons]
    omega
  | undefined hp he => exact absurd he (ne_nil_at h hp)

/-! ### Who can go on -/

/-- The thread can take a step, and without an exception or a spurious wake-up. -/
def CanGoOn (t : T) (g : Shared T V) (l : Thread V) : Prop :=
  ∃ c r, Settling l c ∧ c ≠ .throws ∧ program t c g l = some r

theorem canGoOn_of_isSome (hidle : l.point ≠ .idle) (hspurious : c ≠ .spurious)
    (hthrows : c ≠ .throws) (h : (program t c g l).isSome) : CanGoOn t g l := by
  obtain ⟨r, hr⟩ := Option.isSome_iff_exists.mp h
  exact ⟨c, r, ⟨hidle, hspurious, fun hc => absurd hc hthrows⟩, hthrows, hr⟩

theorem canGoOn_of_run (hidle : l.point ≠ .idle) (h : (program t .run g l).isSome) :
    CanGoOn t g l :=
  canGoOn_of_isSome (c := .run) hidle nofun nofun h

theorem canGoOn_of_notify (sleeper : Option T) (hidle : l.point ≠ .idle)
    (h : (program t (.notify sleeper) g l).isSome) : CanGoOn t g l :=
  canGoOn_of_isSome (c := .notify sleeper) hidle nofun nofun h

/-- Whoever holds `mut` can go on. -/
theorem exists_step_of_owner (h : region.Assertion t g l) (hown : g.queueMut = some t) :
    CanGoOn t g l := by
  have hin : l.point.HoldsMut := h.owns.mp hown
  have hidle : l.point ≠ .idle := by
    intro hp
    rw [hp] at hin
    exact hin
  cases hp : l.point with
  | idle | pushLock | tryLock | waitLock | waiting =>
    rw [hp] at hin
    exact hin.elim
  | undefined => exact (known_at h hp trivial).elim
  | pushNotify v =>
    rcases Finset.eq_empty_or_nonempty g.dataCond.asleep with hnone | ⟨u, hu⟩
    · refine canGoOn_of_notify none hidle ?_
      simp only [program, hp, hnone, if_pos, Option.isSome_some]
    · refine canGoOn_of_notify (some u) hidle ?_
      simp only [program, hp, if_pos hu, Option.isSome_some]
  | tryTest | waitTest | popContainer =>
    refine canGoOn_of_run hidle ?_
    simp only [program, hp]
    split <;> rfl
  | pushContainer | tryCopy | waitCopy | waitSleep | unlock =>
    refine canGoOn_of_run hidle ?_
    simp only [program, hp, Option.isSome_some]

/-- While `mut` is free, a thread inside a call can go on unless it is asleep. -/
theorem exists_step_of_free (h : Assertion t g l) (hfree : g.queueMut = none)
    (hidle : l.point ≠ .idle) (hawake : t ∉ g.dataCond.asleep) : CanGoOn t g l := by
  have hout : ¬ l.point.HoldsMut := by
    intro hin
    have hown : g.queueMut = some t := h.inRegion.owns.mpr hin
    rw [hfree] at hown
    exact nomatch hown
  refine canGoOn_of_run hidle ?_
  cases hp : l.point with
  | idle => exact absurd hp hidle
  | pushLock | tryLock | waitLock =>
    simp only [program, hp, lockMut, if_pos hfree, Option.isSome_some]
  | waiting o =>
    have hwoken : t ∈ g.dataCond.woken := by
      have hwaits : g.dataCond.Waiting t := h.waits.mpr (by rw [hp]; exact trivial)
      exact hwaits.resolve_left hawake
    simp only [program, hp, lockMut, if_pos hwoken, if_pos hfree, Option.isSome_some]
  | pushContainer | pushNotify | tryTest | tryCopy | waitTest | waitSleep | waitCopy | popContainer
  | unlock | undefined =>
    rw [hp] at hout
    exact absurd trivial hout

end Steps

end ConcurrencyInAction.ThreadsafeQueue
