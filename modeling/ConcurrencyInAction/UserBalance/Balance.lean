import ConcurrencyInAction.UserBalance.Locks
import ConcurrencyInAction.Lib.Accounting

/-!
# No lost update in `update_user_balance`

* `find_eq_some_iff`: `find` finds the first user of that name;
* `share`: what a call has added to the balance of a user so far;
* `share_step`: a step changes a balance by as much as the share of the thread that takes it; the
  balance that a thread is to write is still that of its user, plus the amount;
* `no_lost_update`: when every call has returned, the balances are those of `settled`.
-/

namespace ConcurrencyInAction.UserBalance

open Interleaving
open HierachicalMutex (Call GlobalMutex)

variable {T : Type*}

/-! ### What the calls should leave behind -/

/-- The sum of the amounts of the calls that name a user. -/
def credited [Fintype T] (calls : T → String × ℤ) (name : String) : ℤ :=
  ∑ t, if (calls t).1 = name then (calls t).2 else 0

/-- The registry after all calls: the first user of every name has received the amounts of the calls
that name it. -/
def settled [Fintype T] (registry : List User) (calls : T → String × ℤ) : List User :=
  registry.mapIdx fun i user =>
    if user.name ∈ (registry.take i).map (·.name) then user
    else { user with balance := user.balance + credited calls user.name }

/-! ### The first user of a name -/

theorem find_eq_none_iff {registry : List User} {name : String} :
    find registry name = none ↔ ∀ user ∈ registry, user.name ≠ name := by
  induction registry with
  | nil => simp [find]
  | cons u us ih =>
    rw [find, List.forall_mem_cons, ← ih]
    by_cases hu : u.name = name
    · simp [hu]
    · simp [hu]

theorem find_eq_some_iff {registry : List User} {name : String} {i : ℕ} :
    find registry name = some i ↔
      registry[i]?.map (·.name) = some name ∧ name ∉ (registry.take i).map (·.name) := by
  induction registry generalizing i with
  | nil => simp [find]
  | cons u us ih =>
    rw [find]
    by_cases hu : u.name = name
    · cases i with
      | zero => simp [hu]
      | succ i => simp [hu]
    · cases i with
      | zero => simp [hu]
      | succ i => simp [hu, ih, Ne.symm hu]

/-! ### Shares -/

/-- The call of the thread has written the balance. -/
def Thread.Paid (l : Thread) : Prop :=
  l.point = .unlockLow ∨ l.point = .unlockHigh ∨ l.outcome = some .returned

instance (l : Thread) : Decidable l.Paid :=
  inferInstanceAs (Decidable (l.point = .unlockLow ∨ l.point = .unlockHigh ∨
    l.outcome = some .returned))

/-- What the call of the thread has added to the balance of the user at position `i`. -/
def share (registry : List User) (i : ℕ) (l : Thread) : ℤ :=
  if l.Paid ∧ find registry l.userName = some i then l.amount else 0

/-- The balance of the user at position `i`. -/
def balanceAt (registry : List User) (i : ℕ) : ℤ := (registry[i]?.map (·.balance)).getD 0

variable {registry : List User} {t : T} {c : Choice} {g g' : Shared T} {l l' : Thread} {i : ℕ}

theorem share_of_not_paid (h : ¬ l.Paid) : share registry i l = 0 := if_neg fun hp => h hp.1

theorem share_congr (hpaid : l'.Paid ↔ l.Paid) (hname : l'.userName = l.userName)
    (hamount : l'.amount = l.amount) : share registry i l' = share registry i l := by
  simp only [share, hpaid, hname, hamount]

theorem balanceAt_setBalance (g : Shared T) {j : ℕ} {old : ℤ}
    (hold : g.registry[j]?.map (·.balance) = some old) (balance : ℤ) :
    balanceAt (g.setBalance j balance).registry i - balanceAt g.registry i =
      if i = j then balance - old else 0 := by
  obtain ⟨u, hu, rfl⟩ := Option.map_eq_some_iff.mp hold
  unfold balanceAt
  rw [show (g.setBalance j balance).registry[i]? = _ from List.getElem?_modify ..]
  by_cases hij : i = j
  · subst hij
    simp [hu]
  · simp [hij, Ne.symm hij]

/-! ### One step -/

theorem share_next {f : Call GlobalMutex} {next : Thread → Thread} (hm : l.point.Member f next)
    (k : HierachicalMutex.Thread GlobalMutex) :
    share registry i (next { l with mutexes := k }) = share registry i l := by
  generalize hp : l.point = p at hm
  cases hm with
  | lockHigh | lockLow user | unlockLow =>
    exact share_congr (by simp [Thread.Paid, Thread.goto, hp]) rfl rfl
  | unlockHigh => exact share_congr (by simp [Thread.Paid, Thread.finish, hp]) rfl rfl

/-- **A step changes a balance by as much as the share of its thread.**  In particular the balance
that is written is that of the user at the time of the write, plus the amount. -/
theorem share_step (h : Assertion registry t g l)
    (hnew : ∀ userName amount, c = .call userName amount → l.outcome = none)
    (hstep : Step t g l c g' l') :
    balanceAt g'.registry i - balanceAt g.registry i =
      share registry i l' - share registry i l := by
  -- it is enough that the share stays, where the step writes no balance
  have hsame : ∀ {m : HierachicalMutex.Shared T GlobalMutex} {l' : Thread},
      share registry i l' = share registry i l →
        balanceAt ({ g with mutexes := m } : Shared T).registry i - balanceAt g.registry i =
          share registry i l' - share registry i l := by
    intro m l' hshare
    rw [hshare, sub_self, sub_self]
  cases hstep with
  | call userName amount hp =>
    have hout := hnew userName amount rfl
    have hbefore : ¬ l.Paid := by simp [Thread.Paid, hp, hout]
    have hafter : ¬ (l.enter userName amount).Paid := by simp [Thread.Paid, Thread.enter]
    exact hsame ((share_of_not_paid hafter).trans (share_of_not_paid hbefore).symm)
  | @member f next m k hm hst =>
    obtain ⟨-, ⟨-, hl⟩ | ⟨-, -, hl⟩⟩ := h.advance hm hst
    · rw [hl]
      exact hsame rfl
    · rw [hl]
      exact hsame (share_next hm k)
  | finds hp | reads hp _ | readsOutside hp _ =>
    exact hsame (share_congr (by simp [Thread.Paid, Thread.goto, hp]) rfl rfl)
  | @writes j balance hp =>
    have hout := h.unfinished (by rw [hp]; nofun)
    have hd := h.data
    simp only [DataAt, hp] at hd
    obtain ⟨hfind, hbalance⟩ := hd
    have hbefore : ¬ l.Paid := by simp [Thread.Paid, hp, hout]
    have hafter : (l.goto .unlockLow).Paid := .inl rfl
    rw [share_of_not_paid hbefore, sub_zero, balanceAt_setBalance g hbalance, add_sub_cancel_left]
    show _ = if (l.goto .unlockLow).Paid ∧ find registry l.userName = some i then l.amount else 0
    simp only [hafter, true_and, hfind, Option.some.injEq, eq_comm]

/-- A thread keeps the parameters of its call. -/
theorem Step.parameters (hstep : Step t g l .run g' l') :
    l.point ≠ .idle ∧ l'.userName = l.userName ∧ l'.amount = l.amount := by
  cases hstep with
  | @member f next m k hm hst =>
    generalize hp : l.point = p at hm
    refine ⟨by cases hm <;> nofun, ?_⟩
    unfold Thread.advance
    split
    · exact ⟨rfl, rfl⟩
    · cases hm <;> exact ⟨rfl, rfl⟩
    · exact ⟨rfl, rfl⟩
  | finds hp | reads hp _ | readsOutside hp _ | writes hp =>
    exact ⟨by rw [hp]; nofun, rfl, rfl⟩

/-! ### Every run of one call per thread -/

/-- The parameters of a thread that has begun its call. -/
def Begun (calls : T → String × ℤ) (t : T) (l : Thread) : Prop :=
  l.point ≠ .idle ∨ l.outcome ≠ none → (l.userName, l.amount) = calls t

variable [DecidableEq T] {calls : T → String × ℤ} {s : Config T (Shared T) Thread}

theorem reachable_begun (hs : Reachable program (oneCallEach calls) (initial registry) s) (t : T) :
    Begun calls t (s.locals t) := by
  apply hs.local_invariant
  · rintro t (hp | hout)
    · exact absurd rfl hp
    · exact absurd rfl hout
  · intro s t c g l _ hbegun hok hp _
    have hstep := step_of_program hp
    cases c with
    | call userName amount =>
      cases hstep with
      | call _ _ _ => exact (hok userName amount rfl).1
    | run =>
      obtain ⟨hne, hname, hamount⟩ := hstep.parameters
      rw [hname, hamount]
      exact hbegun (.inl hne)

variable [Fintype T]

/-- **The account of a user**, in every reachable state. -/
theorem balanceAt_eq (hs : Reachable program (oneCallEach calls) (initial registry) s) (i : ℕ) :
    balanceAt s.shared.registry i = balanceAt registry i + ∑ t, share registry i (s.locals t) := by
  have haccount := hs.accounts (fun g => balanceAt g.registry i) (fun _ => share registry i) ?_
  · have hzero : ∑ t : T, share registry i ((initial registry).locals t) = 0 :=
      Finset.sum_eq_zero fun t _ => share_of_not_paid (by simp [Thread.Paid, initial])
    rw [hzero, sub_zero] at haccount
    exact eq_add_of_sub_eq' haccount
  · intro s t c g l hr hok hp
    obtain ⟨-, h⟩ := reachable_assertion hr
    refine share_step (h t) (fun userName amount hc => ?_) (step_of_program hp)
    exact (hok userName amount hc).2

/-- When every call has returned, a balance has grown by the amounts of the calls that found it. -/
theorem balanceAt_returned (hs : Reachable program (oneCallEach calls) (initial registry) s)
    (hret : ∀ t, (s.locals t).outcome = some .returned) (i : ℕ) :
    balanceAt s.shared.registry i = balanceAt registry i +
      ∑ t, if find registry (calls t).1 = some i then (calls t).2 else 0 := by
  rw [balanceAt_eq hs i]
  congr 1
  apply Finset.sum_congr rfl
  intro t _
  have hbegun := reachable_begun hs t (.inr (by rw [hret t]; nofun))
  have hpaid : (s.locals t).Paid := .inr (.inr (hret t))
  rw [← hbegun]
  simp only [share, hpaid, true_and]

omit [DecidableEq T] in
/-- The calls that find the user at position `i` are those that name it, unless an earlier user has
the same name. -/
theorem sum_found {user : User} {i : ℕ} (hi : registry[i]? = some user) :
    (∑ t, if find registry (calls t).1 = some i then (calls t).2 else 0) =
      if user.name ∈ (registry.take i).map (·.name) then 0 else credited calls user.name := by
  have hfind : ∀ name, find registry name = some i ↔
      name = user.name ∧ user.name ∉ (registry.take i).map (·.name) := by
    intro name
    rw [find_eq_some_iff, hi]
    constructor
    · intro h
      obtain ⟨hname, hfirst⟩ := h
      cases hname
      exact ⟨rfl, hfirst⟩
    · intro h
      obtain ⟨rfl, hfirst⟩ := h
      exact ⟨rfl, hfirst⟩
  split
  · rename_i hmem
    refine Finset.sum_eq_zero fun t _ => if_neg fun hf => ?_
    exact ((hfind _).mp hf).2 hmem
  · rename_i hmem
    refine Finset.sum_congr rfl fun t _ => ?_
    simp only [hfind, hmem, not_false_eq_true, and_true]

/-- The registry after all calls. -/
theorem registry_returned (hs : Reachable program (oneCallEach calls) (initial registry) s)
    (hret : ∀ t, (s.locals t).outcome = some .returned) :
    s.shared.registry = settled registry calls := by
  obtain ⟨hnames, -⟩ := reachable_assertion hs
  apply List.ext_getElem?
  intro i
  have hbalance := balanceAt_returned hs hret i
  have hname : s.shared.registry[i]?.map (·.name) = registry[i]?.map (·.name) := by
    rw [← List.getElem?_map, ← List.getElem?_map]
    exact congrArg (·[i]?) hnames
  rw [settled, List.getElem?_mapIdx]
  cases hi : registry[i]? with
  | none =>
    rw [hi] at hname
    exact Option.map_eq_none_iff.mp hname
  | some user =>
    rw [hi] at hname
    obtain ⟨user', hi', hn⟩ := Option.map_eq_some_iff.mp hname
    have hb : user'.balance = user.balance +
        if user.name ∈ (registry.take i).map (·.name) then 0 else credited calls user.name := by
      rw [balanceAt, balanceAt, hi', hi, sum_found hi] at hbalance
      exact hbalance
    rw [hi', Option.map_some]
    congr 1
    obtain ⟨name, balance'⟩ := user'
    obtain ⟨_, balance⟩ := user
    cases hn
    by_cases hmem : name ∈ (registry.take i).map (·.name)
    · rw [if_pos hmem] at hb ⊢
      rw [show balance' = balance from hb.trans (add_zero _)]
    · rw [if_neg hmem] at hb ⊢
      rw [show balance' = balance + credited calls name from hb]

omit [DecidableEq T] [Fintype T] in
/-- A call that has not returned has not ended. -/
theorem Assertion.outcome_eq_none (h : Assertion registry t g l)
    (hne : l.outcome ≠ some .returned) : l.outcome = none := by
  cases hout : l.outcome with
  | none => rfl
  | some o =>
    cases o with
    | returned => exact absurd hout hne
    | threw what => exact absurd hout (h.noThrow what)

/-- **No lost update.**  Every thread makes one call, with a name that is in the registry.  In every
reachable state no `lock` and no `unlock` has thrown, nor has the function, and no null pointer has
been used; while there is an unfinished call some step can be taken, and while there are calls in
progress by one of these; and when all calls have returned both mutexes are free, the first user of
each name has received the amounts of the calls that name it, and nothing else has changed. -/
theorem no_lost_update (registry : List User) (calls : T → String × ℤ)
    (hpresent : ∀ t, ∃ user ∈ registry, user.name = (calls t).1) {s : Config T (Shared T) Thread}
    (hs : Reachable program (oneCallEach calls) (initial registry) s) :
    (∀ t, (s.locals t).mutexes.NoLogicError ∧ (∀ what, (s.locals t).outcome ≠ some (.threw what)) ∧
      (s.locals t).point ≠ .undefined) ∧
    ((∃ t, (s.locals t).outcome ≠ some .returned) →
      ∃ t c s', oneCallEach calls s t c ∧ s.step program t c = some s') ∧
    ((∃ t, (s.locals t).point ≠ .idle) →
      ∃ t, (s.locals t).point ≠ .idle ∧ ∃ s', s.step program t .run = some s') ∧
    ((∀ t, (s.locals t).outcome = some .returned) →
      (∀ m, s.shared.mutexes.internalMutex m = none) ∧
        s.shared.registry = settled registry calls) := by
  obtain ⟨-, h⟩ := reachable_assertion hs
  have hund : ∀ t, (s.locals t).point ≠ .undefined := by
    intro t hp
    have hd := (h t).data
    simp only [DataAt, hp] at hd
    have hbegun := reachable_begun hs t (.inl (by rw [hp]; nofun))
    obtain ⟨user, hmem, hname⟩ := hpresent t
    rw [← hbegun] at hname
    exact find_eq_none_iff.mp hd user hmem hname
  have hprogress := exists_enabled h hund
  refine ⟨fun t => ⟨(h t).noLogicError, (h t).noThrow, hund t⟩, ?_, hprogress, fun hret => ?_⟩
  · intro h
    obtain ⟨t, ht⟩ := h
    by_cases hex : ∃ t, (s.locals t).point ≠ .idle
    · obtain ⟨u, -, s', hst⟩ := hprogress hex
      exact ⟨u, .run, s', nofun, hst⟩
    · have hidle : (s.locals t).point = .idle := by
        by_contra hne
        exact hex ⟨t, hne⟩
      obtain ⟨s', hst⟩ := exists_call hidle (calls t).1 (calls t).2
      refine ⟨t, .call (calls t).1 (calls t).2, s', ?_, hst⟩
      intro userName amount he
      cases he
      exact ⟨rfl, (h t).outcome_eq_none ht⟩
  · have hidle : ∀ t, (s.locals t).point = .idle := by
      intro t
      by_contra hne
      exact nomatch (hret t).symm.trans ((h t).unfinished hne)
    refine ⟨fun m => ?_, registry_returned hs hret⟩
    cases hown : s.shared.mutexes.internalMutex m with
    | none => rfl
    | some t => exact absurd hown ((h t).not_owner (hidle t) m)

/-- The users and the calls of `main`. -/
def mainRegistry : List User := [⟨"alejandro", 100⟩, ⟨"andromeda", 10⟩]

@[inherit_doc mainRegistry]
def mainCalls : Bool → String × ℤ
  | true => ("alejandro", 100)
  | false => ("andromeda", 8)

/-- The second thread comes to wait for `high_level_mutex` while the first one holds it. -/
def mainRun : List (Bool × Choice) :=
  [(true, .call "alejandro" 100), (false, .call "andromeda" 8)] ++
    List.replicate 5 (true, .run) ++ List.replicate 2 (false, .run) ++
    List.replicate 16 (true, .run) ++ List.replicate 19 (false, .run)

theorem no_lost_update_mainRun :
    ∃ s, (initial mainRegistry).run program mainRun = some s ∧
      (∀ m, s.shared.mutexes.internalMutex m = none) ∧
      s.shared.registry = [⟨"alejandro", 200⟩, ⟨"andromeda", 18⟩] := by
  have hr : Reachable program (oneCallEach mainCalls) (initial mainRegistry)
      (((initial mainRegistry).run program mainRun).get (by decide)) :=
    Reachable.of_run mainRun _ _ .init (by decide) (Option.some_get _).symm
  obtain ⟨-, -, -, hreturned⟩ := no_lost_update mainRegistry mainCalls (by decide) hr
  obtain ⟨hfree, hregistry⟩ := hreturned (by decide)
  exact ⟨_, (Option.some_get _).symm, hfree, hregistry.trans (by decide)⟩

end ConcurrencyInAction.UserBalance
