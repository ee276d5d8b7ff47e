import ConcurrencyInAction.ThreadGuards.Guards
import Mathlib.Data.List.Range

/-!
# Threads in a container

What becomes of a function that starts its threads in a vector and joins them at its end, for every
pattern of threads that start and fail to start.

* `startAll`, `Started`: the elements have started the next threads, one after the other;
* `emptied`, `joinAll_apply`: the elements are joined in the order of the vector;
* `emplaceBack_returns`, `emplaceBack_fails`: how the function ends, by induction on the elements;
* `container_outcome`: **all threads are joined, or the program is terminated**, unless the first
  one fails to start.
-/

namespace ConcurrencyInAction.ThreadGuards

open Exceptions AutoJoiningThread

variable {H : Type} [DecidableEq H] {s s' : System H} {t : H} {n : ℕ}

/-! ### The elements -/

/-- The elements have started their threads. -/
def startAll : System H → List H → System H
  | s, [] => s
  | s, t :: ts => startAll (startIn s (.member t)) ts

/-- The elements have the threads from number `n` on. -/
def Started (s : System H) : List H → ℕ → Prop
  | [], _ => True
  | t :: ts, n => s.threads (.member t) = some (some n) ∧ Started s ts (n + 1)

/-- The elements have been joined in turn. -/
def emptied : System H → List H → ℕ → System H
  | s, [], _ => s
  | s, t :: ts, n =>
      emptied { s.put (.member t) (some none) with joined := n :: s.joined } ts (n + 1)

/-- The elements have been destroyed, the last one first. -/
def dropAll : System H → List H → System H
  | s, [] => s
  | s, t :: ts => (dropAll s ts).put (.member t) none

theorem startIn_self (s : System H) (o : Object H) :
    (startIn s o).threads o = some (some s.started) := put_self _ _ _

theorem startIn_of_ne {o p : Object H} (hp : p ≠ o) :
    (startIn s o).threads p = s.threads p := put_of_ne hp _

omit [DecidableEq H] in
theorem member_ne {u : H} {ts : List H} (ht : t ∉ ts) (hu : u ∈ ts) :
    Object.member t ≠ .member u := by
  intro he
  rw [Object.member.inj he] at ht
  exact ht hu

theorem startAll_of_notMem {o : Object H} :
    ∀ (ts : List H) (s : System H), (∀ t ∈ ts, o ≠ .member t) →
      (startAll s ts).threads o = s.threads o := by
  intro ts
  induction ts with
  | nil => exact fun _ _ => rfl
  | cons t ts ih =>
    intro s ho
    rw [startAll, ih _ fun u hu => ho u (.tail _ hu), startIn_of_ne (ho t (.head _))]

theorem started_startAll (ts : List H) : ∀ s : System H, ts.Nodup →
    Started (startAll s ts) ts s.started := by
  induction ts with
  | nil => exact fun _ _ => trivial
  | cons t ts ih =>
    intro s hnodup
    rw [List.nodup_cons] at hnodup
    refine ⟨?_, ih (startIn s (.member t)) hnodup.2⟩
    rw [startAll, startAll_of_notMem ts _ fun u hu => member_ne hnodup.1 hu]
    exact startIn_self s _

omit [DecidableEq H] in
/-- Another object does not matter. -/
theorem Started.congr {ts : List H} (h : Started s ts n)
    (hsame : ∀ t ∈ ts, s'.threads (.member t) = s.threads (.member t)) : Started s' ts n := by
  induction ts generalizing n with
  | nil => trivial
  | cons t ts ih =>
    exact ⟨(hsame t (.head _)).trans h.1, ih h.2 fun u hu => hsame u (.tail _ hu)⟩

/-- The threads are joined in the order of the container. -/
theorem joinAll_apply {ts : List H} (hnodup : ts.Nodup) (h : Started s ts n) :
    joinAll ts s = .returned () (emptied s ts n) := by
  induction ts generalizing s n with
  | nil => rfl
  | cons t ts ih =>
    rw [List.nodup_cons] at hnodup
    rw [joinAll, Prog.bind_of_returned (StdThread.join_apply h.1)]
    refine ih hnodup.2 (h.2.congr fun u hu => ?_)
    exact put_of_ne (member_ne hnodup.1 hu).symm _

theorem emptied_of_notMem {o : Object H} {ts : List H} (ho : ∀ t ∈ ts, o ≠ .member t) :
    (emptied s ts n).threads o = s.threads o := by
  induction ts generalizing s n with
  | nil => rfl
  | cons t ts ih =>
    rw [emptied, ih fun u hu => ho u (.tail _ hu)]
    exact put_of_ne (ho t (.head _)) _

/-- After the joins no element has a thread. -/
theorem emptied_of_mem {ts : List H} (hnodup : ts.Nodup) (ht : t ∈ ts) :
    (emptied s ts n).threads (.member t) = some none := by
  induction ts generalizing s n with
  | nil => exact nomatch ht
  | cons u ts ih =>
    rw [List.nodup_cons] at hnodup
    rw [emptied]
    rcases List.mem_cons.mp ht with rfl | ht
    · rw [emptied_of_notMem fun u hu => member_ne hnodup.1 hu]
      exact put_self _ _ _
    · exact ih hnodup.2 ht

theorem emptied_joined (ts : List H) :
    ∀ (s : System H) (n : ℕ), (emptied s ts n).joined =
      (List.range' n ts.length).reverse ++ s.joined := by
  induction ts with
  | nil => exact fun _ _ => rfl
  | cons t ts ih =>
    intro s n
    rw [emptied, ih, List.length_cons, List.range'_succ, List.reverse_cons, List.append_assoc]
    rfl

theorem dropAll_of_notMem {o : Object H} {ts : List H} (ho : ∀ t ∈ ts, o ≠ .member t) :
    (dropAll s ts).threads o = s.threads o := by
  induction ts with
  | nil => rfl
  | cons t ts ih =>
    rw [dropAll, put_of_ne (ho t (.head _)), ih fun u hu => ho u (.tail _ hu)]

theorem dropAll_of_mem {ts : List H} (ht : t ∈ ts) :
    (dropAll s ts).threads (.member t) = none := by
  induction ts with
  | nil => exact nomatch ht
  | cons u ts ih =>
    rw [dropAll]
    by_cases hu : t = u
    · subst hu
      exact put_self _ _ _
    · rw [put_of_ne fun he => hu (Object.member.inj he)]
      exact ih ((List.mem_cons.mp ht).resolve_left hu)

/-! ### How the function ends -/

/-- All elements start: the rest of the function runs, and then the elements are destroyed. -/
theorem emplaceBack_returns {rest : Prog (System H) Unit} {ts : List H} (hnodup : ts.Nodup)
    (hnew : ∀ t ∈ ts, s.threads (.member t) = none)
    (hrest : rest (startAll s ts) = .returned () s')
    (hempty : ∀ t ∈ ts, s'.threads (.member t) = some none) :
    emplaceBack (ts.map fun t => (t, true)) rest s = .returned () (dropAll s' ts) := by
  induction ts generalizing s with
  | nil => exact hrest
  | cons t ts ih =>
    rw [List.nodup_cons] at hnodup
    refine (Prog.bind_of_returned (start_apply (hnew t (.head _)))).trans ?_
    refine Prog.inScope_of_returned (ih hnodup.2 (fun u hu => ?_) hrest
      fun u hu => hempty u (.tail _ hu)) (StdThread.destroy_apply ?_)
    · rw [startIn_of_ne (member_ne hnodup.1 hu).symm]
      exact hnew u (.tail _ hu)
    · rw [dropAll_of_notMem fun u hu => member_ne hnodup.1 hu]
      exact hempty t (.head _)

/-- A joinable element is destroyed. -/
theorem destroy_joinable {o : Object H} {i : ℕ} (ho : s.threads o = some (some i)) :
    StdThread.destroy o s = .stopped .terminate := by
  rw [StdThread.destroy, Prog.bind_of_returned (StdThread.joinable_apply ho)]
  rfl

/-- Some element fails to start: the exception goes out if it is the first one, and otherwise it
meets the element before it, which is joinable. -/
theorem emplaceBack_fails {rest : Prog (System H) Unit} {ts : List H} {u : H}
    {more : List (H × Bool)} (hnodup : ts.Nodup)
    (hnew : ∀ t ∈ ts, s.threads (.member t) = none) :
    emplaceBack (ts.map (fun t => (t, true)) ++ (u, false) :: more) rest s =
      if ts = [] then .threw "resource_unavailable_try_again" s else .stopped .terminate := by
  induction ts generalizing s with
  | nil => rfl
  | cons t ts ih =>
    rw [List.nodup_cons] at hnodup
    have hinner := ih (s := startIn s (.member t)) hnodup.2 fun u hu => by
      rw [startIn_of_ne (member_ne hnodup.1 hu).symm]
      exact hnew u (.tail _ hu)
    refine (Prog.bind_of_returned (start_apply (hnew t (.head _)))).trans ?_
    rw [if_neg (List.cons_ne_nil t ts)]
    by_cases hts : ts = []
    · rw [if_pos hts] at hinner
      exact Prog.inScope_of_leave_stopped (congrArg Result.after hinner)
        (destroy_joinable (startIn_self s _))
    · rw [if_neg hts] at hinner
      exact Prog.inScope_of_stopped hinner

omit [DecidableEq H] in
/-- Either all elements start, or there is a first one that does not. -/
theorem starts_cases (threads : List (H × Bool)) :
    (∃ ts : List H, threads = ts.map fun t => (t, true)) ∨
      ∃ (ts : List H) (u : H) (more : List (H × Bool)),
        threads = ts.map (fun t => (t, true)) ++ (u, false) :: more := by
  induction threads with
  | nil => exact .inl ⟨[], rfl⟩
  | cons p threads ih =>
    obtain ⟨t, starts⟩ := p
    cases starts with
    | false => exact .inr ⟨[], t, threads, rfl⟩
    | true =>
      rcases ih with ⟨ts, rfl⟩ | ⟨ts, u, more, rfl⟩
      · exact .inl ⟨t :: ts, rfl⟩
      · exact .inr ⟨t :: ts, u, more, rfl⟩

/-! ### The state at the end -/

theorem startAll_rest (ts : List H) : ∀ s : System H,
    (startAll s ts).started = s.started + ts.length ∧ (startAll s ts).joined = s.joined ∧
      (startAll s ts).detached = s.detached := by
  induction ts with
  | nil => exact fun _ => ⟨rfl, rfl, rfl⟩
  | cons t ts ih =>
    intro s
    obtain ⟨hstarted, hjoined, hdetached⟩ := ih (startIn s (.member t))
    refine ⟨hstarted.trans ?_, hjoined, hdetached⟩
    show s.started + 1 + ts.length = s.started + (ts.length + 1)
    omega

theorem emptied_rest (ts : List H) : ∀ (s : System H) (n : ℕ),
    (emptied s ts n).started = s.started ∧ (emptied s ts n).detached = s.detached := by
  induction ts with
  | nil => exact fun _ _ => ⟨rfl, rfl⟩
  | cons t ts ih => exact fun s n => ih _ _

theorem dropAll_rest (ts : List H) : (dropAll s ts).started = s.started ∧
    (dropAll s ts).joined = s.joined ∧ (dropAll s ts).detached = s.detached := by
  induction ts with
  | nil => exact ⟨rfl, rfl, rfl⟩
  | cons t ts ih => exact ih

/-- Everything has been started, joined and destroyed: what remains is the account. -/
theorem dropAll_emptied {ts : List H} (hnew : ∀ t ∈ ts, s.threads (.member t) = none) :
    dropAll (emptied (startAll s ts) ts s.started) ts =
      { s with
        started := s.started + ts.length
        joined := (List.range' s.started ts.length).reverse ++ s.joined } := by
  have hthreads : (dropAll (emptied (startAll s ts) ts s.started) ts).threads = s.threads := by
    funext o
    by_cases ho : ∃ t ∈ ts, o = .member t
    · obtain ⟨t, ht, rfl⟩ := ho
      rw [dropAll_of_mem ht, hnew t ht]
    · have ho' : ∀ t ∈ ts, o ≠ .member t := fun t ht he => ho ⟨t, ht, he⟩
      rw [dropAll_of_notMem ho', emptied_of_notMem ho', startAll_of_notMem ts s ho']
  obtain ⟨hstarted, hjoined, hdetached⟩ := startAll_rest ts s
  obtain ⟨hstarted', hdetached'⟩ := emptied_rest ts (startAll s ts) s.started
  obtain ⟨hstarted'', hjoined'', hdetached''⟩ :=
    dropAll_rest (s := emptied (startAll s ts) ts s.started) ts
  rw [hstarted', hstarted] at hstarted''
  rw [emptied_joined, hjoined] at hjoined''
  rw [hdetached', hdetached] at hdetached''
  generalize dropAll (emptied (startAll s ts) ts s.started) ts = s' at *
  obtain ⟨threads, started, joined, detached⟩ := s'
  subst hthreads hstarted'' hjoined'' hdetached''
  rfl

/-- **All are joined, or the program is terminated.**  If every thread starts, all are joined, each
once and in the order of the container, and nothing is left of the container.  If the first one
fails to start, the exception goes out and nothing has changed.  If a later one does, the program is
terminated. -/
theorem container_outcome {threads : List (H × Bool)} (hnodup : (threads.map Prod.fst).Nodup)
    (hnew : ∀ p ∈ threads, s.threads (.member p.1) = none) :
    ((∀ p ∈ threads, p.2 = true) → container threads s = .returned ()
      { s with
        started := s.started + threads.length
        joined := (List.range' s.started threads.length).reverse ++ s.joined }) ∧
    (∀ t more, threads = (t, false) :: more →
      container threads s = .threw "resource_unavailable_try_again" s) ∧
    (∀ t more, threads = (t, true) :: more → (∃ p ∈ more, p.2 = false) →
      container threads s = .stopped .terminate) := by
  rcases starts_cases threads with ⟨ts, rfl⟩ | ⟨ts, u, more, rfl⟩
  · have hfst : (ts.map fun t => (t, true)).map Prod.fst = ts := by
      rw [List.map_map]
      exact List.map_id ts
    have hnew' : ∀ t ∈ ts, s.threads (.member t) = none :=
      fun t ht => hnew (t, true) (List.mem_map_of_mem ht)
    rw [hfst] at hnodup
    refine ⟨fun _ => ?_, fun t more he => ?_, fun t more he hfails => ?_⟩
    · rw [container, hfst, List.length_map, ← dropAll_emptied hnew']
      exact emplaceBack_returns hnodup hnew'
        (joinAll_apply hnodup (started_startAll ts s hnodup))
        fun t ht => emptied_of_mem hnodup ht
    · have hmem : (t, false) ∈ ts.map fun t => (t, true) := by
        rw [he]
        exact .head _
      obtain ⟨u, -, hu⟩ := List.mem_map.mp hmem
      exact nomatch hu
    · obtain ⟨p, hp, hfalse⟩ := hfails
      have hmem : p ∈ ts.map fun t => (t, true) := by
        rw [he]
        exact .tail _ hp
      obtain ⟨u, -, rfl⟩ := List.mem_map.mp hmem
      exact nomatch hfalse
  · have hfst : (ts.map (fun t => (t, true)) ++ (u, false) :: more).map Prod.fst =
        ts ++ u :: more.map Prod.fst := by
      rw [List.map_append, List.map_map]
      exact congrArg (· ++ _) (List.map_id ts)
    rw [hfst] at hnodup
    have hnew' : ∀ t ∈ ts, s.threads (.member t) = none := fun t ht =>
      hnew (t, true) (List.mem_append_left _ (List.mem_map_of_mem ht))
    have hfails : container (ts.map (fun t => (t, true)) ++ (u, false) :: more) s =
        if ts = [] then .threw "resource_unavailable_try_again" s else .stopped .terminate :=
      emplaceBack_fails (List.nodup_append.mp hnodup).1 hnew'
    refine ⟨fun hall => ?_, fun t more' he => ?_, fun t more' he _ => ?_⟩
    · have hmem : (u, false) ∈ ts.map (fun t => (t, true)) ++ (u, false) :: more :=
        List.mem_append_right _ (.head _)
      exact nomatch hall _ hmem
    · rw [hfails]
      cases ts with
      | nil => exact if_pos rfl
      | cons t' ts => exact nomatch he
    · rw [hfails]
      cases ts with
      | nil => exact nomatch he
      | cons t' ts => exact if_neg (List.cons_ne_nil t' ts)

/-- Three threads, and the case that the second one fails to start. -/
theorem container_outcome_threeThreads :
    container [(0, true), (1, true), (2, true)] (initial : System ℕ) =
        .returned () { initial with started := 3, joined := [2, 1, 0] } ∧
      container [(0, true), (1, false), (2, true)] (initial : System ℕ) = .stopped .terminate :=
  ⟨(container_outcome (by decide) fun _ _ => rfl).1 (by decide),
    (container_outcome (by decide) fun _ _ => rfl).2.2 0 _ rfl ⟨(1, false), .head _, rfl⟩⟩

end ConcurrencyInAction.ThreadGuards
