import ConcurrencyInAction.ParallelAccumulate.Partition

/-!
# `parallel_accumulate` computes `std::accumulate`

* `WorkerAssertion`, `CallerAssertion`: what the thread of block `i` and the calling thread have
  done at each point; `SharedAssertion`: a worker that has ended has left the sum of its block in
  its slot;
* `WorkerAssertion.step`, `CallerAssertion.step`: the step lemmas; `relyGuarantee`: nobody writes
  another one's slot;
* `reachable_assertion`: in every reachable state, the value of the function is `total`, the sums of
  the blocks folded from `init`; up to here nothing is assumed about `+`;
* `total_eq_accumulate`: for an associative `+` with left unit `T{}`, `total` is the left fold over
  the whole sequence.
-/

namespace ConcurrencyInAction.ParallelAccumulate

open Interleaving BlockFold

variable {α : Type*} [Add α] [Zero α]

/-! ### Assertions -/

/-- What `std::accumulate` computes: the left fold from the initial value. -/
def accumulate (xs : List α) (init : α) : α := xs.foldl (· + ·) init

/-- The sum that block `i` leaves in its slot. -/
def Args.blockSum (a : Args α) (i : ℕ) : α := accumulate (a.block i) 0

/-- What the function computes: the sums of the blocks, one after the other, from `init`. -/
def Args.total (a : Args α) : α :=
  accumulate ((List.range a.threadCount).map a.blockSum) a.init

/-- The thread's function has ended. -/
def Handle.hasExited : Handle → Prop
  | .joinable _ _ true | .joined => True
  | _ => False

/-- `accumulate_block` is at work on block `i`. -/
def InBlock (a : Args α) (i : ℕ) : Point α → Prop
  | .enterBlock first last slot => slot = i ∧ first = i * a.size ∧ last = a.blockEnd i
  | .accumulate it last slot acc => slot = i ∧ last = a.blockEnd i ∧ i * a.size ≤ it ∧ it ≤ last ∧
      acc = accumulate (segment a.sequence (i * a.size) it) 0
  | _ => False

/-- What holds of the two vectors at all times. -/
structure SharedAssertion (a : Args α) (g : Shared α) : Prop where
  results_length : g.results.length = a.threadCount
  threads_length : g.threads.length = a.threadCount - 1
  joinable : ∀ i first last e, g.threads[i]? = some (.joinable first last e) →
    first = i * a.size ∧ last = a.blockEnd i
  exited : ∀ i h, g.threads[i]? = some h → h.hasExited → g.results[i]? = some (a.blockSum i)

/-- The thread of block `i` is running. -/
def Running (a : Args α) (i : ℕ) (g : Shared α) : Prop :=
  i + 1 < a.threadCount ∧ g.threads[i]? = some (.joinable (i * a.size) (a.blockEnd i) false)

/-- The assertion of the thread of block `i`. -/
def WorkerAssertion (a : Args α) (i : ℕ) (g : Shared α) : Point α → Prop
  | .notStarted => (∀ h, g.threads[i]? = some h → ¬ h.hasExited) ∧
      (i + 1 < a.threadCount → g.results[i]? = some 0)
  | .enterBlock first last slot => Running a i g ∧ g.results[i]? = some 0 ∧
      InBlock a i (.enterBlock first last slot)
  | .accumulate it last slot acc => Running a i g ∧ g.results[i]? = some 0 ∧
      InBlock a i (.accumulate it last slot acc)
  | .exit => Running a i g ∧ g.results[i]? = some (a.blockSum i)
  | .exited => ∃ h, g.threads[i]? = some h ∧ h.hasExited
  | _ => False

/-- The first `m` workers are constructed and not joined, the others not constructed. -/
structure Constructed (a : Args α) (m : ℕ) (g : Shared α) : Prop where
  before : ∀ j < m, ∃ first last e, g.threads[j]? = some (.joinable first last e)
  after : ∀ j, m ≤ j → j + 1 < a.threadCount → g.threads[j]? = some .empty

/-- The first `m` workers are joined, the others constructed and not joined. -/
structure Joined (a : Args α) (m : ℕ) (g : Shared α) : Prop where
  before : ∀ j < m, j + 1 < a.threadCount → g.threads[j]? = some .joined
  after : ∀ j, m ≤ j → j + 1 < a.threadCount →
    ∃ first last e, g.threads[j]? = some (.joinable first last e)

/-- The assertion of the calling thread. -/
def CallerAssertion (a : Args α) (g : Shared α) : Point α → Prop
  | .loop i blockStart => i.toNat < a.threadCount ∧ blockStart = i.toNat * a.size ∧
      g.results[a.threadCount - 1]? = some 0 ∧ Constructed a i.toNat g
  | .construct i blockStart blockEnd => i.toNat + 1 < a.threadCount ∧
      blockStart = i.toNat * a.size ∧ blockEnd = (i.toNat + 1) * a.size ∧
      g.results[a.threadCount - 1]? = some 0 ∧ Constructed a i.toNat g
  | .enterBlock first last slot => 0 < a.threadCount ∧ g.results[a.threadCount - 1]? = some 0 ∧
      Constructed a (a.threadCount - 1) g ∧
      InBlock a (a.threadCount - 1) (.enterBlock first last slot)
  | .accumulate it last slot acc => 0 < a.threadCount ∧ g.results[a.threadCount - 1]? = some 0 ∧
      Constructed a (a.threadCount - 1) g ∧
      InBlock a (a.threadCount - 1) (.accumulate it last slot acc)
  | .join entry => 0 < a.threadCount ∧
      g.results[a.threadCount - 1]? = some (a.blockSum (a.threadCount - 1)) ∧ Joined a entry g
  | .fold => 0 < a.threadCount ∧
      g.results[a.threadCount - 1]? = some (a.blockSum (a.threadCount - 1)) ∧
      Joined a (a.threadCount - 1) g
  | .destroy (some value) => value = a.total ∧ Joined a (a.threadCount - 1) g
  | .returned value => value = a.total
  | .destroy none | .thrown => True
  | _ => False

/-- The assertion of a thread. -/
def Assertion (a : Args α) : Option ℕ → Shared α → Point α → Prop
  | none => CallerAssertion a
  | some i => WorkerAssertion a i

/-- What the thread of block `i` relies on: its slot is left alone, and its `std::thread` object is
constructed once, and joined when its function has ended. -/
structure WorkerRely (a : Args α) (i : ℕ) (g g' : Shared α) : Prop where
  results : i + 1 < a.threadCount → g'.results[i]? = g.results[i]?
  threads : g'.threads[i]? = g.threads[i]? ∨
    (g.threads[i]? = some .empty ∧
      ∃ first last, g'.threads[i]? = some (.joinable first last false)) ∨
    ((∃ first last, g.threads[i]? = some (.joinable first last true)) ∧
      g'.threads[i]? = some .joined)

/-- What the calling thread relies on: its slot is left alone, and joinable threads stay so. -/
structure CallerRely (a : Args α) (g g' : Shared α) : Prop where
  results : g'.results[a.threadCount - 1]? = g.results[a.threadCount - 1]?
  threads : ∀ j : ℕ, g'.threads[j]? = g.threads[j]? ∨ ∃ first last,
    (∃ e, g.threads[j]? = some (.joinable first last e)) ∧
    g'.threads[j]? = some (.joinable first last true)

/-- What a thread relies on. -/
def Rely (a : Args α) : Option ℕ → Shared α → Shared α → Prop
  | none => CallerRely a
  | some i => WorkerRely a i

variable {a : Args α} {g g' : Shared α} {p p' : Point α} {i m : ℕ}

omit [Add α] [Zero α] in
theorem Running.congr (h : Running a i g) (hr : WorkerRely a i g g') : Running a i g' := by
  refine ⟨h.1, ?_⟩
  rcases hr.threads with he | ⟨he, -⟩ | ⟨⟨first, last, he⟩, -⟩
  · rw [he]
    exact h.2
  · rw [h.2] at he
    simp at he
  · rw [h.2] at he
    simp at he

theorem WorkerAssertion.stable (h : WorkerAssertion a i g p) (hr : WorkerRely a i g g') :
    WorkerAssertion a i g' p := by
  cases p with
  | notStarted =>
    obtain ⟨hfresh, hzero⟩ := h
    refine ⟨fun hd hhd => ?_, fun hi => (hr.results hi).trans (hzero hi)⟩
    rcases hr.threads with he | ⟨-, first, last, he⟩ | ⟨⟨first, last, he⟩, -⟩
    · exact hfresh hd (he.symm.trans hhd)
    · rw [he] at hhd
      cases hhd
      exact id
    · exact absurd trivial (hfresh _ he)
  | enterBlock first last slot | accumulate it last slot acc =>
    exact ⟨h.1.congr hr, (hr.results h.1.1).trans h.2.1, h.2.2⟩
  | exit => exact ⟨h.1.congr hr, (hr.results h.1.1).trans h.2⟩
  | exited =>
    obtain ⟨hd, hhd, hex⟩ := h
    rcases hr.threads with he | ⟨he, -⟩ | ⟨-, he⟩
    · exact ⟨hd, he.trans hhd, hex⟩
    · rw [he] at hhd
      cases hhd
      exact hex.elim
    · exact ⟨.joined, he, trivial⟩
  | _ => exact h

omit [Add α] [Zero α] in
theorem Constructed.congr (h : Constructed a m g) (hr : CallerRely a g g') :
    Constructed a m g' where
  before j hj := by
    obtain ⟨first, last, e, he⟩ := h.before j hj
    rcases hr.threads j with hs | ⟨first', last', -, hs⟩
    · exact ⟨first, last, e, hs.trans he⟩
    · exact ⟨first', last', true, hs⟩
  after j hm hj := by
    have he := h.after j hm hj
    rcases hr.threads j with hs | ⟨first, last, ⟨e, hs⟩, -⟩
    · exact hs.trans he
    · rw [he] at hs
      simp at hs

omit [Add α] [Zero α] in
theorem Joined.congr (h : Joined a m g) (hr : CallerRely a g g') : Joined a m g' where
  before j hm hj := by
    have he := h.before j hm hj
    rcases hr.threads j with hs | ⟨first, last, ⟨e, hs⟩, -⟩
    · exact hs.trans he
    · rw [he] at hs
      simp at hs
  after j hm hj := by
    obtain ⟨first, last, e, he⟩ := h.after j hm hj
    rcases hr.threads j with hs | ⟨first', last', -, hs⟩
    · exact ⟨first, last, e, hs.trans he⟩
    · exact ⟨first', last', true, hs⟩

theorem CallerAssertion.stable (h : CallerAssertion a g p) (hr : CallerRely a g g') :
    CallerAssertion a g' p := by
  cases p with
  | loop i blockStart =>
    obtain ⟨hi, hs, hz, hc⟩ := h
    exact ⟨hi, hs, hr.results.trans hz, hc.congr hr⟩
  | construct i blockStart blockEnd =>
    obtain ⟨hi, hs, he, hz, hc⟩ := h
    exact ⟨hi, hs, he, hr.results.trans hz, hc.congr hr⟩
  | enterBlock first last slot | accumulate it last slot acc =>
    obtain ⟨hpos, hz, hc, hb⟩ := h
    exact ⟨hpos, hr.results.trans hz, hc.congr hr, hb⟩
  | join entry | fold =>
    obtain ⟨hpos, hz, hj⟩ := h
    exact ⟨hpos, hr.results.trans hz, hj.congr hr⟩
  | destroy result =>
    cases result with
    | none => exact trivial
    | some value => exact ⟨h.1, h.2.congr hr⟩
  | _ => exact h

theorem Assertion.stable {t : Option ℕ} (h : Assertion a t g p) (hr : Rely a t g g') :
    Assertion a t g' p := by
  cases t with
  | none => exact CallerAssertion.stable h hr
  | some i => exact WorkerAssertion.stable h hr

/-! ### `accumulate_block` -/

/-- The block is not empty, so there is an element until the end is reached. -/
theorem InBlock.getElem?_ne_none {it last slot : ℕ} {acc : α}
    (hlen : a.sequence.length < 2 ^ 63) (hi : i < a.threadCount)
    (h : InBlock a i (.accumulate it last slot acc)) (hne : it ≠ last) :
    a.sequence[it]? ≠ none := by
  obtain ⟨-, hlast, -, hle, -⟩ := h
  have hend := Args.blockEnd_le hlen hi
  rw [ne_eq, List.getElem?_eq_none_iff]
  omega

theorem InBlock.enters {first last slot : ℕ} (h : InBlock a i (.enterBlock first last slot))
    (hle : i * a.size ≤ a.blockEnd i) : InBlock a i (.accumulate first last slot (0 : α)) := by
  obtain ⟨hslot, hfirst, hlast⟩ := h
  refine ⟨hslot, hlast, by omega, by omega, ?_⟩
  rw [hfirst, segment_self]
  rfl

theorem InBlock.adds {it last slot : ℕ} {acc x : α} (h : InBlock a i (.accumulate it last slot acc))
    (hne : it ≠ last) (hx : a.sequence[it]? = some x) :
    InBlock a i (.accumulate (it + 1) last slot (acc + x)) := by
  obtain ⟨hslot, hlast, hfirst, hle, hacc⟩ := h
  refine ⟨hslot, hlast, by omega, by omega, ?_⟩
  rw [segment_succ hfirst hx, accumulate, List.foldl_append, hacc]
  rfl

theorem InBlock.acc_eq {last slot : ℕ} {acc : α}
    (h : InBlock a i (.accumulate last last slot acc)) : acc = a.blockSum i := by
  obtain ⟨-, hlast, -, -, hacc⟩ := h
  rw [hacc, hlast]
  rfl

/-! ### The steps of a worker -/

omit [Add α] [Zero α] in
/-- A step that leaves both vectors alone. -/
theorem Rely.of_eq {t : Option ℕ} (hres : g'.results = g.results) (hthr : g'.threads = g.threads) :
    Rely a t g g' := by
  cases t with
  | none => exact ⟨by rw [hres], fun j => .inl (by rw [hthr])⟩
  | some i => exact ⟨fun _ => by rw [hres], .inl (by rw [hthr])⟩

theorem SharedAssertion.of_eq (hS : SharedAssertion a g) (hres : g'.results = g.results)
    (hthr : g'.threads = g.threads) : SharedAssertion a g' := by
  obtain ⟨h₁, h₂, h₃, h₄⟩ := hS
  rw [← hres] at h₁ h₄
  rw [← hthr] at h₂ h₃ h₄
  exact ⟨h₁, h₂, h₃, h₄⟩

/-- A thread leaves its sum in its slot; nobody with that slot has ended before. -/
theorem SharedAssertion.store (hS : SharedAssertion a g) (acc : α)
    (hrun : ∀ h, g.threads[i]? = some h → ¬ h.hasExited) :
    SharedAssertion a { g with results := g.results.set i acc } where
  results_length := by rw [List.length_set]; exact hS.results_length
  threads_length := hS.threads_length
  joinable := hS.joinable
  exited j h hj hex := by
    have hne : i ≠ j := by
      intro he
      subst he
      exact hrun h hj hex
    rw [List.getElem?_set_ne hne]
    exact hS.exited j h hj hex

/-- One `std::thread` object has changed. -/
structure UpdatedAt (i : ℕ) (h : Handle) (threads threads' : List Handle) : Prop where
  length : threads'.length = threads.length
  get : threads'[i]? = some h
  other : ∀ j, j ≠ i → threads'[j]? = threads[j]?

theorem updatedAt_set {threads : List Handle} (h : Handle) (hi : i < threads.length) :
    UpdatedAt i h threads (threads.set i h) :=
  ⟨List.length_set, List.getElem?_set_self hi, fun _ hj => List.getElem?_set_ne hj.symm⟩

theorem updatedAt_exit {threads : List Handle} {h : Handle} (hi : threads[i]? = some h) :
    UpdatedAt i h.exit threads (threads.modify i Handle.exit) where
  length := List.length_modify _ _ _
  get := by
    rw [List.getElem?_modify_eq, hi]
    rfl
  other _ hj := List.getElem?_modify_ne _ _ hj.symm

/-- A `std::thread` object changes to one that says the truth about its block. -/
theorem SharedAssertion.update {threads : List Handle} {h : Handle} (hS : SharedAssertion a g)
    (hu : UpdatedAt i h g.threads threads)
    (hjoinable : ∀ first last e, h = .joinable first last e →
      first = i * a.size ∧ last = a.blockEnd i)
    (hexited : h.hasExited → g.results[i]? = some (a.blockSum i)) :
    SharedAssertion a { g with threads := threads } where
  results_length := hS.results_length
  threads_length := hu.length.trans hS.threads_length
  joinable j first last e hj := by
    by_cases hji : j = i
    · subst hji
      exact hjoinable first last e (Option.some.inj (hu.get.symm.trans hj))
    · exact hS.joinable j first last e ((hu.other j hji).symm.trans hj)
  exited j hd hj hex := by
    by_cases hji : j = i
    · subst hji
      obtain rfl : h = hd := Option.some.inj (hu.get.symm.trans hj)
      exact hexited hex
    · exact hS.exited j hd ((hu.other j hji).symm.trans hj) hex

omit [Add α] [Zero α] in
/-- A worker relies on a change of another one's `std::thread` object. -/
theorem UpdatedAt.workerRely {threads : List Handle} {h : Handle} {j : ℕ}
    (hu : UpdatedAt i h g.threads threads) (hj : j ≠ i) :
    WorkerRely a j g { g with threads := threads } :=
  ⟨fun _ => rfl, .inl (hu.other j hj)⟩

omit [Add α] [Zero α] in
theorem lt_of_getElem?_threads {h : Handle} (hlen : g.threads.length = a.threadCount - 1)
    (hi : g.threads[i]? = some h) : i + 1 < a.threadCount := by
  have hlt := (List.getElem?_eq_some_iff.mp hi).1
  omega

theorem WorkerAssertion.step {c : Choice} (hlen : a.sequence.length < 2 ^ 63)
    (hS : SharedAssertion a g) (h : WorkerAssertion a i g p) (hstep : Step a g (some i) c p g' p') :
    SharedAssertion a g' ∧ WorkerAssertion a i g' p' ∧ ∀ u, u ≠ some i → Rely a u g g' := by
  cases hstep with
  | @starts _ first last hi =>
    have hlt := lt_of_getElem?_threads hS.threads_length hi
    obtain ⟨rfl, rfl⟩ := hS.joinable i first last false hi
    exact ⟨hS, ⟨⟨hlt, hi⟩, h.2 hlt, rfl, rfl, rfl⟩, fun u _ => .of_eq rfl rfl⟩
  | exits =>
    obtain ⟨⟨hlt, hi⟩, hsum⟩ := h
    have hup := updatedAt_exit hi
    refine ⟨hS.update hup ?_ fun _ => hsum, ⟨_, hup.get, trivial⟩, fun u hu => ?_⟩
    · intro first last e he
      cases he
      exact ⟨rfl, rfl⟩
    · cases u with
      | none =>
        refine ⟨rfl, fun j => ?_⟩
        by_cases hji : j = i
        · subst hji
          exact .inr ⟨_, _, ⟨false, hi⟩, hup.get⟩
        · exact .inl (hup.other j hji)
      | some j => exact hup.workerRely fun he => hu (by rw [he])
  | workerThrows => exact ⟨hS.of_eq rfl rfl, h, fun u _ => .of_eq rfl rfl⟩
  | @enters _ first last slot result hr =>
    obtain ⟨hrun, hzero, hblock⟩ := h
    have hslot : slot = i := hblock.1
    subst hslot
    obtain rfl : result = 0 := Option.some.inj (hr.symm.trans hzero)
    have hle := Nat.le_of_lt (Args.start_lt_blockEnd hlen (Nat.lt_of_succ_lt hrun.1))
    exact ⟨hS, ⟨hrun, hzero, hblock.enters hle⟩, fun u _ => .of_eq rfl rfl⟩
  | adds hne hx =>
    obtain ⟨hrun, hzero, hblock⟩ := h
    exact ⟨hS, ⟨hrun, hzero, hblock.adds hne hx⟩, fun u _ => .of_eq rfl rfl⟩
  | @stores _ last slot acc =>
    obtain ⟨hrun, hzero, hblock⟩ := h
    have hslot : slot = i := hblock.1
    subst hslot
    have hacc := hblock.acc_eq
    have hlt : slot < g.results.length := by
      rw [hS.results_length]
      exact Nat.lt_of_succ_lt hrun.1
    refine ⟨hS.store acc fun hd hhd => ?_, ⟨hrun, ?_⟩, fun u hu => ?_⟩
    · rw [hrun.2] at hhd
      cases hhd
      exact id
    · rw [List.getElem?_set_self hlt, hacc]
    · have hrunning := hrun.1
      cases u with
      | none => exact ⟨List.getElem?_set_ne (by omega), fun j => .inl rfl⟩
      | some j =>
        have hji : slot ≠ j := fun he => hu (by rw [he])
        exact ⟨fun _ => List.getElem?_set_ne hji, .inl rfl⟩
  | @undefinedSlot _ first last slot hr =>
    obtain ⟨-, hzero, hblock⟩ := h
    have hslot : slot = i := hblock.1
    subst hslot
    rw [hzero] at hr
    exact nomatch hr
  | undefinedElement hne hx =>
    obtain ⟨hrun, -, hblock⟩ := h
    exact absurd hx (hblock.getElem?_ne_none hlen (Nat.lt_of_succ_lt hrun.1) hne)

/-! ### The steps of the calling thread -/

/-- When all workers are joined, `results` holds the sums of the blocks. -/
theorem results_eq (hS : SharedAssertion a g) (hpos : 0 < a.threadCount)
    (hlast : g.results[a.threadCount - 1]? = some (a.blockSum (a.threadCount - 1)))
    (hj : Joined a (a.threadCount - 1) g) :
    g.results = (List.range a.threadCount).map a.blockSum := by
  apply List.ext_getElem?
  intro i
  rw [List.getElem?_map]
  by_cases hi : i < a.threadCount
  · rw [List.getElem?_range hi, Option.map_some]
    by_cases hw : i + 1 < a.threadCount
    · exact hS.exited i .joined (hj.before i (by omega) hw) trivial
    · rw [show i = a.threadCount - 1 by omega]
      exact hlast
  · have hres : g.results.length ≤ i := by
      rw [hS.results_length]
      omega
    have hrange : (List.range a.threadCount).length ≤ i := by
      rw [List.length_range]
      omega
    rw [List.getElem?_eq_none_iff.mpr hres, List.getElem?_eq_none_iff.mpr hrange]
    rfl

/-- A worker is constructed. -/
theorem CallerAssertion.constructs {i : UInt64} {blockStart blockEnd : ℕ}
    (hS : SharedAssertion a g)
    (h : CallerAssertion a g (.construct i blockStart blockEnd)) :
    let g' := { g with threads := g.threads.set i.toNat (.joinable blockStart blockEnd false) }
    SharedAssertion a g' ∧ CallerAssertion a g' (.loop (i + 1) blockEnd) ∧
      ∀ u, u ≠ none → Rely a u g g' := by
  obtain ⟨hlt, hs, he, hz, hc⟩ := h
  have hempty : g.threads[i.toNat]? = some .empty := hc.after i.toNat (Nat.le_refl _) hlt
  have hup := updatedAt_set (.joinable blockStart blockEnd false)
    (List.getElem?_eq_some_iff.mp hempty).1
  have hsucc : (i + 1).toNat = i.toNat + 1 :=
    Args.toNat_succ (n := a.numThreads) (Nat.lt_of_succ_lt hlt)
  refine ⟨hS.update hup ?_ fun hex => hex.elim, ⟨?_, ?_, hz, fun j hj => ?_, fun j hm hj => ?_⟩,
    fun u hu => ?_⟩
  · intro first last e hj
    cases hj
    rw [Args.blockEnd_of_worker hlt]
    exact ⟨hs, he⟩
  · rw [hsucc]
    exact hlt
  · rw [hsucc]
    exact he
  · by_cases hji : j = i.toNat
    · subst hji
      exact ⟨_, _, _, hup.get⟩
    · obtain ⟨first, last, e, hold⟩ := hc.before j (by omega)
      exact ⟨first, last, e, (hup.other j hji).trans hold⟩
  · rw [hsucc] at hm
    exact (hup.other j (by omega)).trans (hc.after j (by omega) hj)
  · cases u with
    | none => exact absurd rfl hu
    | some j =>
      by_cases hji : j = i.toNat
      · subst hji
        exact ⟨fun _ => rfl, .inr (.inl ⟨hempty, _, _, hup.get⟩)⟩
      · exact hup.workerRely hji

/-- A worker that has ended is joined. -/
theorem CallerAssertion.joins {entry first last : ℕ} (hS : SharedAssertion a g)
    (h : CallerAssertion a g (.join entry))
    (hentry : g.threads[entry]? = some (.joinable first last true)) :
    let g' := { g with threads := g.threads.set entry .joined }
    SharedAssertion a g' ∧ CallerAssertion a g' (.join (entry + 1)) ∧
      ∀ u, u ≠ none → Rely a u g g' := by
  obtain ⟨hpos, hsum, hj⟩ := h
  have hup := updatedAt_set .joined (List.getElem?_eq_some_iff.mp hentry).1
  refine ⟨hS.update hup nofun fun _ => hS.exited entry _ hentry trivial,
    ⟨hpos, hsum, fun j hm hlt => ?_, fun j hm hlt => ?_⟩, fun u hu => ?_⟩
  · by_cases hje : j = entry
    · subst hje
      exact hup.get
    · exact (hup.other j hje).trans (hj.before j (by omega) hlt)
  · obtain ⟨first', last', e, hold⟩ := hj.after j (by omega) hlt
    exact ⟨first', last', e, (hup.other j (by omega)).trans hold⟩
  · cases u with
    | none => exact absurd rfl hu
    | some j =>
      by_cases hje : j = entry
      · subst hje
        exact ⟨fun _ => rfl, .inr (.inr ⟨⟨first, last, hentry⟩, hup.get⟩)⟩
      · exact hup.workerRely hje

theorem CallerAssertion.step {c : Choice} (hlen : a.sequence.length < 2 ^ 63)
    (hS : SharedAssertion a g) (h : CallerAssertion a g p) (hstep : Step a g none c p g' p') :
    SharedAssertion a g' ∧ CallerAssertion a g' p' ∧ ∀ u, u ≠ none → Rely a u g g' := by
  cases hstep with
  | @loops i blockStart hi =>
    obtain ⟨hlt, hs, hz, hc⟩ := h
    have hi' := UInt64.lt_iff_toNat_lt.mp hi
    rw [Args.toNat_numThreads_sub_one (Nat.zero_lt_of_lt hlt)] at hi'
    refine ⟨hS, ⟨by omega, hs, ?_, hz, hc⟩, fun u _ => .of_eq rfl rfl⟩
    rw [hs, Nat.add_mul, Nat.one_mul]
    rfl
  | @leavesLoop i blockStart hi =>
    obtain ⟨hlt, hs, hz, hc⟩ := h
    have hpos : 0 < a.threadCount := Nat.zero_lt_of_lt hlt
    have hi' := UInt64.le_iff_toNat_le.mp (UInt64.not_lt.mp hi)
    rw [Args.toNat_numThreads_sub_one hpos] at hi'
    have hlast : i.toNat = a.threadCount - 1 := by omega
    rw [hlast] at hs hc
    refine ⟨hS, ⟨hpos, hz, hc, ?_, hs, Args.blockEnd_last.symm⟩, fun u _ => .of_eq rfl rfl⟩
    exact Args.toNat_numThreads_sub_one hpos
  | constructs => exact h.constructs hS
  | throws | joinThrows _ _ => exact ⟨hS, trivial, fun u _ => .of_eq rfl rfl⟩
  | @enters _ first last slot result hr =>
    obtain ⟨hpos, hz, hc, hblock⟩ := h
    have hslot : slot = a.threadCount - 1 := hblock.1
    rw [hslot, hz] at hr
    cases hr
    have hle := Nat.le_of_lt (Args.start_lt_blockEnd hlen (Nat.sub_lt hpos Nat.one_pos))
    exact ⟨hS, ⟨hpos, hz, hc, hblock.enters hle⟩, fun u _ => .of_eq rfl rfl⟩
  | adds hne hx =>
    obtain ⟨hpos, hz, hc, hblock⟩ := h
    exact ⟨hS, ⟨hpos, hz, hc, hblock.adds hne hx⟩, fun u _ => .of_eq rfl rfl⟩
  | @stores _ last slot acc =>
    obtain ⟨hpos, hz, hc, hblock⟩ := h
    have hslot : slot = a.threadCount - 1 := hblock.1
    subst hslot
    have hacc := hblock.acc_eq
    have hnone : ∀ hd, g.threads[a.threadCount - 1]? = some hd → ¬ hd.hasExited := by
      intro hd hhd
      have hlt := lt_of_getElem?_threads hS.threads_length hhd
      omega
    have hlt : a.threadCount - 1 < g.results.length := by
      rw [hS.results_length]
      omega
    refine ⟨hS.store acc hnone, ⟨hpos, ?_, ?_, fun j _ hj => hc.before j (by omega)⟩,
      fun u hu => ?_⟩
    · rw [List.getElem?_set_self hlt, hacc]
    · intro j hj
      exact absurd hj (Nat.not_lt_zero j)
    · cases u with
      | none => exact absurd rfl hu
      | some j => exact ⟨fun hj => List.getElem?_set_ne (by omega), .inl rfl⟩
  | @undefinedSlot _ first last slot hr =>
    obtain ⟨-, hz, -, hblock⟩ := h
    have hslot : slot = a.threadCount - 1 := hblock.1
    rw [hslot, hz] at hr
    exact nomatch hr
  | undefinedElement hne hx =>
    obtain ⟨hpos, -, -, hblock⟩ := h
    exact absurd hx (hblock.getElem?_ne_none hlen (Nat.sub_lt hpos Nat.one_pos) hne)
  | joins hentry => exact h.joins hS hentry
  | @joinsAll entry hentry =>
    obtain ⟨hpos, hsum, hj⟩ := h
    have hle := List.getElem?_eq_none_iff.mp hentry
    rw [hS.threads_length] at hle
    refine ⟨hS, ⟨hpos, hsum, fun j hm hlt => hj.before j (by omega) hlt, fun j hm hlt => ?_⟩,
      fun u _ => .of_eq rfl rfl⟩
    omega
  | folds =>
    obtain ⟨hpos, hsum, hj⟩ := h
    refine ⟨hS, ⟨?_, hj⟩, fun u _ => .of_eq rfl rfl⟩
    rw [results_eq hS hpos hsum hj]
    rfl
  | terminates _ =>
    have hr : Rely a none g { g with terminated := true } := .of_eq rfl rfl
    exact ⟨hS.of_eq rfl rfl, h.stable hr, fun u _ => .of_eq rfl rfl⟩
  | returns => exact ⟨hS, h.1, fun u _ => .of_eq rfl rfl⟩
  | leaves => exact ⟨hS, trivial, fun u _ => .of_eq rfl rfl⟩

/-! ### Every run -/

theorem relyGuarantee (hlen : a.sequence.length < 2 ^ 63)
    (ok : Config (Option ℕ) (Shared α) (Point α) → Option ℕ → Choice → Prop) :
    RelyGuarantee (program a) ok (SharedAssertion a) (Assertion a) (Rely a) where
  stable _ _ _ _ hr h := Assertion.stable h hr
  step s t c g' p' hS hP _ hp := by
    have hstep := step_of_program hp
    have ht := hP t
    cases t with
    | none => exact CallerAssertion.step hlen hS ht hstep
    | some i => exact WorkerAssertion.step hlen hS ht hstep

omit [Add α] [Zero α] in
theorem length_eq_zero_iff (hlen : a.sequence.length < 2 ^ 63) :
    a.length = 0 ↔ a.sequence.length = 0 := by
  rw [← UInt64.toNat_inj, Args.toNat_length hlen]
  rfl

omit [Add α] [Zero α] in
theorem replicate_empty {m : ℕ} {h : Handle} (hi : (List.replicate m Handle.empty)[i]? = some h) :
    h = .empty :=
  List.eq_of_mem_replicate (List.mem_of_getElem? hi)

theorem initial_assertion (hlen : a.sequence.length < 2 ^ 63) :
    SharedAssertion a (initial a).shared ∧
      ∀ t, Assertion a t (initial a).shared ((initial a).locals t) := by
  unfold initial
  split
  · rename_i h
    have hnil : a.sequence.length = 0 := (length_eq_zero_iff hlen).mp h
    have hcount := Args.threadCount_le hlen
    refine ⟨⟨?_, ?_, nofun, nofun⟩, fun t => ?_⟩
    · show 0 = a.threadCount
      omega
    · show 0 = a.threadCount - 1
      omega
    · cases t with
      | none =>
        show a.init = a.total
        rw [Args.total, show a.threadCount = 0 by omega]
        rfl
      | some i => exact ⟨nofun, fun hi => by omega⟩
  · rename_i h
    have hne : a.sequence.length ≠ 0 := fun he => h ((length_eq_zero_iff hlen).mpr he)
    have hpos : 0 < a.threadCount := Args.threadCount_pos hlen (by omega)
    have hres : ∀ j, j < a.threadCount →
        (List.replicate a.numThreads.toNat (0 : α))[j]? = some 0 := by
      intro j hj
      exact List.getElem?_replicate_of_lt hj
    have hfresh : ∀ (j : ℕ) (hd : Handle),
        (List.replicate (a.numThreads - 1).toNat Handle.empty)[j]? = some hd → ¬ hd.hasExited := by
      intro j hd hj
      rw [replicate_empty hj]
      exact id
    refine ⟨⟨List.length_replicate, ?_, fun j first last e hj => ?_, fun j hd hj hex => ?_⟩,
      fun t => ?_⟩
    · rw [List.length_replicate, Args.toNat_numThreads_sub_one hpos]
    · exact nomatch replicate_empty hj
    · exact absurd hex (hfresh j hd hj)
    · cases t with
      | none =>
        refine ⟨hpos, (Nat.zero_mul _).symm, hres _ (by omega), fun j hj => ?_, fun j _ hj => ?_⟩
        · exact absurd hj (Nat.not_lt_zero j)
        · exact List.getElem?_replicate_of_lt (by
            rw [Args.toNat_numThreads_sub_one hpos]
            omega)
      | some i => exact ⟨hfresh i, fun hi => hres i (by omega)⟩

/-- **The invariant.**  In every reachable state, failures included, both vectors and all threads
satisfy their assertions. -/
theorem reachable_assertion (hlen : a.sequence.length < 2 ^ 63)
    {ok : Config (Option ℕ) (Shared α) (Point α) → Option ℕ → Choice → Prop}
    {s : Config (Option ℕ) (Shared α) (Point α)} (hs : Reachable (program a) ok (initial a) s) :
    SharedAssertion a s.shared ∧ ∀ t, Assertion a t s.shared (s.locals t) :=
  hs.rely_guarantee (relyGuarantee hlen ok) (initial_assertion hlen)

/-! ### The value -/

/-- **The final fold.**  Block by block, from `init`, is the whole sequence from `init`. -/
theorem total_eq_accumulate (hassoc : ∀ x y z : α, x + y + z = x + (y + z))
    (hzero : ∀ x : α, 0 + x = x) (hlen : a.sequence.length < 2 ^ 63) :
    a.total = accumulate a.sequence a.init := by
  by_cases hpos : 0 < a.threadCount
  · have hne : ∀ block ∈ (List.range a.threadCount).map a.block, block ≠ [] := by
      intro block hblock
      obtain ⟨i, hi, rfl⟩ := List.mem_map.mp hblock
      exact Args.block_ne_nil hlen (List.mem_range.mp hi)
    have hsums : (List.range a.threadCount).map a.blockSum =
        ((List.range a.threadCount).map a.block).map (List.foldl (· + ·) 0) := by
      rw [List.map_map]
      rfl
    rw [Args.total, hsums, accumulate, BlockFold.foldl_blocks hassoc hzero _ hne,
      Args.flatten_blocks hpos]
    rfl
  · -- no thread, no element
    have hempty : a.sequence.length = 0 := by
      by_contra hne
      exact hpos (Args.threadCount_pos hlen (Nat.pos_of_ne_zero hne))
    rw [Args.total, show a.threadCount = 0 by omega, List.length_eq_zero_iff.mp hempty]
    rfl

end ConcurrencyInAction.ParallelAccumulate
