import ConcurrencyInAction.AutoJoiningThread.Ownership

/-!
# The two assignments

A `std::thread` gets into a handle by `operator=(std::thread)`, or through a temporary handle and
the move assignment.

* `assignThread`, `assignTemporary`: the two ways, from the state in which the parameter has been
  initialized;
* `System.assigned`: the state that both of them leave behind (`assignThread_apply`,
  `assignTemporary_apply`), whatever the two operands own;
* `assignments_disagree`: only the second one yields a reference to the handle.
-/

namespace ConcurrencyInAction.AutoJoiningThread

open Exceptions

variable {H : Type} [DecidableEq H]

/-- `a = std::move(th)`. -/
def assignThread (this : H) : Prog (System H) (Option H) :=
  .inScope (StdThread.destroy .parameter) (assign this .parameter)

/-- `a = AutoJoiningThread(std::move(th))`; the temporary lives to the end of the expression. -/
def assignTemporary (this temporary : H) : Prog (System H) (Option H) := do
  .inScope (StdThread.destroy .parameter) (fromThread temporary .parameter)
  .inScope (destroy temporary) (moveAssign this temporary)

/-- Both assignments join the same thread, leave the same objects behind and yield a reference to
the handle. -/
def AssignmentsAgree (s : System H) (this temporary : H) : Prop :=
  ∃ s', assignThread this s = .returned (some this) s' ∧
    assignTemporary this temporary s = .returned (some this) s'

variable {s : System H} {this temporary : H} {t other : StdThread}

/-- The handle has given up its thread, which has been joined. -/
def System.released (s : System H) (this : H) (t : StdThread) : System H :=
  { s.put (.member this) (some none) with joined := t.toList ++ s.joined }

/-- The thread `t` of the handle has been joined, and the handle owns the thread of the parameter,
which is gone. -/
def System.assigned (s : System H) (this : H) (t other : StdThread) : System H :=
  ((s.released this t).put (.member this) (some other)).put .parameter none

theorem released_self : (s.released this t).threads (.member this) = some none :=
  put_self s _ _

theorem released_of_ne {o : Object H} (ho : o ≠ .member this) :
    (s.released this t).threads o = s.threads o := put_of_ne ho _

theorem put_eq_self {o : Object H} {t : Option StdThread} (ho : s.threads o = t) :
    s.put o t = s := by
  subst ho
  exact congrArg (fun f => ({ s with threads := f } : System H)) (Function.update_eq_self _ _)

theorem joinIfJoinable_apply (hthis : s.threads (.member this) = some t) :
    joinIfJoinable this s = .returned () (s.released this t) := by
  rw [joinIfJoinable, Prog.bind_of_returned (joinable_apply hthis)]
  cases t with
  | none =>
    show Result.returned () s = .returned () (s.put (.member this) (some none))
    rw [put_eq_self hthis]
  | some i => exact StdThread.join_apply hthis

theorem assign_apply {o : Object H} (hthis : s.threads (.member this) = some t)
    (ho : s.threads o = some other) (hne : o ≠ .member this) :
    assign this o s = .returned none
      (((s.released this t).put (.member this) (some other)).put o (some none)) := by
  rw [assign, Prog.bind_of_returned (joinIfJoinable_apply hthis)]
  exact Prog.bind_of_returned
    (StdThread.moveAssign_apply released_self ((released_of_ne hne).trans ho))

theorem moveAssign_apply (hthis : s.threads (.member this) = some t)
    (htemporary : s.threads (.member temporary) = some other) (hne : temporary ≠ this) :
    moveAssign this temporary s = .returned (some this)
      (((s.released this t).put (.member this) (some other)).put (.member temporary)
        (some none)) := by
  have hne' : Object.member temporary ≠ .member this := fun he => hne (Object.member.inj he)
  apply Prog.noexcept_of_returned
  rw [Prog.bind_of_returned (joinIfJoinable_apply hthis)]
  exact Prog.bind_of_returned
    (StdThread.moveAssign_apply released_self ((released_of_ne hne').trans htemporary))

/-- A handle without a thread is destroyed, and nothing is joined. -/
theorem destroy_apply (hthis : s.threads (.member this) = some none) :
    destroy this s = .returned () (s.put (.member this) none) := by
  refine Prog.inScope_of_returned (Prog.noexcept_of_returned (joinIfJoinable_apply hthis)) ?_
  show StdThread.destroy (.member this) (s.put (.member this) (some none)) = _
  rw [put_eq_self hthis]
  exact StdThread.destroy_apply hthis

/-- What the direct assignment does. -/
theorem assignThread_apply (hthis : s.threads (.member this) = some t)
    (hparameter : s.threads .parameter = some other) :
    assignThread this s = .returned none (s.assigned this t other) := by
  refine Prog.inScope_of_returned (assign_apply hthis hparameter nofun) ?_
  rw [StdThread.destroy_apply (put_self _ _ _), put_idem]
  rfl

/-- The parameter goes through a temporary that is destroyed: the same as if it had not been
there. -/
theorem put_temporary (hne : Object.member this ≠ .member temporary)
    (htemporary : s.threads (.member temporary) = none) :
    ((((s.put (.member temporary) (some other)).put .parameter none).released this t).put
      (.member this) (some other)).put (.member temporary) none = s.assigned this t other := by
  refine congrArg (fun f => ({ s with threads := f, joined := t.toList ++ s.joined } : System H))
    (funext fun o => ?_)
  simp only [System.put, System.released, Function.update_apply]
  by_cases htemp : o = .member temporary
  · subst htemp
    simp [htemporary, Ne.symm hne]
  · by_cases hthis : o = .member this
    · subst hthis
      simp [hne]
    · simp [htemp, hthis]

/-- The temporary takes the thread of the parameter, which is gone after the constructor. -/
theorem fromThread_apply (htemporary : s.threads (.member temporary) = none)
    (hparameter : s.threads .parameter = some other) :
    (Prog.inScope (StdThread.destroy .parameter) (fromThread temporary .parameter)) s =
      .returned () ((s.put (.member temporary) (some other)).put .parameter none) := by
  refine Prog.inScope_of_returned
    (Prog.noexcept_of_returned (StdThread.moveConstruct_apply htemporary hparameter)) ?_
  rw [StdThread.destroy_apply (put_self _ _ _), put_idem]

/-- What the assignment through a temporary does. -/
theorem assignTemporary_apply (hthis : s.threads (.member this) = some t)
    (hparameter : s.threads .parameter = some other)
    (htemporary : s.threads (.member temporary) = none) :
    assignTemporary this temporary s = .returned (some this) (s.assigned this t other) := by
  have hne : temporary ≠ this := by
    intro he
    rw [he, hthis] at htemporary
    exact nomatch htemporary
  have hne' : Object.member this ≠ .member temporary := fun he => hne (Object.member.inj he).symm
  have hmember (h : H) : Object.member h ≠ .parameter := nofun
  rw [assignTemporary, Prog.bind_of_returned (fromThread_apply htemporary hparameter)]
  have hthis' : ((s.put (.member temporary) (some other)).put .parameter none).threads
      (.member this) = some t := by
    rw [put_of_ne (hmember this), put_of_ne hne', hthis]
  have htemporary' : ((s.put (.member temporary) (some other)).put .parameter none).threads
      (.member temporary) = some other := by
    rw [put_of_ne (hmember temporary), put_self]
  refine Prog.inScope_of_returned (moveAssign_apply hthis' htemporary' hne) ?_
  rw [destroy_apply (put_self _ _ _), put_idem]
  rw [put_temporary hne' htemporary]

theorem not_agree_of_no_result {s' : System H} (h : assignThread this s = .returned none s') :
    ¬ AssignmentsAgree s this temporary := by
  intro hagree
  obtain ⟨s'', hreturned, -⟩ := hagree
  rw [h] at hreturned
  exact nomatch hreturned

/-- **The two assignments do not agree.**  They end in the same state, for all that the two operands
own, and only the one through a temporary yields a reference to the handle. -/
theorem assignments_disagree (hthis : s.threads (.member this) = some t)
    (hparameter : s.threads .parameter = some other)
    (htemporary : s.threads (.member temporary) = none) :
    ¬ AssignmentsAgree s this temporary ∧
      assignThread this s = .returned none (s.assigned this t other) ∧
      assignTemporary this temporary s = .returned (some this) (s.assigned this t other) := by
  have hdirect := assignThread_apply hthis hparameter
  exact ⟨not_agree_of_no_result hdirect, hdirect,
    assignTemporary_apply hthis hparameter htemporary⟩

/-- A running handle is assigned a thread that is running too. -/
def bothRunning : System Bool where
  threads
    | .member false => some (some 0)
    | .member true => none
    | .parameter => some (some 1)
  started := 2
  joined := []
  detached := []

theorem assignments_disagree_bothRunning : ¬ AssignmentsAgree bothRunning false true ∧
    assignThread false bothRunning = .returned none (bothRunning.assigned false (some 0) (some 1)) ∧
    assignTemporary false true bothRunning =
      .returned (some false) (bothRunning.assigned false (some 0) (some 1)) :=
  assignments_disagree rfl rfl rfl

/-- The direct assignment to a running handle yields nothing. -/
theorem not_agree_bothRunning : ¬ AssignmentsAgree bothRunning false true := by
  have hdirect : assignThread false bothRunning =
      .returned none (bothRunning.assigned false (some 0) (some 1)) := assignThread_apply rfl rfl
  exact not_agree_of_no_result hdirect

end ConcurrencyInAction.AutoJoiningThread
