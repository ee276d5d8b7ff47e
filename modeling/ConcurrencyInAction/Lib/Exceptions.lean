import Mathlib.Logic.Basic

/-!
# Programs that throw

A program over a state returns a value, throws, or stops altogether: it calls `std::terminate`, or
its behaviour is undefined.

* `Prog S A`: the programs, a monad; `noexcept`, `inScope` (a destructor that runs however the
  body ends) and `onThrow` (a handler that throws again);
* `Triple P x Q E`: from a state in `P` the program `x` does not stop; it returns into `Q` or throws
  into `E`;
* the rules: `Triple.conseq`, `Triple.post`, `Triple.of_never`, `Triple.assuming`, `Triple.pure`,
  `Triple.throwing`, `Triple.bind`, `Triple.noexcept`, `Triple.inScope`, `Triple.onThrow`.
-/

namespace Exceptions

universe u

variable {S : Type u} {A B : Type}

/-- Why a program stops for good. -/
inductive Stop where
  | terminate
  | undefinedBehaviour
  deriving DecidableEq

/-- How a program ends. -/
inductive Result (S : Type u) (A : Type) where
  | returned (a : A) (s : S)
  | threw (what : String) (s : S)
  | stopped (why : Stop)

namespace Result

/-- The state in which the caller goes on, after a return or in a handler. -/
def after : Result S A → Option S
  | .returned _ s => some s
  | .threw _ s => some s
  | .stopped _ => none

/-- The program has not stopped, and has ended as `Q` and `E` say. -/
def Satisfies (Q : A → S → Prop) (E : String → S → Prop) : Result S A → Prop
  | .returned a s => Q a s
  | .threw what s => E what s
  | .stopped _ => False

theorem Satisfies.imp {Q Q' : A → S → Prop} {E E' : String → S → Prop} {r : Result S A}
    (h : r.Satisfies Q E) (hQ : ∀ a s, Q a s → Q' a s) (hE : ∀ what s, E what s → E' what s) :
    r.Satisfies Q' E' := by
  cases r with
  | returned a s => exact hQ a s h
  | threw what s => exact hE what s h
  | stopped why => exact h

end Result

/-- A program over the state `S` with a result in `A`. -/
def Prog (S : Type u) (A : Type) : Type u := S → Result S A

namespace Prog

/-- One program after the other; an exception skips the second one. -/
def seq (x : Prog S A) (f : A → Prog S B) : Prog S B := fun s =>
  match x s with
  | .returned a s' => f a s'
  | .threw what s' => .threw what s'
  | .stopped why => .stopped why

instance : Monad (Prog S) where
  pure a := fun s => .returned a s
  bind := seq

theorem bind_of_returned {x : Prog S A} {f : A → Prog S B} {s s' : S} {a : A}
    (h : x s = .returned a s') : (x >>= f) s = f a s' := by
  show x.seq f s = f a s'
  rw [seq, h]

theorem bind_of_threw {x : Prog S A} {f : A → Prog S B} {s s' : S} {what : String}
    (h : x s = .threw what s') : (x >>= f) s = .threw what s' := by
  show x.seq f s = .threw what s'
  rw [seq, h]

theorem bind_of_stopped {x : Prog S A} {f : A → Prog S B} {s : S} {why : Stop}
    (h : x s = .stopped why) : (x >>= f) s = .stopped why := by
  show x.seq f s = .stopped why
  rw [seq, h]

theorem bind_assoc {C : Type} (x : Prog S A) (f : A → Prog S B) (h : B → Prog S C) :
    x >>= f >>= h = x >>= fun a => f a >>= h := by
  funext s
  show (x.seq f).seq h s = x.seq (fun a => (f a).seq h) s
  unfold seq
  cases x s <;> rfl

/-- `throw`. -/
def throwing (what : String) : Prog S A := fun s => .threw what s

/-- Stop for good. -/
def stop (why : Stop) : Prog S A := fun _ => .stopped why

/-- Go on with another state. -/
def modify (f : S → S) : Prog S Unit := fun s => .returned () (f s)

/-- A function declared `noexcept`. -/
def noexcept (x : Prog S A) : Prog S A := fun s =>
  match x s with
  | .threw _ _ => .stopped .terminate
  | r => r

/-- `body` in the scope of an object whose destructor is `leave`. -/
def inScope (leave : Prog S Unit) (body : Prog S A) : Prog S A := fun s =>
  match body s with
  | .returned a s' => (leave.noexcept.seq fun _ s'' => .returned a s'') s'
  | .threw what s' => (leave.noexcept.seq fun _ => throwing what) s'
  | .stopped why => .stopped why

/-- `body` with a handler that catches every exception and throws it again. -/
def onThrow (handler : Prog S Unit) (body : Prog S A) : Prog S A := fun s =>
  match body s with
  | .threw what s' => (handler.seq fun _ => throwing what) s'
  | r => r

theorem noexcept_of_returned {x : Prog S A} {s s' : S} {a : A} (h : x s = .returned a s') :
    x.noexcept s = .returned a s' := by
  rw [noexcept, h]

/-- The destructor runs after a body that has returned. -/
theorem inScope_of_returned {leave : Prog S Unit} {body : Prog S A} {s s₁ s' : S} {a : A}
    (hbody : body s = .returned a s₁) (hleave : leave s₁ = .returned () s') :
    inScope leave body s = .returned a s' := by
  rw [inScope, hbody]
  exact bind_of_returned (noexcept_of_returned hleave)

/-- The destructor runs while an exception is on its way. -/
theorem inScope_of_threw {leave : Prog S Unit} {body : Prog S A} {s s₁ s' : S} {what : String}
    (hbody : body s = .threw what s₁) (hleave : leave s₁ = .returned () s') :
    inScope leave body s = .threw what s' := by
  rw [inScope, hbody]
  exact bind_of_returned (noexcept_of_returned hleave)

theorem inScope_of_stopped {leave : Prog S Unit} {body : Prog S A} {s : S} {why : Stop}
    (hbody : body s = .stopped why) : inScope leave body s = .stopped why := by
  rw [inScope, hbody]

/-- A destructor that stops the program stops it however the body has ended. -/
theorem inScope_of_leave_stopped {leave : Prog S Unit} {body : Prog S A} {s s₁ : S} {why : Stop}
    (hbody : (body s).after = some s₁) (hleave : leave s₁ = .stopped why) :
    inScope leave body s = .stopped why := by
  have hstops : leave.noexcept s₁ = .stopped why := by
    rw [noexcept, hleave]
  unfold inScope
  cases hx : body s with
  | returned a s' =>
    rw [hx] at hbody
    cases hbody
    exact bind_of_stopped hstops
  | threw what s' =>
    rw [hx] at hbody
    cases hbody
    exact bind_of_stopped hstops
  | stopped why' =>
    rw [hx] at hbody
    exact nomatch hbody

theorem onThrow_of_returned {handler : Prog S Unit} {body : Prog S A} {s s' : S} {a : A}
    (hbody : body s = .returned a s') : onThrow handler body s = .returned a s' := by
  rw [onThrow, hbody]

theorem onThrow_of_threw {handler : Prog S Unit} {body : Prog S A} {s s₁ : S} {what : String}
    (hbody : body s = .threw what s₁) :
    onThrow handler body s = (handler >>= fun _ => throwing what) s₁ := by
  rw [onThrow, hbody]
  rfl

theorem onThrow_of_stopped {handler : Prog S Unit} {body : Prog S A} {s : S} {why : Stop}
    (hbody : body s = .stopped why) : onThrow handler body s = .stopped why := by
  rw [onThrow, hbody]

end Prog

/-- From a state in `P` the program returns into `Q` or throws into `E`. -/
def Triple (P : S → Prop) (x : Prog S A) (Q : A → S → Prop) (E : String → S → Prop) : Prop :=
  ∀ s, P s → (x s).Satisfies Q E

/-- No exception. -/
abbrev never : String → S → Prop := fun _ _ => False

namespace Triple

variable {P : S → Prop} {Q Q' : A → S → Prop} {E E' : String → S → Prop} {x : Prog S A}

/-- Weaker conditions on the result and on the exceptions. -/
theorem conseq (h : Triple P x Q E) (hQ : ∀ a s, Q a s → Q' a s)
    (hE : ∀ what s, E what s → E' what s) : Triple P x Q' E' :=
  fun s hs => (h s hs).imp hQ hE

/-- A weaker condition on the result. -/
theorem post (h : Triple P x Q E) (hQ : ∀ a s, Q a s → Q' a s) : Triple P x Q' E :=
  h.conseq hQ (fun _ _ he => he)

/-- A program that does not throw meets any condition on exceptions. -/
theorem of_never (h : Triple P x Q never) : Triple P x Q E :=
  h.conseq (fun _ _ hq => hq) (fun _ _ he => he.elim)

/-- A fact that does not speak of the state is an assumption. -/
theorem assuming {p : Prop} (h : p → Triple P x Q E) : Triple (fun s => p ∧ P s) x Q E :=
  fun s hs => h hs.1 s hs.2

theorem pure (a : A) : Triple (Q a) (Pure.pure a : Prog S A) Q E := fun _ hs => hs

theorem throwing (what : String) : Triple (E what) (Prog.throwing what : Prog S A) Q E :=
  fun _ hs => hs

theorem bind {f : A → Prog S B} {R : B → S → Prop} (hx : Triple P x Q E)
    (hf : ∀ a, Triple (Q a) (f a) R E) : Triple P (x >>= f) R E := by
  intro s hs
  have h := hx s hs
  show (x.seq f s).Satisfies R E
  unfold Prog.seq
  cases hr : x s with
  | returned a s' =>
    rw [hr] at h
    exact hf a s' h
  | threw what s' =>
    rw [hr] at h
    exact h
  | stopped why =>
    rw [hr] at h
    exact h.elim

/-- What does not throw may be declared `noexcept`. -/
theorem noexcept (h : Triple P x Q never) : Triple P x.noexcept Q E := by
  intro s hs
  have hr := h s hs
  unfold Prog.noexcept
  cases hx : x s with
  | returned a s' =>
    rw [hx] at hr
    exact hr
  | threw what s' =>
    rw [hx] at hr
    exact hr.elim
  | stopped why =>
    rw [hx] at hr
    exact hr.elim

/-- The destructor runs after the body, whether the body has returned or thrown. -/
theorem inScope {leave : Prog S Unit} {Q' : A → S → Prop} {E' : String → S → Prop}
    (hbody : Triple P x Q E) (hreturn : ∀ a, Triple (Q a) leave (fun _ => Q' a) never)
    (hthrow : ∀ what, Triple (E what) leave (fun _ => E' what) never) :
    Triple P (Prog.inScope leave x) Q' E' := by
  intro s hs
  have h := hbody s hs
  unfold Prog.inScope
  cases hx : x s with
  | returned a s' =>
    rw [hx] at h
    have hleave : Triple (Q a) leave.noexcept (fun _ => Q' a) E' := (hreturn a).noexcept
    exact hleave.bind (f := fun _ => (Pure.pure a : Prog S A)) (R := Q') (fun _ => .pure a) s' h
  | threw what s' =>
    rw [hx] at h
    have hleave : Triple (E what) leave.noexcept (fun _ => E' what) E' := (hthrow what).noexcept
    exact hleave.bind (f := fun _ => Prog.throwing what) (R := Q') (fun _ => .throwing what) s' h
  | stopped why =>
    rw [hx] at h
    exact h.elim

/-- The handler runs after a body that has thrown, and may throw in its turn. -/
theorem onThrow {handler : Prog S Unit} (hbody : Triple P x Q E)
    (hthrow : ∀ what, Triple (E what) handler (fun _ => E' what) E') :
    Triple P (Prog.onThrow handler x) Q E' := by
  intro s hs
  have h := hbody s hs
  unfold Prog.onThrow
  cases hx : x s with
  | returned a s' =>
    rw [hx] at h
    exact h
  | threw what s' =>
    rw [hx] at h
    exact (hthrow what).bind (f := fun _ => Prog.throwing what) (R := Q) (fun _ => .throwing what)
      s' h
  | stopped why =>
    rw [hx] at h
    exact h.elim

end Triple

end Exceptions
