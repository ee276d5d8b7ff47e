import ConcurrencyInAction.Lib.Interleaving
import ConcurrencyInAction.Lib.Mutex

/-!
# Critical regions

A mutex guards a resource: only the thread that holds it changes the resource, and whoever releases
it restores the resource's invariant.

* `CriticalRegion`: the mutex, the resource, its invariant, and what a thread inside the region
  knows at each point;
* `Free`, `Assertion`, `Rely`: the assertions of the rely/guarantee rule that belong to a region;
* `Move`: the four kinds of steps (outside the region, entering it, inside it, leaving it) with
  what each has to establish;
* `Move.keeps`: **the rule of critical regions**; `relyGuarantee`: the rule for a whole program.
-/

open Interleaving ExclusiveLock

variable {T C G L R : Type*}

/-- A mutex by its holder, the resource it guards, the states of a thread that holds it, the
invariant of the resource, and what a thread that holds the mutex knows of the resource. -/
structure CriticalRegion (T G L R : Type*) where
  owner : G → Mutex T
  resource : G → R
  Inside : L → Prop
  Invariant : R → Prop
  Known : L → R → Prop

namespace CriticalRegion

variable (γ : CriticalRegion T G L R)

/-- While nobody is inside, the invariant holds. -/
def Free (g : G) : Prop := γ.owner g = none → γ.Invariant (γ.resource g)

/-- A thread holds the mutex exactly inside the region, and then knows what it should. -/
structure Assertion (t : T) (g : G) (l : L) : Prop where
  owns : γ.owner g = some t ↔ γ.Inside l
  known : γ.Inside l → γ.Known l (γ.resource g)

/-- Other threads neither take nor release the mutex of `u`, and leave the resource alone while `u`
is inside. -/
structure Rely (u : T) (g g' : G) : Prop where
  owns : γ.owner g' = some u ↔ γ.owner g = some u
  resource : γ.owner g = some u → γ.resource g' = γ.resource g

/-- What a step of thread `t` does, as far as the region is concerned. -/
inductive Move (t : T) (g : G) (l : L) (g' : G) (l' : L) : Prop
  | outside (howner : γ.owner g' = γ.owner g) (hres : γ.resource g' = γ.resource g)
      (hl : ¬ γ.Inside l) (hl' : ¬ γ.Inside l')
  | enter (hfree : γ.owner g = none) (howner : γ.owner g' = some t)
      (hres : γ.resource g' = γ.resource g) (hl' : γ.Inside l')
      (hknown : γ.Invariant (γ.resource g) → γ.Known l' (γ.resource g))
  | inside (howner : γ.owner g' = γ.owner g) (hl : γ.Inside l) (hl' : γ.Inside l')
      (hknown : γ.Known l (γ.resource g) → γ.Known l' (γ.resource g'))
  | leave (howner : γ.owner g' = none) (hl : γ.Inside l) (hl' : ¬ γ.Inside l')
      (hinv : γ.Known l (γ.resource g) → γ.Invariant (γ.resource g'))

variable {γ} {t u : T} {g g' : G} {l l' : L}

theorem Assertion.stable (h : γ.Assertion u g l) (hr : γ.Rely u g g') : γ.Assertion u g' l where
  owns := hr.owns.trans h.owns
  known hl := by
    rw [hr.resource (h.owns.mpr hl)]
    exact h.known hl

/-- A step of the holder that keeps or releases the mutex. -/
theorem Rely.of_owner (hown : γ.owner g = some t) (hu : u ≠ t)
    (hown' : γ.owner g' = some t ∨ γ.owner g' = none) : γ.Rely u g g' := by
  have hne : γ.owner g ≠ some u := by
    rw [hown]
    exact fun he => hu (Option.some.inj he).symm
  have hne' : γ.owner g' ≠ some u := by
    rcases hown' with he | he
    · rw [he]
      exact fun hs => hu (Option.some.inj hs).symm
    · rw [he]
      exact nofun
  exact ⟨iff_of_false hne' hne, fun he => absurd he hne⟩

/-- **The rule of critical regions.**  Every move keeps the assertion of the region and that of its
thread, and the other threads rely on it. -/
theorem Move.keeps (hfree : γ.Free g) (h : γ.Assertion t g l) (hm : γ.Move t g l g' l') :
    γ.Free g' ∧ γ.Assertion t g' l' ∧ ∀ u, u ≠ t → γ.Rely u g g' := by
  cases hm with
  | outside howner hres hl hl' =>
    refine ⟨fun hn => ?_, ⟨?_, fun hin => absurd hin hl'⟩, fun u _ => ⟨?_, fun _ => hres⟩⟩
    · rw [hres]
      exact hfree (howner ▸ hn)
    · rw [howner, h.owns]
      exact iff_of_false hl hl'
    · rw [howner]
  | enter hnone howner hres hl' hknown =>
    refine ⟨fun hn => ?_, ⟨iff_of_true howner hl', fun _ => ?_⟩, fun u hu => ⟨?_, fun _ => hres⟩⟩
    · rw [howner] at hn
      exact nomatch hn
    · rw [hres]
      exact hknown (hfree hnone)
    · rw [howner, hnone]
      exact iff_of_false (fun he => hu (Option.some.inj he).symm) nofun
  | inside howner hl hl' hknown =>
    have hown := h.owns.mpr hl
    refine ⟨fun hn => ?_, ⟨?_, fun _ => hknown (h.known hl)⟩, fun u hu => ?_⟩
    · rw [howner, hown] at hn
      exact nomatch hn
    · exact iff_of_true (howner.trans hown) hl'
    · exact Rely.of_owner hown hu (.inl (howner.trans hown))
  | leave howner hl hl' hinv =>
    have hown := h.owns.mpr hl
    refine ⟨fun _ => hinv (h.known hl), ⟨?_, fun hin => absurd hin hl'⟩, fun u hu => ?_⟩
    · rw [howner]
      exact iff_of_false nofun hl'
    · exact Rely.of_owner hown hu (.inr howner)

/-- **Programs with one critical region.**  If every step of a thread that satisfies its assertion
is a move, the assertions are those of a rely/guarantee proof. -/
theorem relyGuarantee {p : Program T C G L} {ok : Config T G L → T → C → Prop}
    (hmove : ∀ t c g l g' l', γ.Assertion t g l → p t c g l = some (g', l') →
      γ.Move t g l g' l') :
    RelyGuarantee p ok γ.Free γ.Assertion γ.Rely where
  stable _ _ _ _ hr h := h.stable hr
  step s t c g' l' hfree hP _ hp :=
    (hmove t c s.shared (s.locals t) g' l' (hP t) hp).keeps hfree (hP t)

end CriticalRegion
