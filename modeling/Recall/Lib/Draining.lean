import Mathlib.Data.List.Basic
import Mathlib.Tactic.Common

/-!
# Systems that run out of work

A system's own steps lower a measure of the work it has in hand; what its surroundings do raises the
measure by at most a fixed amount. So the system takes no more steps than it was given work for, and
left alone it comes to rest.
-/

namespace Recall.Draining

variable {σ ε : Type} {own other : σ → List ε → σ → Prop} {work : σ → Nat} {cost : Nat}
  {taken given : Nat} {s t u : σ} {trace events : List ε}

/-- A run with the number of the system's own steps and the number of the others. -/
inductive Run (own other : σ → List ε → σ → Prop) : Nat → Nat → σ → List ε → σ → Prop
  | nil (s : σ) : Run own other 0 0 s [] s
  | own {taken given : Nat} {s t u : σ} {trace events : List ε}
      (hrun : Run own other taken given s trace t) (hstep : own t events u) :
      Run own other (taken + 1) given s (trace ++ events) u
  | other {taken given : Nat} {s t u : σ} {trace events : List ε}
      (hrun : Run own other taken given s trace t) (hstep : other t events u) :
      Run own other taken (given + 1) s (trace ++ events) u

/-- A run of the system alone. -/
abbrev Alone (own : σ → List ε → σ → Prop) (taken : Nat) (s : σ) (trace : List ε) (t : σ) : Prop :=
  Run own (fun _ _ _ => False) taken 0 s trace t

/-- The system has nothing left to do. -/
def Rests (own : σ → List ε → σ → Prop) (s : σ) : Prop := ∀ events t, ¬ own s events t

theorem Run.taken_le (hown : ∀ s events t, own s events t → work t < work s)
    (hother : ∀ s events t, other s events t → work t ≤ work s + cost)
    (hrun : Run own other taken given s trace t) : taken + work t ≤ work s + given * cost := by
  induction hrun with
  | nil s => omega
  | own hrun hstep ih =>
      have hless := hown _ _ _ hstep
      omega
  | @other taken given s t u trace events hrun hstep ih =>
      have hmore := hother _ _ _ hstep
      calc
        taken + work u ≤ (taken + work t) + cost := by omega
        _ ≤ (work s + given * cost) + cost := by omega
        _ = work s + (given + 1) * cost := by rw [Nat.succ_mul, Nat.add_assoc]

theorem Run.alone_le (hown : ∀ s events t, own s events t → work t < work s)
    (hrun : Alone own taken s trace t) : taken + work t ≤ work s := by
  have hle : taken + work t ≤ work s + 0 * 0 := hrun.taken_le hown fun _ _ _ hstep => hstep.elim
  omega

/-- What every own step keeps holds at the end of a run alone. -/
theorem Run.alone_invariant (holds : List ε → σ → Prop)
    (hkeeps : ∀ trace s events t, holds trace s → own s events t → holds (trace ++ events) t)
    {before : List ε} (hstart : holds before s) (hrun : Alone own taken s trace t) :
    holds (before ++ trace) t := by
  unfold Alone at hrun
  generalize hgiven : 0 = given at hrun
  induction hrun with
  | nil s => simpa using hstart
  | own hrun hstep ih =>
      rw [← List.append_assoc]
      exact hkeeps _ _ _ _ (ih hstart hgiven) hstep
  | other hrun hstep => exact hstep.elim

/-- Left alone the system comes to rest. -/
theorem exists_rests (hown : ∀ s events t, own s events t → work t < work s) (s : σ) :
    ∃ taken trace t, Alone own taken s trace t ∧ Rests own t := by
  suffices hreach : ∀ bound taken trace t, Alone own taken s trace t → work t ≤ bound →
      ∃ taken trace t, Alone own taken s trace t ∧ Rests own t from
    hreach (work s) 0 [] s (.nil s) (Nat.le_refl _)
  intro bound
  induction bound with
  | zero =>
      intro taken trace t hrun hle
      refine ⟨taken, trace, t, hrun, fun events u hstep => ?_⟩
      have hless := hown _ _ _ hstep
      omega
  | succ bound ih =>
      intro taken trace t hrun hle
      by_cases hrests : Rests own t
      · exact ⟨taken, trace, t, hrun, hrests⟩
      · simp only [Rests, not_forall, not_not] at hrests
        obtain ⟨events, u, hstep⟩ := hrests
        have hless := hown _ _ _ hstep
        exact ih _ _ u (.own hrun hstep) (by omega)

end Recall.Draining
