import Mathlib.Data.List.Induction
import Mathlib.Data.List.Sort
import Mathlib.Data.Set.Disjoint
import Mathlib.Tactic.Common
import Mathlib.Order.CompletePartialOrder
import Mathlib.Data.Set.Lattice

/-!
# Effects on a state with many components

Effects that read and change only the components they own. Two runs that differ in where an effect
stands agree as long as it moves past effects that own nothing in common with it, so that effects
with time stamps can be performed in the order of these.
-/

namespace Recall.Interleaving

variable {ι σ ε : Type} {performs : (ι → σ) → ε → (ι → σ) → Prop}

/-- Performing effects one after the other. -/
inductive Runs (performs : (ι → σ) → ε → (ι → σ) → Prop) : (ι → σ) → List ε → (ι → σ) → Prop
  | nil (state : ι → σ) : Runs performs state [] state
  | cons {before middle after : ι → σ} {effect : ε} {effects : List ε}
      (hfirst : performs before effect middle) (hrest : Runs performs middle effects after) :
      Runs performs before (effect :: effects) after

/-- Effects change only what they own, and what they do depends on nothing else. -/
structure Local (performs : (ι → σ) → ε → (ι → σ) → Prop) (owns : ε → Set ι) : Prop where
  frame : ∀ {before after : ι → σ} {effect : ε}, performs before effect after →
    ∀ i ∉ owns effect, after i = before i
  transfer : ∀ {before after other : ι → σ} {effect : ε}, performs before effect after →
    (∀ i ∈ owns effect, other i = before i) →
    ∃ result, performs other effect result ∧ ∀ i ∈ owns effect, result i = after i

namespace Runs

variable {before middle after other : ι → σ} {effect : ε} {first second effects : List ε}

theorem single (hperforms : performs before effect after) : Runs performs before [effect] after :=
  .cons hperforms (.nil after)

theorem append (hfirst : Runs performs before first middle)
    (hsecond : Runs performs middle second after) : Runs performs before (first ++ second) after := by
  induction hfirst with
  | nil => exact hsecond
  | cons hstep _ ih => exact .cons hstep (ih hsecond)

theorem split (hruns : Runs performs before (first ++ second) after) :
    ∃ middle, Runs performs before first middle ∧ Runs performs middle second after := by
  induction first generalizing before with
  | nil => exact ⟨before, .nil before, hruns⟩
  | cons effect first ih =>
      cases hruns with
      | cons hstep hrest =>
          obtain ⟨middle, hfirst, hsecond⟩ := ih hrest
          exact ⟨middle, .cons hstep hfirst, hsecond⟩

variable {owns : ε → Set ι}

theorem frame (hlocal : Local performs owns) (hruns : Runs performs before effects after) {i : ι}
    (hi : ∀ effect ∈ effects, i ∉ owns effect) : after i = before i := by
  induction hruns with
  | nil => rfl
  | cons hstep _ ih =>
      rw [ih fun effect heffect => hi effect (List.mem_cons_of_mem _ heffect)]
      exact hlocal.frame hstep i (hi _ List.mem_cons_self)

theorem transfer (hlocal : Local performs owns) (hruns : Runs performs before effects after)
    (hother : ∀ effect ∈ effects, ∀ i ∈ owns effect, other i = before i) :
    ∃ result, Runs performs other effects result ∧
      ∀ effect ∈ effects, ∀ i ∈ owns effect, result i = after i := by
  induction hruns generalizing other with
  | nil state => exact ⟨other, .nil other, by simp⟩
  | @cons before middle after effect effects hstep hrest ih =>
      obtain ⟨next, hnext, hagree⟩ := hlocal.transfer hstep (hother effect List.mem_cons_self)
      have hlater : ∀ later ∈ effects, ∀ i ∈ owns later, next i = middle i := by
        intro later hmem i hi
        by_cases howned : i ∈ owns effect
        · exact hagree i howned
        · rw [hlocal.frame hnext i howned, hlocal.frame hstep i howned]
          exact hother later (List.mem_cons_of_mem _ hmem) i hi
      obtain ⟨result, hresult, hsame⟩ := ih hlater
      refine ⟨result, .cons hnext hresult, fun owner howner i hi => ?_⟩
      by_cases hagain : ∃ later ∈ effects, i ∈ owns later
      · obtain ⟨later, hmem, hi⟩ := hagain
        exact hsame later hmem i hi
      · have hfree : ∀ later ∈ effects, i ∉ owns later := fun later hmem hi =>
          hagain ⟨later, hmem, hi⟩
        have howned : i ∈ owns effect := by
          rcases List.mem_cons.mp howner with rfl | howner
          · exact hi
          · exact absurd hi (hfree owner howner)
        rw [frame hlocal hresult hfree, frame hlocal hrest hfree]
        exact hagree i howned

/-- An effect performed last may as well have come before effects it shares nothing with. -/
theorem insert (hlocal : Local performs owns) (hruns : Runs performs before (first ++ second) middle)
    (hlast : performs middle effect after)
    (hdisjoint : ∀ later ∈ second, Disjoint (owns later) (owns effect)) :
    Runs performs before (first ++ effect :: second) after := by
  obtain ⟨start, hfirst, hsecond⟩ := hruns.split
  have hapart : ∀ later ∈ second, ∀ i ∈ owns later, i ∉ owns effect := fun later hlater i hi =>
    Set.disjoint_left.mp (hdisjoint later hlater) hi
  have hkept : ∀ i ∈ owns effect, start i = middle i := fun i hi =>
    (frame hlocal hsecond fun later hlater howned => hapart later hlater i howned hi).symm
  obtain ⟨next, hnext, hagree⟩ := hlocal.transfer hlast hkept
  have huntouched : ∀ later ∈ second, ∀ i ∈ owns later, next i = start i :=
    fun later hlater i hi => hlocal.frame hnext i (hapart later hlater i hi)
  obtain ⟨result, hresult, hsame⟩ := hsecond.transfer hlocal huntouched
  have hafter : result = after := by
    funext i
    by_cases howned : ∃ later ∈ second, i ∈ owns later
    · obtain ⟨later, hlater, hi⟩ := howned
      rw [hsame later hlater i hi, hlocal.frame hlast i (hapart later hlater i hi)]
    · have hfree : ∀ later ∈ second, i ∉ owns later := fun later hlater hi =>
        howned ⟨later, hlater, hi⟩
      rw [frame hlocal hresult hfree]
      by_cases hi : i ∈ owns effect
      · exact hagree i hi
      · rw [hlocal.frame hnext i hi, hlocal.frame hlast i hi, frame hlocal hsecond hfree]
  rw [← hafter]
  exact hfirst.append (.cons hnext hresult)

end Runs

/-! ### Time stamps -/

variable {τ : Type} [LinearOrder τ]

/-- The effects by their time stamps, those with the same one in the order they happened. -/
def schedule (time : ε → τ) (effects : List ε) : List ε :=
  effects.foldl (fun order effect => order.orderedInsert (fun a b => time a < time b) effect) []

variable {time : ε → τ} {order effects : List ε}

theorem schedule_concat (time : ε → τ) (effects : List ε) (effect : ε) :
    schedule time (effects ++ [effect]) =
      (schedule time effects).orderedInsert (fun a b => time a < time b) effect := by
  rw [schedule, List.foldl_append]
  rfl

theorem schedule_perm (time : ε → τ) (effects : List ε) : (schedule time effects).Perm effects := by
  induction effects using List.reverseRecOn with
  | nil => exact .nil
  | append_singleton effects effect ih =>
      rw [schedule_concat]
      calc
        List.Perm _ (effect :: schedule time effects) := List.perm_orderedInsert ..
        List.Perm _ (effect :: effects) := ih.cons effect
        List.Perm _ (effects ++ [effect]) := (List.perm_append_singleton ..).symm

/-- A new effect goes in front of those with a later time stamp. -/
theorem orderedInsert_eq (effect : ε)
    (hsorted : order.Pairwise fun a b => time a ≤ time b) :
    ∃ first second, order = first ++ second ∧
      order.orderedInsert (fun a b => time a < time b) effect = first ++ effect :: second ∧
      (∀ earlier ∈ first, time earlier ≤ time effect) ∧
      ∀ later ∈ second, time effect < time later := by
  induction order with
  | nil => exact ⟨[], [], rfl, rfl, by simp, by simp⟩
  | cons head order ih =>
      obtain ⟨hhead, hrest⟩ := List.pairwise_cons.mp hsorted
      by_cases hlt : time effect < time head
      · refine ⟨[], head :: order, rfl, by simp [hlt], by simp, fun later hlater => ?_⟩
        rcases List.mem_cons.mp hlater with rfl | hlater
        · exact hlt
        · exact hlt.trans_le (hhead later hlater)
      · obtain ⟨first, second, horder, hinsert, hfirst, hsecond⟩ := ih hrest
        refine ⟨head :: first, second, by simp [horder], by simp [hlt, hinsert],
          fun earlier hearlier => ?_, hsecond⟩
        rcases List.mem_cons.mp hearlier with rfl | hearlier
        · exact not_lt.mp hlt
        · exact hfirst earlier hearlier

theorem schedule_sorted (time : ε → τ) (effects : List ε) :
    (schedule time effects).Pairwise fun a b => time a ≤ time b := by
  induction effects using List.reverseRecOn with
  | nil => exact .nil
  | append_singleton effects effect ih =>
      obtain ⟨first, second, horder, hinsert, hfirst, hsecond⟩ := orderedInsert_eq effect ih
      rw [schedule_concat, hinsert]
      rw [horder] at ih
      obtain ⟨hbefore, hafter, hacross⟩ := List.pairwise_append.mp ih
      refine List.pairwise_append.mpr ⟨hbefore, List.pairwise_cons.mpr ⟨fun later hlater => ?_,
        hafter⟩, fun earlier hearlier later hlater => ?_⟩
      · exact (hsecond later hlater).le
      · rcases List.mem_cons.mp hlater with rfl | hlater
        · exact hfirst earlier hearlier
        · exact hacross earlier hearlier later hlater

/-- Effects whose time stamps agree with the order they happened in keep it. -/
theorem schedule_keeps {first second : List ε} {earlier later : ε} (hearlier : earlier ∈ first)
    (hlater : later ∈ second) (hle : time earlier ≤ time later) :
    [earlier, later].Sublist (schedule time (first ++ second)) := by
  induction second using List.reverseRecOn with
  | nil => cases hlater
  | append_singleton second effect ih =>
      rw [← List.append_assoc, schedule_concat]
      rcases List.mem_append.mp hlater with hlater | hlater
      · exact (ih hlater).trans (List.sublist_orderedInsert ..)
      · obtain rfl := List.mem_singleton.mp hlater
        obtain ⟨before, after, horder, hinsert, -, hafter⟩ :=
          orderedInsert_eq later (schedule_sorted time (first ++ second))
        have hmem : earlier ∈ before ++ after := by
          rw [← horder, (schedule_perm ..).mem_iff]
          exact List.mem_append_left _ hearlier
        have hbefore : earlier ∈ before := by
          refine (List.mem_append.mp hmem).resolve_right fun hmem => ?_
          exact absurd hle (not_le.mpr (hafter earlier hmem))
        rw [hinsert]
        have htail : [later].Sublist (later :: after) := .cons_cons later (List.nil_sublist after)
        exact (List.singleton_sublist.mpr hbefore).append htail

/-- Effects may be performed by their time stamps, if those that overtake share nothing with the
effects they overtake. -/
theorem Runs.schedule {before after : ι → σ} {owns : ε → Set ι} (hlocal : Local performs owns)
    (hruns : Runs performs before effects after)
    (hapart : effects.Pairwise fun first second => time second < time first →
      Disjoint (owns first) (owns second)) :
    Runs performs before (Interleaving.schedule time effects) after := by
  induction effects using List.reverseRecOn generalizing after with
  | nil => exact hruns
  | append_singleton effects effect ih =>
      obtain ⟨middle, hfirst, hlast⟩ := hruns.split
      obtain ⟨hpairs, -, hacross⟩ := List.pairwise_append.mp hapart
      obtain ⟨sooner, later, horder, hinsert, -, hlater⟩ :=
        orderedInsert_eq effect (schedule_sorted time effects)
      rw [schedule_concat, hinsert]
      have hordered := ih hfirst hpairs
      rw [horder] at hordered
      cases hlast with
      | cons hstep hnil =>
          cases hnil
          refine hordered.insert hlocal hstep fun other hother => ?_
          have hmem : other ∈ effects := by
            rw [← (schedule_perm time effects).mem_iff, horder]
            exact List.mem_append_right _ hother
          exact hacross other hmem effect (List.mem_singleton_self _) (hlater other hother)

/-! ### Keeping an order -/

/-- A list whose elements stand in another, any two in the order they have there, is part of it. -/
theorem sublist_of_pairs {α : Type} {xs ys : List α} (hnodup : xs.Nodup) (hsubset : xs ⊆ ys)
    (hpairs : ys.Pairwise fun a b => a ∈ xs → b ∈ xs → [a, b].Sublist xs) : xs.Sublist ys := by
  induction ys generalizing xs with
  | nil => rw [List.subset_nil.mp hsubset]
  | cons y ys ih =>
      rw [List.pairwise_cons] at hpairs
      by_cases hy : y ∈ xs
      · -- What comes first in the other list comes first in this one.
        cases xs with
        | nil => cases hy
        | cons x xs =>
            rw [List.nodup_cons] at hnodup
            obtain rfl : x = y := by
              by_contra hne
              have hx := (List.mem_cons.mp (hsubset List.mem_cons_self)).resolve_left hne
              cases hpairs.1 x hx hy List.mem_cons_self with
              | cons _ hpair => exact hnodup.1 (hpair.subset (by simp))
              | cons_cons _ hpair => exact hne rfl
            refine (ih hnodup.2 (fun z hz => ?_) (hpairs.2.imp fun hpair ha hb => ?_)).cons_cons x
            · refine (List.mem_cons.mp (hsubset (List.mem_cons_of_mem _ hz))).resolve_left ?_
              rintro rfl
              exact hnodup.1 hz
            · cases hpair (List.mem_cons_of_mem _ ha) (List.mem_cons_of_mem _ hb) with
              | cons _ hpair => exact hpair
              | cons_cons _ hpair => exact absurd ha hnodup.1
      · refine (ih hnodup (fun z hz => ?_) hpairs.2).cons y
        refine (List.mem_cons.mp (hsubset hz)).resolve_left ?_
        rintro rfl
        exact hy hz

end Recall.Interleaving
