import Mathlib.Order.Nat
import Mathlib.Tactic.Set
import Mathlib.Logic.Equiv.Basic
import Mathlib.Order.Lattice

/-!
# The order of an implicit binary heap

The nodes of a heap are the numbers below its size, the parent of a node `i` other than `0` is
`(i - 1) / 2`, and `w i` is the weight of `i`. Sifting moves one misplaced node along a path: every
edge away from it stays in order, and so does the edge that is left when it is taken out.
-/

namespace Recall.HeapOrder

variable {α : Type*} [LinearOrder α] {w w' : Nat → α} {size i c : Nat}

/-- No node is lighter than its parent. -/
def Ordered (w : Nat → α) (size : Nat) : Prop :=
  ∀ j, 0 < j → j < size → w ((j - 1) / 2) ≤ w j

/-- Only the place of `i` may be wrong. -/
structure OrderedBut (w : Nat → α) (size i : Nat) : Prop where
  apart : ∀ j, 0 < j → j < size → j ≠ i → (j - 1) / 2 ≠ i → w ((j - 1) / 2) ≤ w j
  across : 0 < i → ∀ j, 0 < j → j < size → (j - 1) / 2 = i → w ((i - 1) / 2) ≤ w j

/-- A node is in order with its parent. -/
def Above (w : Nat → α) (i : Nat) : Prop := 0 < i → w ((i - 1) / 2) ≤ w i

/-- A node is in order with its children. -/
def Below (w : Nat → α) (size i : Nat) : Prop :=
  ∀ j, 0 < j → j < size → (j - 1) / 2 = i → w i ≤ w j

theorem Ordered.root_le (h : Ordered w size) {j : Nat} (hj : j < size) : w 0 ≤ w j := by
  induction j using Nat.strong_induction_on with
  | h j ih =>
      rcases Nat.eq_zero_or_pos j with rfl | hpos
      · exact le_rfl
      · calc w 0 ≤ w ((j - 1) / 2) := ih _ (by omega) (by omega)
          _ ≤ w j := h j hpos hj

theorem Ordered.mono (h : Ordered w size) {smaller : Nat} (hle : smaller ≤ size) :
    Ordered w smaller :=
  fun j hpos hj => h j hpos (hj.trans_le hle)

theorem Ordered.but (h : Ordered w size) (i : Nat) : OrderedBut w size i where
  apart j hpos hj _ _ := h j hpos hj
  across hi j hpos hj hparent := by
    have hij : i < size := by omega
    calc w ((i - 1) / 2) ≤ w i := h i hi hij
      _ ≤ w j := hparent ▸ h j hpos hj

/-- A new last node. -/
theorem Ordered.push (h : Ordered w size) : OrderedBut w (size + 1) size where
  apart j hpos hj hne _ := h j hpos (by omega)
  across _ j hpos hj hparent := by omega

namespace OrderedBut

/-- The misplaced node may have any weight. -/
theorem of_eq (h : OrderedBut w size i) (hw : ∀ j < size, j ≠ i → w' j = w j) :
    OrderedBut w' size i where
  apart j hpos hj hne hparent := by
    rw [hw j hj hne, hw _ (by omega) hparent]
    exact h.apart j hpos hj hne hparent
  across hi j hpos hj hparent := by
    rw [hw j hj (by omega), hw _ (by omega) (by omega)]
    exact h.across hi j hpos hj hparent

theorem ordered (h : OrderedBut w size i) (habove : Above w i) (hbelow : Below w size i) :
    Ordered w size := by
  intro j hpos hj
  by_cases hji : j = i
  · subst hji
    exact habove hpos
  · by_cases hparent : (j - 1) / 2 = i
    · rw [hparent]
      exact hbelow j hpos hj hparent
    · exact h.apart j hpos hj hji hparent

/-- The node changes places with a heavier parent. -/
theorem raise (h : OrderedBut w size i) (hi : 0 < i) (hsize : i < size)
    (hlighter : w i < w ((i - 1) / 2)) :
    OrderedBut (w ∘ Equiv.swap ((i - 1) / 2) i) size ((i - 1) / 2) ∧
      Below (w ∘ Equiv.swap ((i - 1) / 2) i) size ((i - 1) / 2) := by
  set p := (i - 1) / 2 with hp
  have hother : ∀ j, j ≠ p → j ≠ i → (w ∘ Equiv.swap p i) j = w j := fun j hjp hji => by
    rw [Function.comp_apply, Equiv.swap_apply_of_ne_of_ne hjp hji]
  have hlow : (w ∘ Equiv.swap p i) i = w p := by
    rw [Function.comp_apply, Equiv.swap_apply_right]
  have hhigh : (w ∘ Equiv.swap p i) p = w i := by
    rw [Function.comp_apply, Equiv.swap_apply_left]
  refine ⟨⟨fun j hpos hj hne hparent => ?_, fun hroot j hpos hj hparent => ?_⟩,
    fun j hpos hj hparent => ?_⟩
  · have hji : j ≠ i := by
      rintro rfl
      exact hparent hp.symm
    rw [hother j hne hji]
    by_cases hchild : (j - 1) / 2 = i
    · rw [hchild, hlow]
      exact h.across hi j hpos hj hchild
    · rw [hother _ hparent hchild]
      exact h.apart j hpos hj hji hchild
  · have hup : w ((p - 1) / 2) ≤ w p := h.apart p hroot (by omega) (by omega) (by omega)
    rw [hother _ (by omega) (by omega)]
    by_cases hji : j = i
    · rw [hji, hlow]
      exact hup
    · rw [hother j (by omega) hji]
      calc w ((p - 1) / 2) ≤ w p := hup
        _ = w ((j - 1) / 2) := by rw [hparent]
        _ ≤ w j := h.apart j hpos hj hji (by omega)
  · rw [hhigh]
    by_cases hji : j = i
    · rw [hji, hlow]
      exact hlighter.le
    · rw [hother j (by omega) hji]
      calc w i ≤ w p := hlighter.le
        _ = w ((j - 1) / 2) := by rw [hparent]
        _ ≤ w j := h.apart j hpos hj hji (by omega)

/-- The node changes places with its lightest child. -/
theorem lower (h : OrderedBut w size i) (hc : 0 < c) (hsize : c < size) (hchild : (c - 1) / 2 = i)
    (hlightest : ∀ j, 0 < j → j < size → (j - 1) / 2 = i → w c ≤ w j) (hlighter : w c < w i) :
    OrderedBut (w ∘ Equiv.swap i c) size c ∧ Above (w ∘ Equiv.swap i c) c := by
  have hother : ∀ j, j ≠ i → j ≠ c → (w ∘ Equiv.swap i c) j = w j := fun j hji hjc => by
    rw [Function.comp_apply, Equiv.swap_apply_of_ne_of_ne hji hjc]
  have hlow : (w ∘ Equiv.swap i c) c = w i := by
    rw [Function.comp_apply, Equiv.swap_apply_right]
  have hhigh : (w ∘ Equiv.swap i c) i = w c := by
    rw [Function.comp_apply, Equiv.swap_apply_left]
  refine ⟨⟨fun j hpos hj hne hparent => ?_, fun _ j hpos hj hparent => ?_⟩, fun _ => ?_⟩
  · by_cases hji : j = i
    · subst hji
      rw [hhigh, hother _ (by omega) (by omega)]
      exact h.across hpos c hc hsize hchild
    · rw [hother j hji hne]
      by_cases hsibling : (j - 1) / 2 = i
      · rw [hsibling, hhigh]
        exact hlightest j hpos hj hsibling
      · rw [hother _ hsibling hparent]
        exact h.apart j hpos hj hji hsibling
  · rw [hchild, hhigh, hother j (by omega) (by omega)]
    calc w c = w ((j - 1) / 2) := by rw [hparent]
      _ ≤ w j := h.apart j hpos hj (by omega) (by omega)
  · rw [hchild, hhigh, hlow]
    exact hlighter.le

end OrderedBut

end Recall.HeapOrder
