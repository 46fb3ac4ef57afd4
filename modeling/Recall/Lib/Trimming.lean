import Mathlib.Data.List.DropRight
import Mathlib.Data.List.Induction
import Mathlib.Tactic.Common

/-!
# Trimming and splitting lists

A list without the elements of one kind at its two ends, and a list cut at the first occurrence of a
separator.
-/

namespace Trimming

variable {α : Type} {p : α → Bool}

/-- Drops the elements that satisfy `p` from both ends. -/
def trim (p : α → Bool) (l : List α) : List α := (l.dropWhile p).rdropWhile p

/-- What stands before and behind the first separator. -/
def splitOnce [DecidableEq α] (separator : α) : List α → Option (List α × List α)
  | [] => none
  | x :: l =>
      if x = separator then some ([], l)
      else (splitOnce separator l).map fun parts => (x :: parts.1, parts.2)

/-! ### Around an element that stays -/

theorem dropWhile_append_cons {x : α} (hx : p x = false) (l r : List α) :
    (l ++ x :: r).dropWhile p = l.dropWhile p ++ x :: r := by
  induction l with
  | nil => simp [hx]
  | cons y l ih =>
      rw [List.cons_append, List.dropWhile_cons, List.dropWhile_cons]
      split
      · exact ih
      · rfl

theorem rdropWhile_append_cons {x : α} (hx : p x = false) (l r : List α) :
    (l ++ x :: r).rdropWhile p = l ++ x :: r.rdropWhile p := by
  have hreverse : (l ++ x :: r).reverse = r.reverse ++ x :: l.reverse := by simp
  rw [List.rdropWhile, List.rdropWhile, hreverse, dropWhile_append_cons hx]
  simp

theorem trim_append_cons {x : α} (hx : p x = false) (l r : List α) :
    trim p (l ++ x :: r) = l.dropWhile p ++ x :: r.rdropWhile p := by
  rw [trim, dropWhile_append_cons hx, rdropWhile_append_cons hx]

theorem trim_of_forall {l : List α} (hl : ∀ x ∈ l, p x = true) : trim p l = [] := by
  rw [trim, List.dropWhile_eq_nil_iff.mpr hl, List.rdropWhile_nil]

/-- Either nothing stays, or there is a first element that does. -/
theorem forall_or_first (p : α → Bool) (l : List α) :
    (∀ x ∈ l, p x = true) ∨
      ∃ a x r, l = a ++ x :: r ∧ (∀ y ∈ a, p y = true) ∧ p x = false := by
  induction l with
  | nil => exact .inl nofun
  | cons y l ih =>
      cases hy : p y with
      | false => exact .inr ⟨[], y, l, rfl, nofun, hy⟩
      | true =>
          rcases ih with hall | ⟨a, x, r, rfl, ha, hx⟩
          · exact .inl (List.forall_mem_cons.mpr ⟨hy, hall⟩)
          · exact .inr ⟨y :: a, x, r, rfl, List.forall_mem_cons.mpr ⟨hy, ha⟩, hx⟩

theorem mem_of_mem_trim {x : α} {l : List α} (hx : x ∈ trim p l) : x ∈ l := by
  rw [trim, List.rdropWhile, List.mem_reverse] at hx
  have hdrop := List.mem_reverse.mp ((List.dropWhile_sublist p).subset hx)
  exact (List.dropWhile_sublist p).subset hdrop

/-! ### Padding -/

theorem trim_append_left {a : List α} (ha : ∀ x ∈ a, p x = true) (l : List α) :
    trim p (a ++ l) = trim p l := by
  rw [trim, trim, List.dropWhile_append_of_pos ha]

theorem rdropWhile_append_right {d : List α} (hd : ∀ x ∈ d, p x = true) (l : List α) :
    (l ++ d).rdropWhile p = l.rdropWhile p := by
  have hreverse : ∀ x ∈ d.reverse, p x = true := fun x hx => hd x (List.mem_reverse.mp hx)
  rw [List.rdropWhile, List.rdropWhile, List.reverse_append, List.dropWhile_append_of_pos hreverse]

theorem trim_append_right {d : List α} (hd : ∀ x ∈ d, p x = true) (l : List α) :
    trim p (l ++ d) = trim p l := by
  rcases forall_or_first p l with hall | ⟨a, x, r, rfl, -, hx⟩
  · rw [trim_of_forall hall, trim_of_forall]
    intro x hx
    rcases List.mem_append.mp hx with hl | hx
    · exact hall x hl
    · exact hd x hx
  · rw [List.append_assoc, List.cons_append, trim_append_cons hx, trim_append_cons hx,
      rdropWhile_append_right hd]

theorem trim_dropWhile (l : List α) : trim p (l.dropWhile p) = trim p l := by
  rw [trim, trim, List.dropWhile_idempotent]

theorem trim_rdropWhile (l : List α) : trim p (l.rdropWhile p) = trim p l := by
  rcases forall_or_first p l with hall | ⟨a, x, r, rfl, -, hx⟩
  · rw [List.rdropWhile_eq_nil_iff.mpr hall, trim_of_forall hall]
    rfl
  · rw [rdropWhile_append_cons hx, trim_append_cons hx, trim_append_cons hx,
      List.rdropWhile_idempotent]

theorem trim_eq_self {l : List α} (hhead : ∀ x ∈ l.head?, p x = false)
    (hlast : ∀ x ∈ l.getLast?, p x = false) : trim p l = l := by
  cases l with
  | nil => rfl
  | cons x l =>
      have hdrop : (x :: l).dropWhile p = x :: l := by
        rw [List.dropWhile_cons, if_neg]
        rw [hhead x rfl]
        exact Bool.false_ne_true
      rw [trim, hdrop, List.rdropWhile_eq_self_iff]
      intro hne hp
      rw [hlast _ (List.getLast?_eq_some_getLast hne)] at hp
      cases hp

/-! ### Splitting -/

section

variable [DecidableEq α] {separator : α}

theorem splitOnce_append {l : List α} (hl : separator ∉ l) (r : List α) :
    splitOnce separator (l ++ separator :: r) = some (l, r) := by
  induction l with
  | nil => simp [splitOnce]
  | cons x l ih =>
      rw [List.mem_cons, not_or] at hl
      rw [List.cons_append, splitOnce, if_neg (Ne.symm hl.1), ih hl.2]
      rfl

theorem splitOnce_eq_none {l : List α} (hl : separator ∉ l) : splitOnce separator l = none := by
  induction l with
  | nil => rfl
  | cons x l ih =>
      rw [List.mem_cons, not_or] at hl
      rw [splitOnce, if_neg (Ne.symm hl.1), ih hl.2]
      rfl

/-- Trimming around a separator that stays leaves the cut where it was. -/
theorem splitOnce_trim (hseparator : p separator = false) {l : List α} (hl : separator ∉ l)
    (r : List α) :
    splitOnce separator (trim p (l ++ separator :: r)) = some (l.dropWhile p, r.rdropWhile p) := by
  rw [trim_append_cons hseparator, splitOnce_append]
  exact fun hmem => hl ((List.dropWhile_sublist p).subset hmem)

end

end Trimming
