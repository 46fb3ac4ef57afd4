import Mathlib.Data.Finmap
import Mathlib.Algebra.BigOperators.Group.Finset.Basic
import Mathlib.Algebra.Order.BigOperators.Group.List
import Mathlib.Tactic.Common
import Mathlib.Algebra.Ring.Int.Defs
import Mathlib.Algebra.GroupWithZero.Nat

/-!
# Totals and overlays of finite maps

A weighted total over a finite map, and the overlay of a map by a list of updates in which every
key occurs at most once: `some v` writes, `none` erases. The overlay does not depend on the order of
the updates, and its total is the old total plus one difference per update, which is what an
incremental accounting relies on.
-/

namespace Finmap

universe u v

variable {α : Type u} {β : Type v} [DecidableEq α]

theorem insert_erase_of_lookup {a : α} {b : β} {s : Finmap fun _ : α => β}
    (hlookup : s.lookup a = some b) : (s.erase a).insert a b = s := by
  apply Finmap.ext_lookup
  intro x
  by_cases hx : x = a
  · subst hx
    rw [lookup_insert, hlookup]
  · rw [lookup_insert_of_ne _ hx, lookup_erase_ne hx]

theorem insert_erase (a : α) (b : β) (s : Finmap fun _ : α => β) :
    (s.erase a).insert a b = s.insert a b := by
  apply Finmap.ext_lookup
  intro x
  by_cases hx : x = a
  · subst hx
    rw [lookup_insert, lookup_insert]
  · rw [lookup_insert_of_ne _ hx, lookup_insert_of_ne _ hx, lookup_erase_ne hx]

theorem erase_of_lookup_none {a : α} {s : Finmap fun _ : α => β} (hlookup : s.lookup a = none) :
    s.erase a = s := by
  apply Finmap.ext_lookup
  intro x
  by_cases hx : x = a
  · subst hx
    rw [lookup_erase, hlookup]
  · rw [lookup_erase_ne hx]

/-! ### Weighted totals -/

/-- The weight of a binding, nothing when there is none. -/
def weightAt (w : α → β → Nat) (a : α) : Option β → Nat
  | none => 0
  | some b => w a b

def total (w : α → β → Nat) (s : Finmap fun _ : α => β) : Nat :=
  (s.entries.map fun e => w e.1 e.2).sum

/-- The number of bindings. -/
def size (s : Finmap fun _ : α => β) : Nat := s.entries.card

omit [DecidableEq α] in
theorem size_eq_total (s : Finmap fun _ : α => β) : s.size = s.total fun _ _ => 1 := by
  simp [size, total]

omit [DecidableEq α] in
theorem size_eq_card_keys (s : Finmap fun _ : α => β) : s.size = s.keys.card := by
  simp [size, keys, Multiset.keys]

theorem total_insert_of_lookup_none (w : α → β → Nat) {a : α} {b : β}
    {s : Finmap fun _ : α => β} (hlookup : s.lookup a = none) :
    (s.insert a b).total w = s.total w + w a b := by
  have hmem : a ∉ s := lookup_eq_none.mp hlookup
  unfold total
  rw [entries_insert_of_notMem hmem, Multiset.map_cons, Multiset.sum_cons]
  exact Nat.add_comm _ _

theorem total_erase_add (w : α → β → Nat) (a : α) (s : Finmap fun _ : α => β) :
    (s.erase a).total w + weightAt w a (s.lookup a) = s.total w := by
  cases hlookup : s.lookup a with
  | none => simp [weightAt, erase_of_lookup_none hlookup]
  | some b =>
      have hinsert := total_insert_of_lookup_none w (b := b) (lookup_erase a s)
      rw [insert_erase_of_lookup hlookup] at hinsert
      exact hinsert.symm

theorem total_insert_add (w : α → β → Nat) (a : α) (b : β) (s : Finmap fun _ : α => β) :
    (s.insert a b).total w + weightAt w a (s.lookup a) = s.total w + w a b := by
  have herase := total_erase_add w a s
  have hinsert := total_insert_of_lookup_none w (b := b) (lookup_erase a s)
  rw [insert_erase] at hinsert
  omega

/-! ### Overlays -/

/-- One update: `some` writes the key, `none` erases it. -/
def update (s : Finmap fun _ : α => β) (a : α) : Option β → Finmap fun _ : α => β
  | some b => s.insert a b
  | none => s.erase a

theorem lookup_update (s : Finmap fun _ : α => β) (a x : α) (v : Option β) :
    (s.update a v).lookup x = if x = a then v else s.lookup x := by
  cases v with
  | none =>
      by_cases hx : x = a
      · subst hx
        simp [update]
      · simp [update, hx, lookup_erase_ne hx]
  | some b =>
      by_cases hx : x = a
      · subst hx
        simp [update]
      · simp [update, hx, lookup_insert_of_ne _ hx]

theorem total_update_add (w : α → β → Nat) (s : Finmap fun _ : α => β) (a : α) (v : Option β) :
    (s.update a v).total w + weightAt w a (s.lookup a) = s.total w + weightAt w a v := by
  cases v with
  | none => exact total_erase_add w a s
  | some b => exact total_insert_add w a b s

/-- The updates of a list, first to last. -/
def overlayList (s : Finmap fun _ : α => β) (updates : List (Sigma fun _ : α => Option β)) :
    Finmap fun _ : α => β :=
  updates.foldl (fun m e => m.update e.1 e.2) s

/-- The map overwritten by a set of updates. -/
def overlay (s : Finmap fun _ : α => β) (updates : AList fun _ : α => Option β) :
    Finmap fun _ : α => β :=
  s.overlayList updates.entries

theorem lookup_overlayList (updates : List (Sigma fun _ : α => Option β))
    (hnodup : updates.NodupKeys) (s : Finmap fun _ : α => β) (x : α) :
    (s.overlayList updates).lookup x = (updates.dlookup x).getD (s.lookup x) := by
  induction updates generalizing s with
  | nil => rfl
  | cons e updates ih =>
      obtain ⟨a, v⟩ := e
      rw [List.nodupKeys_cons] at hnodup
      change ((s.update a v).overlayList updates).lookup x = _
      rw [ih hnodup.2, lookup_update]
      by_cases hx : x = a
      · subst hx
        have hnone : updates.dlookup x = none := List.dlookup_eq_none.mpr hnodup.1
        simp [hnone, List.dlookup_cons_eq]
      · rw [if_neg hx, List.dlookup_cons_ne _ _ hx]

theorem lookup_overlay (s : Finmap fun _ : α => β) (updates : AList fun _ : α => Option β)
    (x : α) : (s.overlay updates).lookup x = (updates.lookup x).getD (s.lookup x) :=
  lookup_overlayList updates.entries updates.nodupKeys s x

/-- The order in which distinct keys are updated is invisible. -/
theorem overlay_perm {left right : AList fun _ : α => Option β}
    (hperm : left.entries.Perm right.entries) (s : Finmap fun _ : α => β) :
    s.overlay left = s.overlay right := by
  apply Finmap.ext_lookup
  intro x
  rw [lookup_overlay, lookup_overlay, AList.perm_lookup hperm]

/-- The change one update makes to a total. -/
def delta (w : α → β → Nat) (s : Finmap fun _ : α => β) (e : Sigma fun _ : α => Option β) : Int :=
  (weightAt w e.1 e.2 : Int) - weightAt w e.1 (s.lookup e.1)

theorem total_overlayList (w : α → β → Nat) (updates : List (Sigma fun _ : α => Option β))
    (hnodup : updates.NodupKeys) (s : Finmap fun _ : α => β) :
    ((s.overlayList updates).total w : Int) = s.total w + (updates.map (s.delta w)).sum := by
  induction updates generalizing s with
  | nil => simp [overlayList]
  | cons e updates ih =>
      obtain ⟨a, v⟩ := e
      rw [List.nodupKeys_cons] at hnodup
      change (((s.update a v).overlayList updates).total w : Int) = _
      have hrest : updates.map ((s.update a v).delta w) = updates.map (s.delta w) := by
        apply List.map_congr_left
        intro e hmem
        have hne : e.1 ≠ a := by
          intro heq
          have hkey : e.1 ∈ updates.keys := List.mem_map_of_mem hmem
          exact hnodup.1 (heq ▸ hkey)
        simp [delta, lookup_update, hne]
      have hstep := total_update_add w s a v
      rw [ih hnodup.2, hrest, List.map_cons, List.sum_cons]
      simp only [delta]
      omega

theorem total_overlay (w : α → β → Nat) (updates : AList fun _ : α => Option β)
    (s : Finmap fun _ : α => β) :
    ((s.overlay updates).total w : Int) = s.total w + (updates.entries.map (s.delta w)).sum :=
  total_overlayList w updates.entries updates.nodupKeys s

/-- Updates that are nowhere heavier than what they replace do not raise the total. -/
theorem total_overlay_le (w : α → β → Nat) {updates : AList fun _ : α => Option β}
    {s : Finmap fun _ : α => β}
    (hlighter : ∀ a v, updates.lookup a = some v → weightAt w a v ≤ weightAt w a (s.lookup a)) :
    (s.overlay updates).total w ≤ s.total w := by
  have hsum : (updates.entries.map (s.delta w)).sum ≤ 0 := by
    refine (List.sum_le_card_nsmul _ 0 ?_).trans (by simp)
    intro difference hmem
    obtain ⟨e, he, rfl⟩ := List.mem_map.mp hmem
    have hlookup : updates.lookup e.1 = some e.2 := AList.mem_lookup_iff.mpr he
    have hle := hlighter e.1 e.2 hlookup
    unfold delta
    omega
  have htotal := total_overlay w updates s
  omega

theorem overlayList_append (s : Finmap fun _ : α => β)
    (first rest : List (Sigma fun _ : α => Option β)) :
    s.overlayList (first ++ rest) = (s.overlayList first).overlayList rest :=
  List.foldl_append

theorem size_le_size_overlayList {updates : List (Sigma fun _ : α => Option β)}
    (hwrites : ∀ e ∈ updates, e.2.isSome) (s : Finmap fun _ : α => β) :
    s.size ≤ (s.overlayList updates).size := by
  induction updates generalizing s with
  | nil => exact le_rfl
  | cons e updates ih =>
      obtain ⟨a, v⟩ := e
      obtain ⟨b, rfl⟩ := Option.isSome_iff_exists.mp (hwrites _ List.mem_cons_self)
      have hstep := total_update_add (fun _ _ => 1) s a (some b)
      have hfirst : s.size ≤ (s.update a (some b)).size := by
        rw [size_eq_total, size_eq_total]
        cases hlookup : s.lookup a <;> simp_all [weightAt]
      exact hfirst.trans (ih (fun e he => hwrites e (List.mem_cons_of_mem _ he)) _)

theorem size_update_none_le (s : Finmap fun _ : α => β) (a : α) :
    (s.update a none).size ≤ s.size := by
  rw [size_eq_total, size_eq_total]
  have hstep := total_update_add (fun _ _ => 1) s a none
  simp only [weightAt] at hstep
  omega

theorem size_overlayList_le {updates : List (Sigma fun _ : α => Option β)}
    (hremoves : ∀ e ∈ updates, e.2 = none) (s : Finmap fun _ : α => β) :
    (s.overlayList updates).size ≤ s.size := by
  induction updates generalizing s with
  | nil => exact le_rfl
  | cons e updates ih =>
      obtain ⟨a, v⟩ := e
      obtain rfl : v = none := hremoves _ List.mem_cons_self
      exact (ih (fun e he => hremoves e (List.mem_cons_of_mem _ he)) _).trans
        (size_update_none_le s a)

/-- A partial function that is defined on finitely many arguments is a finite map. -/
theorem exists_lookup_eq {support : Finset α} {f : α → Option β}
    (hf : ∀ a, a ∉ support → f a = none) :
    ∃ s : Finmap fun _ : α => β, ∀ a, s.lookup a = f a := by
  induction support using Finset.induction_on generalizing f with
  | empty => exact ⟨∅, fun a => by rw [hf a (Finset.notMem_empty a), lookup_empty]⟩
  | insert a support _ ih =>
      have hrest : ∀ b, b ∉ support → (if b = a then none else f b) = none := by
        intro b hb
        by_cases hba : b = a
        · rw [if_pos hba]
        · rw [if_neg hba]
          exact hf b (by simp [hba, hb])
      obtain ⟨s, hs⟩ := ih hrest
      refine ⟨s.update a (f a), fun b => ?_⟩
      rw [lookup_update, hs]
      by_cases hba : b = a
      · rw [if_pos hba, hba]
      · rw [if_neg hba, if_neg hba]

end Finmap
