import Recall.Expiry
import Mathlib.Data.Finset.Card
import Mathlib.Data.List.Nodup

/-!
# The expiry index stays consistent

`positions` and `heap` describe the same timers: the invariant below is kept by every operation, and
under it no operation leaves the heap's range. Sifting only rearranges timers, so the effect of an
operation is stated on the set of timers it leaves behind.
-/

namespace Recall.ExpiryIndex

structure Consistent (index : ExpiryIndex) : Prop where
  located : ∀ i timer, index.heap[i]? = some timer → index.positions.lookup timer.key = some i
  held : ∀ key i, index.positions.lookup key = some i →
    ∃ timer, index.heap[i]? = some timer ∧ timer.key = key

/-- The same timers, possibly at other positions. -/
structure Rearranged (before after : ExpiryIndex) : Prop where
  consistent : after.Consistent
  length : after.heap.length = before.heap.length
  mem_iff : ∀ timer, timer ∈ after.heap ↔ timer ∈ before.heap

theorem consistent_empty : empty.Consistent := by
  constructor
  · intro i timer htimer
    simp [empty] at htimer
  · intro key i hposition
    simp [empty] at hposition

theorem Rearranged.refl {index : ExpiryIndex} (hconsistent : index.Consistent) :
    Rearranged index index :=
  ⟨hconsistent, rfl, fun _ => Iff.rfl⟩

theorem Rearranged.trans {a b c : ExpiryIndex} (hab : Rearranged a b) (hbc : Rearranged b c) :
    Rearranged a c :=
  ⟨hbc.consistent, hbc.length.trans hab.length,
    fun timer => (hbc.mem_iff timer).trans (hab.mem_iff timer)⟩

section

variable {index : ExpiryIndex}

/-- Two timers of a consistent index with the same key are the same timer. -/
theorem Consistent.position_unique (hconsistent : index.Consistent) {i j : Nat} {a b : Timer}
    (ha : index.heap[i]? = some a) (hb : index.heap[j]? = some b) (hkey : a.key = b.key) :
    i = j := by
  have hi := hconsistent.located i a ha
  have hj := hconsistent.located j b hb
  rw [hkey, hj] at hi
  exact (Option.some.inj hi).symm

theorem timerAt_of_lt {i : Nat} (hi : i < index.heap.length) :
    index.timerAt i = .ok index.heap[i] := by
  simp [timerAt, List.getElem?_eq_getElem hi]

section

variable {heap : List Timer} {left right : Nat} {a b : Timer}

theorem getElem?_swapped (hleft : heap[left]? = some a) (hright : heap[right]? = some b) (i : Nat) :
    ((heap.set left b).set right a)[i]? =
      if i = right then some a else if i = left then some b else heap[i]? := by
  obtain ⟨hltLeft, -⟩ := List.getElem?_eq_some_iff.mp hleft
  obtain ⟨hltRight, -⟩ := List.getElem?_eq_some_iff.mp hright
  rw [List.getElem?_set, List.getElem?_set]
  by_cases hir : right = i
  · subst hir
    simp [hltRight]
  · by_cases hil : left = i
    · subst hil
      simp [hir, Ne.symm hir, hltLeft]
    · simp [hir, hil, Ne.symm hir, Ne.symm hil]

theorem mem_swapped (hne : left ≠ right) (hleft : heap[left]? = some a)
    (hright : heap[right]? = some b) (timer : Timer) :
    timer ∈ (heap.set left b).set right a ↔ timer ∈ heap := by
  simp only [List.mem_iff_getElem?, getElem?_swapped hleft hright]
  constructor
  · rintro ⟨i, hi⟩
    split at hi
    · exact ⟨left, by rw [hleft, hi]⟩
    · split at hi
      · exact ⟨right, by rw [hright, hi]⟩
      · exact ⟨i, hi⟩
  · rintro ⟨i, hi⟩
    by_cases hir : i = right
    · subst hir
      exact ⟨left, by rw [if_neg hne, if_pos rfl, ← hright, hi]⟩
    · by_cases hil : i = left
      · subst hil
        exact ⟨right, by rw [if_pos rfl, ← hleft, hi]⟩
      · exact ⟨i, by rw [if_neg hir, if_neg hil, hi]⟩

end

theorem Consistent.swapped (hconsistent : index.Consistent) {left right : Nat} (hne : left ≠ right)
    {a b : Timer} (hleft : index.heap[left]? = some a) (hright : index.heap[right]? = some b) :
    Consistent
      { heap := (index.heap.set left b).set right a
        positions := (index.positions.insert b.key left).insert a.key right } := by
  have hkeys : a.key ≠ b.key := fun hkey =>
    hne (hconsistent.position_unique hleft hright hkey)
  constructor
  · intro i timer htimer
    simp only [getElem?_swapped hleft hright] at htimer
    simp only
    split at htimer
    · next hir =>
        cases htimer
        rw [Finmap.lookup_insert, hir]
    · next hir =>
        split at htimer
        · next hil =>
            cases htimer
            rw [Finmap.lookup_insert_of_ne _ (Ne.symm hkeys), Finmap.lookup_insert, hil]
        · next hil =>
            have hta : timer.key ≠ a.key := fun hkey =>
              hil (hconsistent.position_unique htimer hleft hkey)
            have htb : timer.key ≠ b.key := fun hkey =>
              hir (hconsistent.position_unique htimer hright hkey)
            rw [Finmap.lookup_insert_of_ne _ hta, Finmap.lookup_insert_of_ne _ htb]
            exact hconsistent.located i timer htimer
  · intro key i hposition
    simp only at hposition
    simp only [getElem?_swapped hleft hright]
    by_cases hka : key = a.key
    · subst hka
      rw [Finmap.lookup_insert] at hposition
      cases hposition
      exact ⟨a, by simp⟩
    · rw [Finmap.lookup_insert_of_ne _ hka] at hposition
      by_cases hkb : key = b.key
      · subst hkb
        rw [Finmap.lookup_insert] at hposition
        cases hposition
        exact ⟨b, by simp [hne]⟩
      · rw [Finmap.lookup_insert_of_ne _ hkb] at hposition
        obtain ⟨timer, htimer, hkey⟩ := hconsistent.held key i hposition
        have hir : i ≠ right := by
          rintro rfl
          rw [hright, Option.some.injEq] at htimer
          exact hkb (htimer ▸ hkey).symm
        have hil : i ≠ left := by
          rintro rfl
          rw [hleft, Option.some.injEq] at htimer
          exact hka (htimer ▸ hkey).symm
        exact ⟨timer, by simp [hir, hil, htimer], hkey⟩

theorem swap_rearranged (hconsistent : index.Consistent) {left right : Nat} (hne : left ≠ right)
    (hleft : left < index.heap.length) (hright : right < index.heap.length) :
    ∃ swapped, index.swap left right = .ok swapped ∧ Rearranged index swapped := by
  have hla := List.getElem?_eq_getElem hleft
  have hrb := List.getElem?_eq_getElem hright
  exact ⟨_, by rw [swap, hla, hrb], hconsistent.swapped hne hla hrb, by simp,
    mem_swapped hne hla hrb⟩

theorem up_rearranged (hconsistent : index.Consistent) {i : Nat} (hi : i < index.heap.length) :
    ∃ sifted j, index.up i = .ok (sifted, j) ∧ j < sifted.heap.length ∧
      Rearranged index sifted := by
  induction i using Nat.strong_induction_on generalizing index with
  | h i ih =>
      rw [up]
      by_cases hpos : 0 < i
      · have hparent : (i - 1) / 2 < i := by omega
        have hparentLt : (i - 1) / 2 < index.heap.length := by omega
        simp only [hpos, ↓reduceDIte, timerAt_of_lt hi, timerAt_of_lt hparentLt]
        by_cases hordered : index.heap[(i - 1) / 2].deadline ≤ index.heap[i].deadline
        · exact ⟨index, i, by simp [bind, Except.bind, hordered, pure, Except.pure], hi,
            .refl hconsistent⟩
        · obtain ⟨swapped, hswap, hmoved⟩ :=
            swap_rearranged hconsistent (Nat.ne_of_lt hparent) hparentLt hi
          obtain ⟨sifted, j, hup, hj, hrest⟩ :=
            ih _ hparent hmoved.consistent (by rw [hmoved.length]; exact hparentLt)
          refine ⟨sifted, j, ?_, hj, hmoved.trans hrest⟩
          simp only [bind, Except.bind, hordered, ↓reduceIte, hswap]
          exact hup
      · exact ⟨index, i, by simp [hpos, pure, Except.pure], hi, .refl hconsistent⟩

theorem child_of_lt {left : Nat} (hleft : left < index.heap.length) :
    ∃ c, index.child left = .ok c ∧ c < index.heap.length := by
  unfold child
  by_cases hright : left + 1 < index.heap.length
  · simp only [hright, ↓reduceIte, timerAt_of_lt hleft, timerAt_of_lt hright, bind, Except.bind]
    refine ⟨_, rfl, ?_⟩
    split <;> omega
  · exact ⟨left, by simp [hright, pure, Except.pure], hleft⟩

theorem down_rearranged (hconsistent : index.Consistent) {i : Nat} (hi : i < index.heap.length) :
    ∃ sifted, index.down i = .ok sifted ∧ Rearranged index sifted := by
  induction hmeasure : index.heap.length - i using Nat.strong_induction_on
    generalizing index i with
  | h measure ih =>
      rw [down]
      by_cases hleaf : index.heap.length ≤ i * 2 + 1
      · exact ⟨index, by simp [hleaf], .refl hconsistent⟩
      · obtain ⟨c, hchild, hc⟩ := @child_of_lt index (i * 2 + 1) (by omega)
        have hbounds := child_bounds hchild
        obtain ⟨swapped, hswap, hmoved⟩ :=
          @swap_rearranged _ hconsistent i c (by omega) hi hc
        have hlength := hmoved.length
        obtain ⟨sifted, hdown, hrest⟩ :=
          ih (swapped.heap.length - c) (by omega) hmoved.consistent (by omega) rfl
        by_cases hordered : index.heap[i].deadline ≤ index.heap[c].deadline
        · refine ⟨index, ?_, .refl hconsistent⟩
          simp only [hleaf, ↓reduceIte]
          split
          · next heq => rw [hchild] at heq; cases heq
          · next heq =>
              rw [hchild] at heq
              cases heq
              simp [timerAt_of_lt hi, timerAt_of_lt hc, hordered]
        · refine ⟨sifted, ?_, hmoved.trans hrest⟩
          simp only [hleaf, ↓reduceIte]
          split
          · next heq => rw [hchild] at heq; cases heq
          · next heq =>
              rw [hchild] at heq
              cases heq
              simp only [timerAt_of_lt hi, timerAt_of_lt hc, hordered, ↓reduceIte]
              split
              · next heq => rw [hswap] at heq; cases heq
              · next heq =>
                  rw [hswap] at heq
                  cases heq
                  exact hdown

theorem settle_rearranged (hconsistent : index.Consistent) {i : Nat}
    (hi : i < index.heap.length) :
    ∃ settled, index.settle i = .ok settled ∧ Rearranged index settled := by
  obtain ⟨raised, j, hup, hj, hraised⟩ := up_rearranged hconsistent hi
  obtain ⟨settled, hdown, hsettled⟩ := down_rearranged hraised.consistent hj
  exact ⟨settled, by simp [settle, hup, hdown, bind, Except.bind], hraised.trans hsettled⟩

/-! ### Setting and removing a timer -/

theorem Consistent.setDeadline (hconsistent : index.Consistent) {i : Nat} {timer : Timer}
    (htimer : index.heap[i]? = some timer) (deadline : I64) :
    Consistent { index with heap := index.heap.set i { timer with deadline } } := by
  obtain ⟨hi, -⟩ := List.getElem?_eq_some_iff.mp htimer
  constructor
  · intro j other hother
    simp only [List.getElem?_set] at hother
    by_cases hij : i = j
    · subst hij
      simp only [↓reduceIte, hi, Option.some.injEq] at hother
      subst hother
      exact hconsistent.located i timer htimer
    · simp only [hij, ↓reduceIte] at hother
      exact hconsistent.located j other hother
  · intro key j hposition
    obtain ⟨other, hother, hkey⟩ := hconsistent.held key j hposition
    simp only [List.getElem?_set]
    by_cases hij : i = j
    · subst hij
      rw [htimer, Option.some.injEq] at hother
      exact ⟨{ timer with deadline }, by simp [hi], by rw [← hkey, ← hother]⟩
    · exact ⟨other, by simpa [hij] using hother, hkey⟩

theorem Consistent.push (hconsistent : index.Consistent) {key : Bytes}
    (habsent : index.positions.lookup key = none) (deadline : I64) :
    Consistent { heap := index.heap ++ [⟨key, deadline⟩]
                 positions := index.positions.insert key index.heap.length } := by
  constructor
  · intro i timer htimer
    rcases Nat.lt_or_ge i index.heap.length with hi | hi
    · rw [List.getElem?_append_left hi] at htimer
      have hlocated := hconsistent.located i timer htimer
      have hne : timer.key ≠ key := by
        rintro rfl
        rw [habsent] at hlocated
        cases hlocated
      simp only
      rw [Finmap.lookup_insert_of_ne _ hne, hlocated]
    · rw [List.getElem?_append_right hi, List.getElem?_singleton] at htimer
      split at htimer
      · next hzero =>
          cases htimer
          simp only
          rw [Finmap.lookup_insert, Option.some.injEq]
          omega
      · cases htimer
  · intro other i hposition
    simp only at hposition
    by_cases hother : other = key
    · subst hother
      rw [Finmap.lookup_insert] at hposition
      cases hposition
      exact ⟨⟨other, deadline⟩, by simp⟩
    · rw [Finmap.lookup_insert_of_ne _ hother] at hposition
      obtain ⟨timer, htimer, hkey⟩ := hconsistent.held other i hposition
      obtain ⟨hi, -⟩ := List.getElem?_eq_some_iff.mp htimer
      exact ⟨timer, by simpa only [List.getElem?_append_left hi] using htimer, hkey⟩

/-- A consistent index accepts every deadline and holds exactly one timer for the key afterwards. -/
theorem set_spec (hconsistent : index.Consistent) (key : Bytes) (deadline : I64) :
    ∃ updated, index.set key deadline = .ok updated ∧ updated.Consistent ∧
      ∀ timer, timer ∈ updated.heap ↔
        timer = ⟨key, deadline⟩ ∨ (timer ∈ index.heap ∧ timer.key ≠ key) := by
  cases hposition : index.positions.lookup key with
  | some i =>
      obtain ⟨old, hold, rfl⟩ := hconsistent.held key i hposition
      obtain ⟨hi, hget⟩ := List.getElem?_eq_some_iff.mp hold
      obtain ⟨settled, hsettle, hrearranged⟩ :=
        settle_rearranged (hconsistent.setDeadline hold deadline) (i := i) (by simpa using hi)
      refine ⟨settled, ?_, hrearranged.consistent, ?_⟩
      · simp only [set, hposition, timerAt_of_lt hi, bind, Except.bind, hget]
        exact hsettle
      · intro timer
        rw [hrearranged.mem_iff]
        simp only [List.mem_iff_getElem?, List.getElem?_set]
        constructor
        · rintro ⟨j, hj⟩
          by_cases hij : i = j
          · subst hij
            simp only [↓reduceIte, hi, Option.some.injEq] at hj
            exact Or.inl hj.symm
          · simp only [hij, ↓reduceIte] at hj
            refine Or.inr ⟨⟨j, hj⟩, fun hkey => ?_⟩
            exact hij (hconsistent.position_unique hold hj hkey.symm)
        · rintro (rfl | ⟨⟨j, hj⟩, hkey⟩)
          · exact ⟨i, by simp [hi]⟩
          · have hij : i ≠ j := by
              rintro rfl
              rw [hold, Option.some.injEq] at hj
              exact hkey (by rw [hj])
            exact ⟨j, by simpa [hij] using hj⟩
  | none =>
      have habsent : ∀ timer ∈ index.heap, timer.key ≠ key := by
        intro timer hmem hkey
        obtain ⟨j, hj⟩ := List.mem_iff_getElem?.mp hmem
        have hlocated := hconsistent.located j timer hj
        rw [hkey, hposition] at hlocated
        cases hlocated
      obtain ⟨raised, j, hup, -, hrearranged⟩ :=
        up_rearranged (hconsistent.push hposition deadline) (i := index.heap.length) (by simp)
      refine ⟨raised, ?_, hrearranged.consistent, ?_⟩
      · simp only [set, hposition, bind, Except.bind, hup]
        rfl
      · intro timer
        rw [hrearranged.mem_iff, List.mem_append, List.mem_singleton, or_comm]
        exact or_congr Iff.rfl ⟨fun hmem => ⟨hmem, habsent timer hmem⟩, fun hmem => hmem.1⟩

theorem swapRemove_of_lt {heap : List Timer} {i : Nat} (hi : i < heap.length) :
    ∃ rest, swapRemove heap i = .ok rest ∧ rest.length = heap.length - 1 ∧
      ∀ j, rest[j]? = if j < heap.length - 1 then
        (if j = i then heap[heap.length - 1]? else heap[j]?) else none := by
  have hlast : heap.getLast? = some heap[heap.length - 1] := by
    rw [List.getLast?_eq_getElem?, List.getElem?_eq_getElem]
  refine ⟨_, by rw [swapRemove, List.getElem?_eq_getElem hi, hlast], by simp, ?_⟩
  intro j
  rw [List.getElem?_dropLast, List.length_set, List.getElem?_set]
  split
  · by_cases hji : i = j
    · subst hji
      simp
    · simp [hji, Ne.symm hji]
  · rfl

section

variable {key : Bytes} {i : Nat} {rest : List Timer}

/-- The timers left after the one at `i` made room for the last one. -/
theorem Consistent.mem_swapRemove (hconsistent : index.Consistent)
    (hposition : index.positions.lookup key = some i)
    (hget : ∀ j, rest[j]? = if j < index.heap.length - 1 then
      (if j = i then index.heap[index.heap.length - 1]? else index.heap[j]?) else none)
    (timer : Timer) : timer ∈ rest ↔ timer ∈ index.heap ∧ timer.key ≠ key := by
  obtain ⟨old, hold, rfl⟩ := hconsistent.held key i hposition
  obtain ⟨hi, -⟩ := List.getElem?_eq_some_iff.mp hold
  have hkey : ∀ j other, index.heap[j]? = some other → (other.key ≠ old.key ↔ j ≠ i) := by
    intro j other hother
    refine not_congr ⟨hconsistent.position_unique hother hold, ?_⟩
    rintro rfl
    rw [hold, Option.some.injEq] at hother
    rw [hother]
  simp only [List.mem_iff_getElem?, hget]
  constructor
  · rintro ⟨j, hj⟩
    split at hj
    · split at hj
      · exact ⟨⟨_, hj⟩, (hkey _ _ hj).mpr (by omega)⟩
      · exact ⟨⟨_, hj⟩, (hkey _ _ hj).mpr (by omega)⟩
    · cases hj
  · rintro ⟨⟨j, hj⟩, hne⟩
    have hji := (hkey j timer hj).mp hne
    obtain ⟨hjlt, -⟩ := List.getElem?_eq_some_iff.mp hj
    by_cases hjlast : j = index.heap.length - 1
    · exact ⟨i, by rw [if_pos (by omega), if_pos rfl, ← hjlast, hj]⟩
    · exact ⟨j, by rw [if_pos (by omega), if_neg hji, hj]⟩

/-- Once the moved timer's position is written, positions and heap agree again. -/
theorem Consistent.afterSwapRemove (hconsistent : index.Consistent)
    (hposition : index.positions.lookup key = some i)
    (hget : ∀ j, rest[j]? = if j < index.heap.length - 1 then
      (if j = i then index.heap[index.heap.length - 1]? else index.heap[j]?) else none)
    (positions : Finmap fun _ : Bytes => Nat)
    (hpositions : ∀ other, positions.lookup other =
      if ∃ moved, rest[i]? = some moved ∧ moved.key = other then some i
      else if other = key then none else index.positions.lookup other) :
    Consistent { heap := rest, positions } := by
  obtain ⟨old, hold, rfl⟩ := hconsistent.held key i hposition
  obtain ⟨hi, -⟩ := List.getElem?_eq_some_iff.mp hold
  constructor
  · intro j timer htimer
    simp only at htimer ⊢
    rw [hpositions]
    by_cases hji : j = i
    · subst hji
      rw [if_pos ⟨timer, htimer, rfl⟩]
    · have hj := htimer
      rw [hget] at hj
      split at hj
      · next hlt =>
          rw [if_neg, if_neg, hconsistent.located j timer hj]
          · exact fun hkey => hji (hconsistent.position_unique hj hold hkey)
          · rintro ⟨moved, hmoved, hkey⟩
            rw [hget] at hmoved
            split at hmoved
            · rw [if_pos rfl] at hmoved
              have := hconsistent.position_unique hj hmoved hkey.symm
              omega
            · cases hmoved
      · cases hj
  · intro other j hother
    simp only at hother ⊢
    rw [hpositions] at hother
    split at hother
    · next hmoved =>
        cases hother
        exact hmoved
    · next hnotMoved =>
        split at hother
        · cases hother
        · next hne =>
            obtain ⟨timer, htimer, hkey⟩ := hconsistent.held other j hother
            obtain ⟨hjlt, -⟩ := List.getElem?_eq_some_iff.mp htimer
            have hji : j ≠ i := by
              rintro rfl
              rw [hold, Option.some.injEq] at htimer
              exact hne (by rw [← hkey, htimer])
            have hjlast : j ≠ index.heap.length - 1 := by
              rintro rfl
              refine hnotMoved ⟨timer, ?_, hkey⟩
              rw [hget, if_pos (by omega), if_pos rfl, htimer]
            exact ⟨timer, by rw [hget, if_pos (by omega), if_neg hji, htimer], hkey⟩

/-- The moved timer's position is written over the removed one's. -/
theorem Consistent.afterMove (hconsistent : index.Consistent)
    (hposition : index.positions.lookup key = some i)
    (hget : ∀ j, rest[j]? = if j < index.heap.length - 1 then
      (if j = i then index.heap[index.heap.length - 1]? else index.heap[j]?) else none)
    (hmoved : i < rest.length) :
    Consistent { heap := rest
                 positions := (index.positions.erase key).insert rest[i].key i } := by
  refine hconsistent.afterSwapRemove hposition hget _ fun other => ?_
  by_cases hother : rest[i].key = other
  · rw [if_pos ⟨rest[i], List.getElem?_eq_getElem hmoved, hother⟩, ← hother,
      Finmap.lookup_insert]
  · rw [if_neg, Finmap.lookup_insert_of_ne _ (Ne.symm hother)]
    · by_cases hkey : other = key
      · rw [hkey, Finmap.lookup_erase, if_pos rfl]
      · rw [Finmap.lookup_erase_ne hkey, if_neg hkey]
    · rintro ⟨moved, hget', hkey⟩
      rw [List.getElem?_eq_getElem hmoved, Option.some.injEq] at hget'
      exact hother (hget' ▸ hkey)

end

/-- Removing a key from a consistent index drops its timer, if it has one, and no other. -/
theorem remove_spec (hconsistent : index.Consistent) (key : Bytes) :
    ∃ updated, index.remove key = .ok updated ∧ updated.Consistent ∧
      ∀ timer, timer ∈ updated.heap ↔ timer ∈ index.heap ∧ timer.key ≠ key := by
  cases hposition : index.positions.lookup key with
  | none =>
      refine ⟨index, by simp [remove, hposition], hconsistent, fun timer => ?_⟩
      refine ⟨fun hmem => ⟨hmem, ?_⟩, fun hmem => hmem.1⟩
      rintro rfl
      obtain ⟨j, hj⟩ := List.mem_iff_getElem?.mp hmem
      have hlocated := hconsistent.located j timer hj
      rw [hposition] at hlocated
      cases hlocated
  | some i =>
      obtain ⟨old, hold, -⟩ := hconsistent.held key i hposition
      obtain ⟨hi, -⟩ := List.getElem?_eq_some_iff.mp hold
      obtain ⟨rest, hrest, hlength, hget⟩ := swapRemove_of_lt hi
      have hmem := hconsistent.mem_swapRemove hposition hget
      by_cases hmoved : i < rest.length
      · have hconsistent' := hconsistent.afterMove hposition hget hmoved
        obtain ⟨settled, hsettle, hrearranged⟩ := settle_rearranged hconsistent' hmoved
        refine ⟨settled, ?_, hrearranged.consistent, fun timer => ?_⟩
        · have htimer := @timerAt_of_lt ⟨rest, index.positions.erase key⟩ _ hmoved
          simp only [remove, hposition, hrest, bind, Except.bind, hmoved, ↓reduceIte, htimer]
          exact hsettle
        · rw [hrearranged.mem_iff]
          exact hmem timer
      · refine ⟨⟨rest, index.positions.erase key⟩, ?_, ?_, hmem⟩
        · simp [remove, hposition, hrest, bind, Except.bind, hmoved, pure, Except.pure]
        · refine hconsistent.afterSwapRemove hposition hget _ fun other => ?_
          rw [if_neg (by simp [List.getElem?_eq_none (Nat.le_of_not_lt hmoved)])]
          by_cases hkey : other = key
          · rw [hkey, Finmap.lookup_erase, if_pos rfl]
          · rw [Finmap.lookup_erase_ne hkey, if_neg hkey]

/-! ### Counting timers -/

theorem Consistent.nodup_keys (hconsistent : index.Consistent) :
    (index.heap.map Timer.key).Nodup := by
  rw [List.nodup_iff_injective_getElem]
  intro i j hij
  have hi : (i : Nat) < index.heap.length := by simpa using i.isLt
  have hj : (j : Nat) < index.heap.length := by simpa using j.isLt
  simp only [List.getElem_map] at hij
  exact Fin.ext (hconsistent.position_unique (List.getElem?_eq_getElem hi)
    (List.getElem?_eq_getElem hj) hij)

theorem Consistent.length_eq_card (hconsistent : index.Consistent) {keys : Finset Bytes}
    (hkeys : ∀ key, key ∈ keys ↔ ∃ timer ∈ index.heap, timer.key = key) :
    index.heap.length = keys.card := by
  have hset : keys = (index.heap.map Timer.key).toFinset := by
    ext key
    simp [hkeys]
  rw [hset, List.toFinset_card_of_nodup hconsistent.nodup_keys, List.length_map]

theorem Consistent.length_le_card (hconsistent : index.Consistent) {keys : Finset Bytes}
    (hkeys : ∀ timer ∈ index.heap, timer.key ∈ keys) : index.heap.length ≤ keys.card := by
  have hsubset : (index.heap.map Timer.key).toFinset ⊆ keys := by
    intro key hkey
    simp only [List.mem_toFinset, List.mem_map] at hkey
    obtain ⟨timer, hmem, rfl⟩ := hkey
    exact hkeys timer hmem
  calc index.heap.length
      = (index.heap.map Timer.key).toFinset.card := by
        rw [List.toFinset_card_of_nodup hconsistent.nodup_keys, List.length_map]
    _ ≤ keys.card := Finset.card_le_card hsubset

end

end Recall.ExpiryIndex
