import Recall.Lib.HeapOrder
import Recall.Lib.FiniteMap
import Recall.Proof.ExpiryIndex

/-!
# The expiry index is a heap

Setting and removing a timer keep the order of the heap, so the timer at the root is due first.
-/

namespace Recall.ExpiryIndex

open HeapOrder

/-- The deadline at a node. -/
def weight (index : ExpiryIndex) (i : Nat) : I64 := index.heap[i]?.elim 0 Timer.deadline

/-- Positions and heap agree, and no timer is due before its parent. -/
structure Sound (index : ExpiryIndex) : Prop where
  consistent : index.Consistent
  ordered : Ordered index.weight index.heap.length

theorem sound_empty : empty.Sound :=
  ⟨consistent_empty, fun j _ hj => absurd hj (Nat.not_lt_zero j)⟩

variable {index sifted : ExpiryIndex} {i j : Nat}

theorem weight_of_lt (hi : i < index.heap.length) : index.weight i = index.heap[i].deadline := by
  rw [weight, List.getElem?_eq_getElem hi]
  rfl

/-! ### Sifting -/

theorem swap_weight {left right : Nat} (hleft : left < index.heap.length)
    (hright : right < index.heap.length) :
    ∃ swapped, index.swap left right = .ok swapped ∧
      swapped.heap.length = index.heap.length ∧
      swapped.weight = index.weight ∘ Equiv.swap left right := by
  have hla := List.getElem?_eq_getElem hleft
  have hrb := List.getElem?_eq_getElem hright
  refine ⟨_, by rw [swap, hla, hrb], by simp, ?_⟩
  funext i
  simp only [weight, Function.comp_apply, getElem?_swapped hla hrb]
  by_cases hir : i = right
  · subst hir
    simp [hla]
  · by_cases hil : i = left
    · subst hil
      simp [hir, hrb]
    · rw [Equiv.swap_apply_of_ne_of_ne hil hir, if_neg hir, if_neg hil]

theorem up_ordered (hup : index.up i = .ok (sifted, j)) (hi : i < index.heap.length)
    (hbut : OrderedBut index.weight index.heap.length i) :
    OrderedBut sifted.weight sifted.heap.length j ∧ Above sifted.weight j ∧
      (Below index.weight index.heap.length i → Below sifted.weight sifted.heap.length j) := by
  induction i using Nat.strong_induction_on generalizing index with
  | h i ih =>
      rw [up] at hup
      by_cases hpos : 0 < i
      · have hparent : (i - 1) / 2 < index.heap.length := by omega
        simp only [hpos, ↓reduceDIte, timerAt_of_lt hi, timerAt_of_lt hparent, bind,
          Except.bind] at hup
        by_cases hordered : index.heap[(i - 1) / 2].deadline ≤ index.heap[i].deadline
        · simp only [hordered, ↓reduceIte] at hup
          cases hup
          refine ⟨hbut, fun _ => ?_, id⟩
          rwa [weight_of_lt hi, weight_of_lt hparent]
        · obtain ⟨swapped, hswap, hlength, hweight⟩ := swap_weight hparent hi
          simp only [hordered, ↓reduceIte, hswap] at hup
          have hlighter : index.weight i < index.weight ((i - 1) / 2) := by
            rw [weight_of_lt hi, weight_of_lt hparent]
            exact not_le.mp hordered
          have hraised := hbut.raise hpos hi hlighter
          rw [← hweight, ← hlength] at hraised
          obtain ⟨hrest, habove, hbelow⟩ := ih _ (by omega) hup (by omega) hraised.1
          exact ⟨hrest, habove, fun _ => hbelow hraised.2⟩
      · simp only [hpos, ↓reduceDIte] at hup
        cases hup
        exact ⟨hbut, fun h => absurd h hpos, id⟩

theorem child_lightest {c : Nat} (hchild : index.child (i * 2 + 1) = .ok c)
    (hleft : i * 2 + 1 < index.heap.length) {j : Nat} (hpos : 0 < j)
    (hj : j < index.heap.length) (hparent : (j - 1) / 2 = i) : index.weight c ≤ index.weight j := by
  unfold child at hchild
  by_cases hright : i * 2 + 1 + 1 < index.heap.length
  · simp only [hright, ↓reduceIte, timerAt_of_lt hleft, timerAt_of_lt hright, bind,
      Except.bind] at hchild
    cases hchild
    have hjs : j = i * 2 + 1 ∨ j = i * 2 + 1 + 1 := by omega
    split
    · next hlighter =>
        rcases hjs with rfl | rfl
        · rw [weight_of_lt hleft, weight_of_lt hright]
          exact hlighter.le
        · exact le_rfl
    · next hlighter =>
        rcases hjs with rfl | rfl
        · exact le_rfl
        · rw [weight_of_lt hleft, weight_of_lt hright]
          exact not_lt.mp hlighter
  · simp only [hright, ↓reduceIte] at hchild
    cases hchild
    obtain rfl : j = i * 2 + 1 := by omega
    exact le_rfl

theorem down_ordered (hdown : index.down i = .ok sifted) (hi : i < index.heap.length)
    (hbut : OrderedBut index.weight index.heap.length i) (habove : Above index.weight i) :
    Ordered sifted.weight sifted.heap.length := by
  induction hmeasure : index.heap.length - i using Nat.strong_induction_on
    generalizing index i with
  | h measure ih =>
      rw [down] at hdown
      by_cases hleaf : index.heap.length ≤ i * 2 + 1
      · simp only [hleaf, ↓reduceIte] at hdown
        cases hdown
        exact hbut.ordered habove fun j hpos hj hparent => by omega
      · obtain ⟨c, hchild, hc⟩ := @child_of_lt index (i * 2 + 1) (by omega)
        have hbounds := child_bounds hchild
        have hlightest : ∀ j, 0 < j → j < index.heap.length → (j - 1) / 2 = i →
            index.weight c ≤ index.weight j :=
          fun j hpos hj hparent => child_lightest hchild (by omega) hpos hj hparent
        simp only [hleaf, ↓reduceIte] at hdown
        split at hdown
        · next heq =>
            rw [hchild] at heq
            cases heq
        · next heq =>
            rw [hchild] at heq
            cases heq
            simp only [timerAt_of_lt hi, timerAt_of_lt hc] at hdown
            by_cases hordered : index.heap[i].deadline ≤ index.heap[c].deadline
            · simp only [hordered, ↓reduceIte] at hdown
              cases hdown
              refine hbut.ordered habove fun j hpos hj hparent => ?_
              calc sifted.weight i ≤ sifted.weight c := by
                    rwa [weight_of_lt hi, weight_of_lt hc]
                _ ≤ sifted.weight j := hlightest j hpos hj hparent
            · simp only [hordered, ↓reduceIte] at hdown
              obtain ⟨swapped, hswap, hlength, hweight⟩ := swap_weight hi hc
              have hlighter : index.weight c < index.weight i := by
                rw [weight_of_lt hi, weight_of_lt hc]
                exact not_le.mp hordered
              have hlowered := hbut.lower (by omega) hc (by omega) hlightest hlighter
              rw [← hweight, ← hlength] at hlowered
              split at hdown
              · next heq =>
                  rw [hswap] at heq
                  cases heq
              · next heq =>
                  rw [hswap] at heq
                  cases heq
                  exact ih _ (by omega) hdown (by omega) hlowered.1 hlowered.2 rfl

theorem settle_ordered (hsettle : index.settle i = .ok sifted) (hconsistent : index.Consistent)
    (hi : i < index.heap.length) (hbut : OrderedBut index.weight index.heap.length i) :
    Ordered sifted.weight sifted.heap.length := by
  obtain ⟨raised, j, hup, hj, -⟩ := up_rearranged hconsistent hi
  obtain ⟨hrest, habove, -⟩ := up_ordered hup hi hbut
  simp only [settle, hup, bind, Except.bind] at hsettle
  exact down_ordered hsettle hj hrest habove

/-! ### Setting and removing a timer -/

theorem set_sound (h : index.Sound) {key : Bytes} {deadline : I64} {updated : ExpiryIndex}
    (hset : index.set key deadline = .ok updated) : updated.Sound := by
  obtain ⟨updated', hset', hconsistent, -⟩ := set_spec h.consistent key deadline
  rw [hset, Except.ok.injEq] at hset'
  subst hset'
  refine ⟨hconsistent, ?_⟩
  cases hposition : index.positions.lookup key with
  | some i =>
      obtain ⟨old, hold, -⟩ := h.consistent.held key i hposition
      obtain ⟨hi, hget⟩ := List.getElem?_eq_some_iff.mp hold
      simp only [set, hposition, timerAt_of_lt hi, bind, Except.bind, hget] at hset
      refine settle_ordered hset (h.consistent.setDeadline hold deadline) (by simpa using hi) ?_
      simp only [List.length_set]
      refine (h.ordered.but i).of_eq fun j _ hne => ?_
      simp [weight, Ne.symm hne]
  | none =>
      obtain ⟨raised, j, hup, -, -⟩ := up_rearranged (h.consistent.push hposition deadline)
        (i := index.heap.length) (by simp)
      simp only [set, hposition, bind, Except.bind, hup] at hset
      cases hset
      obtain ⟨hrest, habove, hbelow⟩ := up_ordered hup (by simp) (by
        simp only [List.length_append, List.length_singleton]
        refine h.ordered.push.of_eq fun j hj hne => ?_
        have hlt : j < index.heap.length := by omega
        simp [weight, List.getElem?_append_left hlt])
      refine hrest.ordered habove (hbelow fun j _ hj hparent => ?_)
      simp only [List.length_append, List.length_singleton] at hj
      omega

theorem remove_sound (h : index.Sound) {key : Bytes} {updated : ExpiryIndex}
    (hremove : index.remove key = .ok updated) : updated.Sound := by
  obtain ⟨updated', hremove', hconsistent, -⟩ := remove_spec h.consistent key
  rw [hremove, Except.ok.injEq] at hremove'
  subst hremove'
  refine ⟨hconsistent, ?_⟩
  cases hposition : index.positions.lookup key with
  | none =>
      simp only [remove, hposition] at hremove
      cases hremove
      exact h.ordered
  | some i =>
      obtain ⟨old, hold, -⟩ := h.consistent.held key i hposition
      obtain ⟨hi, -⟩ := List.getElem?_eq_some_iff.mp hold
      obtain ⟨rest, hrest, hlength, hget⟩ := swapRemove_of_lt hi
      have hweight : ∀ positions, ∀ j < rest.length, j ≠ i →
          weight ⟨rest, positions⟩ j = index.weight j := by
        intro positions j hj hne
        rw [weight, hget, if_pos (by omega), if_neg hne]
        rfl
      have hshrunk : Ordered index.weight rest.length := h.ordered.mono (by omega)
      simp only [remove, hposition, hrest, bind, Except.bind] at hremove
      by_cases hmoved : i < rest.length
      · have htimer := @timerAt_of_lt ⟨rest, index.positions.erase key⟩ _ hmoved
        simp only [hmoved, ↓reduceIte, htimer] at hremove
        refine settle_ordered hremove ?_ hmoved ((hshrunk.but i).of_eq (hweight _))
        exact h.consistent.afterMove hposition hget hmoved
      · simp only [hmoved, ↓reduceIte] at hremove
        cases hremove
        intro j hpos hj
        simp only at hj
        rw [hweight _ j hj (by omega), hweight _ _ (by omega) (by omega)]
        exact hshrunk j hpos hj

/-! ### The first timer -/

theorem expired_eq_some {nowMs : I64} {key : Bytes} (hexpired : index.expired nowMs = some key) :
    ∃ timer, index.heap.head? = some timer ∧ timer.deadline ≤ nowMs ∧ timer.key = key := by
  obtain ⟨timer, hfilter, hkey⟩ := Option.map_eq_some_iff.mp hexpired
  obtain ⟨hhead, hdue⟩ := Option.filter_eq_some_iff.mp hfilter
  exact ⟨timer, hhead, of_decide_eq_true hdue, hkey⟩

/-- No timer is due before the one at the root. -/
theorem Sound.root_le (h : index.Sound) {root timer : Timer} (hroot : index.heap.head? = some root)
    (htimer : timer ∈ index.heap) : root.deadline ≤ timer.deadline := by
  obtain ⟨j, hj⟩ := List.mem_iff_getElem?.mp htimer
  obtain ⟨hlt, rfl⟩ := List.getElem?_eq_some_iff.mp hj
  have hpos : 0 < index.heap.length := by omega
  have hle := h.ordered.root_le hlt
  rw [weight_of_lt hlt, weight_of_lt hpos] at hle
  rw [List.head?_eq_getElem?, List.getElem?_eq_getElem hpos, Option.some.injEq] at hroot
  rwa [← hroot]

theorem Sound.expired_eq_none (h : index.Sound) {nowMs : I64} :
    index.expired nowMs = none ↔ ∀ timer ∈ index.heap, nowMs < timer.deadline := by
  unfold expired
  rw [Option.map_eq_none_iff, Option.filter_eq_none_iff]
  constructor
  · intro hnone timer htimer
    obtain ⟨root, hroot⟩ : ∃ root, index.heap.head? = some root := by
      cases hheap : index.heap with
      | nil => simp [hheap] at htimer
      | cons root rest => exact ⟨root, rfl⟩
    calc nowMs < root.deadline := by simpa using hnone root hroot
      _ ≤ timer.deadline := h.root_le hroot htimer
  · intro hlater root hroot
    simpa using hlater root (List.mem_of_mem_head? hroot)

/-! ### A map with a minimum -/

inductive Change where
  | set (key : Bytes) (deadline : I64)
  | remove (key : Bytes)

def change (index : ExpiryIndex) : Change → Except Panic ExpiryIndex
  | .set key deadline => index.set key deadline
  | .remove key => index.remove key

/-- The index after a sequence of changes. -/
def changed (index : ExpiryIndex) (changes : List Change) : Except Panic ExpiryIndex :=
  changes.foldlM change index

abbrev Deadlines := Finmap fun _ : Bytes => I64

def Deadlines.change (deadlines : Deadlines) : Change → Deadlines
  | .set key deadline => deadlines.insert key deadline
  | .remove key => deadlines.erase key

/-- The map a sequence of changes describes. -/
def deadlinesOf (changes : List Change) : Deadlines := changes.foldl Deadlines.change ∅

structure Represents (index : ExpiryIndex) (deadlines : Deadlines) : Prop where
  sound : index.Sound
  mem_iff : ∀ timer, timer ∈ index.heap ↔ deadlines.lookup timer.key = some timer.deadline

variable {deadlines : Deadlines}

theorem Represents.change (h : Represents index deadlines) (change : Change) :
    ∃ updated, index.change change = .ok updated ∧
      Represents updated (deadlines.change change) := by
  cases change with
  | set key deadline =>
      obtain ⟨updated, hset, -, hmem⟩ := set_spec h.sound.consistent key deadline
      refine ⟨updated, hset, set_sound h.sound hset, fun timer => ?_⟩
      rw [hmem, h.mem_iff, Deadlines.change]
      by_cases hkey : timer.key = key
      · rw [hkey, Finmap.lookup_insert, Option.some.injEq, Timer.mk.injEq]
        simp [hkey, eq_comm]
      · have hne : timer ≠ ⟨key, deadline⟩ := fun heq => hkey (by rw [heq])
        rw [Finmap.lookup_insert_of_ne _ hkey]
        simp [hne, hkey]
  | remove key =>
      obtain ⟨updated, hremove, -, hmem⟩ := remove_spec h.sound.consistent key
      refine ⟨updated, hremove, remove_sound h.sound hremove, fun timer => ?_⟩
      rw [hmem, h.mem_iff, Deadlines.change]
      by_cases hkey : timer.key = key
      · rw [hkey, Finmap.lookup_erase]
        simp
      · rw [Finmap.lookup_erase_ne hkey]
        simp [hkey]

theorem Represents.changed (h : Represents index deadlines) (changes : List Change) :
    ∃ updated, index.changed changes = .ok updated ∧
      Represents updated (changes.foldl Deadlines.change deadlines) := by
  induction changes generalizing index deadlines with
  | nil => exact ⟨index, rfl, h⟩
  | cons change changes ih =>
      obtain ⟨next, hchange, hnext⟩ := h.change change
      obtain ⟨updated, hchanged, hupdated⟩ := ih hnext
      refine ⟨updated, ?_, hupdated⟩
      simp only [ExpiryIndex.changed, List.foldlM_cons, hchange, bind, Except.bind]
      exact hchanged

theorem represents_empty : Represents empty ∅ := by
  refine ⟨sound_empty, fun timer => ?_⟩
  rw [Finmap.lookup_empty]
  exact iff_of_false List.not_mem_nil (by simp)

theorem Represents.len (h : Represents index deadlines) : index.len = deadlines.size := by
  rw [Finmap.size_eq_card_keys]
  refine h.sound.consistent.length_eq_card fun key => ?_
  rw [Finmap.mem_keys, ← Finmap.lookup_isSome, Option.isSome_iff_exists]
  constructor
  · rintro ⟨deadline, hlookup⟩
    exact ⟨⟨key, deadline⟩, (h.mem_iff _).mpr hlookup, rfl⟩
  · rintro ⟨timer, hmem, rfl⟩
    exact ⟨timer.deadline, (h.mem_iff timer).mp hmem⟩

theorem Represents.expired_eq_none (h : Represents index deadlines) {nowMs : I64} :
    index.expired nowMs = none ↔
      ∀ key deadline, deadlines.lookup key = some deadline → nowMs < deadline := by
  rw [h.sound.expired_eq_none]
  constructor
  · intro hlater key deadline hlookup
    exact hlater ⟨key, deadline⟩ ((h.mem_iff _).mpr hlookup)
  · intro hlater timer hmem
    exact hlater timer.key timer.deadline ((h.mem_iff timer).mp hmem)

theorem Represents.expired_minimal (h : Represents index deadlines) {nowMs : I64} {key : Bytes}
    (hexpired : index.expired nowMs = some key) :
    ∃ deadline, deadlines.lookup key = some deadline ∧ deadline ≤ nowMs ∧
      ∀ other later, deadlines.lookup other = some later → deadline ≤ later := by
  obtain ⟨root, hroot, hdue, rfl⟩ := expired_eq_some hexpired
  refine ⟨root.deadline, (h.mem_iff root).mp (List.mem_of_mem_head? hroot), hdue, ?_⟩
  intro other later hlookup
  exact h.sound.root_le hroot ((h.mem_iff ⟨other, later⟩).mpr hlookup)

/-- Any sequence of changes succeeds, and the index it leaves stands for the map it describes. -/
theorem refines_deadlines (changes : List Change) :
    ∃ index, empty.changed changes = .ok index ∧
      (index.heap.map Timer.key).Nodup ∧
      (∀ key i, index.positions.lookup key = some i ↔
        ∃ timer, index.heap[i]? = some timer ∧ timer.key = key) ∧
      (∀ i timer above, 0 < i → index.heap[i]? = some timer →
        index.heap[(i - 1) / 2]? = some above → above.deadline ≤ timer.deadline) ∧
      (∀ key deadline, ⟨key, deadline⟩ ∈ index.heap ↔
        (deadlinesOf changes).lookup key = some deadline) ∧
      (∀ key, (deadlinesOf changes).lookup key = none → index.remove key = .ok index) ∧
      index.len = (deadlinesOf changes).size ∧
      ∀ nowMs,
        ((∃ key deadline, (deadlinesOf changes).lookup key = some deadline ∧ deadline ≤ nowMs) →
          ∃ key deadline, index.expired nowMs = some key ∧
            (deadlinesOf changes).lookup key = some deadline ∧
            ∀ other later, (deadlinesOf changes).lookup other = some later → deadline ≤ later) ∧
        (index.expired nowMs = none ↔
          ∀ key deadline, (deadlinesOf changes).lookup key = some deadline → nowMs < deadline) := by
  obtain ⟨index, hchanged, h⟩ := represents_empty.changed changes
  have hconsistent := h.sound.consistent
  refine ⟨index, hchanged, hconsistent.nodup_keys, fun key i => ⟨hconsistent.held key i, ?_⟩, ?_,
    fun key deadline => h.mem_iff ⟨key, deadline⟩, fun key habsent => ?_, h.len,
    fun nowMs => ⟨?_, h.expired_eq_none⟩⟩
  · rintro ⟨timer, htimer, rfl⟩
    exact hconsistent.located i timer htimer
  · intro i timer above hpos htimer habove
    obtain ⟨hi, -⟩ := List.getElem?_eq_some_iff.mp htimer
    have hle := h.sound.ordered i hpos hi
    rwa [weight, weight, htimer, habove] at hle
  · have hposition : index.positions.lookup key = none := by
      rw [Option.eq_none_iff_forall_ne_some]
      intro i hi
      obtain ⟨timer, htimer, rfl⟩ := hconsistent.held key i hi
      rw [deadlinesOf, (h.mem_iff timer).mp (List.mem_of_getElem? htimer)] at habsent
      cases habsent
    simp [remove, hposition]
  · rintro ⟨key, deadline, hlookup, hdue⟩
    cases hexpired : index.expired nowMs with
    | none => exact absurd hdue (not_le.mpr (h.expired_eq_none.mp hexpired key deadline hlookup))
    | some first =>
        obtain ⟨earliest, hfirst, -, hleast⟩ := h.expired_minimal hexpired
        exact ⟨first, earliest, rfl, hfirst, hleast⟩

end Recall.ExpiryIndex
