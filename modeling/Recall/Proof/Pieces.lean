import Recall.Proof.Routing
import Recall.Proof.Footprint
import Recall.Proof.Reply

/-!
# The pieces of a cross-owner operation

The parts of a cross-owner operation evaluate to pieces of what one shard that holds every key
evaluates to.
-/

namespace Recall

open Shard

variable {n : Nat} {route : Bytes → Fin n}

theorem mem_share {keys : List Bytes} {o : Fin n} {key : Bytes} :
    key ∈ share route keys o ↔ key ∈ keys ∧ route key = o := by
  simp [share]

/-- The single shard has the entries of the owners. -/
def Merges (route : Bytes → Fin n) (shards : Shards n) (single : Shard) : Prop :=
  ∀ key, (shards (route key)).entries.lookup key = single.entries.lookup key

theorem Merges.of_mem_share {shards : Shards n} {single : Shard}
    (hmerges : Merges route shards single) {keys : List Bytes} {o : Fin n} {key : Bytes}
    (hkey : key ∈ share route keys o) :
    (shards o).entries.lookup key = single.entries.lookup key := by
  rw [← (mem_share.mp hkey).2]
  exact hmerges key

/-! ### Counting -/

theorem deleteAll_fst (shard : Shard) (nowMs : I64) (keys : List Bytes) (removed : Nat)
    (effects : Effects) :
    (shard.deleteAll nowMs keys removed effects).1 =
      removed + (keys.toFinset.filter fun key =>
        key ∉ effects ∧ (shard.live nowMs key).isSome).card := by
  induction keys generalizing removed effects with
  | nil => simp [deleteAll]
  | cons key keys ih =>
      rw [deleteAll, List.toFinset_cons]
      by_cases hmem : key ∈ effects
      · rw [if_pos hmem, ih, Finset.filter_insert, if_neg (fun h => h.1 hmem)]
      · simp only [if_neg hmem, observe_eq]
        -- The key leaves the set counted below and is counted here if it is live.
        have hrest : (keys.toFinset.filter fun other =>
            other ∉ (shard.sweep nowMs key effects).insert key none ∧
              (shard.live nowMs other).isSome) =
            ((insert key keys.toFinset).filter fun other =>
              other ∉ effects ∧ (shard.live nowMs other).isSome).erase key := by
          ext other
          have hswept : other ∈ shard.sweep nowMs key effects ↔
              (other = key ∧ shard.stale nowMs key) ∨ other ∈ effects := by
            unfold sweep
            split <;> simp_all
          simp only [Finset.mem_filter, Finset.mem_erase, Finset.mem_insert, AList.mem_insert,
            hswept]
          tauto
        rw [ih, hrest]
        by_cases hlive : (shard.live nowMs key).isSome
        · have hin : key ∈ (insert key keys.toFinset).filter fun other =>
              other ∉ effects ∧ (shard.live nowMs other).isSome := by
            simp [hmem, hlive]
          rw [if_pos hlive, Finset.card_erase_of_mem hin]
          have hpos := Finset.card_pos.mpr ⟨key, hin⟩
          omega
        · have hout : key ∉ (insert key keys.toFinset).filter fun other =>
              other ∉ effects ∧ (shard.live nowMs other).isSome := by
            simp [hlive]
          rw [if_neg hlive, Finset.erase_eq_of_notMem hout]

theorem sum_share (make : List Bytes → Operation) (keys : List Bytes) {weight : List Bytes → Nat}
    (hweight : weight [] = 0) :
    ((splitKeys route make keys).map fun part => weight (share route keys part.owner)).sum =
      ∑ o, weight (share route keys o) := by
  have hfst : ∀ o, ((keys.zipIdx.filter fun item => route item.1 = o).map Prod.fst) =
      share route keys o := fun o => zipIdx_filter_fst (fun key => decide (route key = o)) keys 0
  have hparts : ((splitKeys route make keys).map fun part =>
      weight (share route keys part.owner)) =
      (grouped (fun item => route item.1) keys.zipIdx).map fun group =>
        weight (group.2.map Prod.fst) := by
    rw [splitKeys, List.map_map]
    apply List.map_congr_left
    intro group hgroup
    rw [(mem_grouped.mp hgroup).1, hfst]
    rfl
  rw [hparts, @sum_grouped n _ (fun item : Bytes × Nat => route item.1) keys.zipIdx
    (fun items => weight (items.map Prod.fst)) hweight]
  simp only [hfst]

theorem sum_length_share (keys : List Bytes) (p : Bytes → Bool) :
    ∑ o, ((share route keys o).filter p).length = (keys.filter p).length := by
  induction keys with
  | nil => simp [share]
  | cons key keys ih =>
      have hcons : ∀ o, ((share route (key :: keys) o).filter p).length =
          (if route key = o then if p key then 1 else 0 else 0) +
            ((share route keys o).filter p).length := by
        intro o
        by_cases ho : route key = o
        · cases hp : p key with
          | true =>
              simp [share, ho, hp]
              omega
          | false => simp [share, ho, hp]
        · simp [share, ho]
      simp only [hcons, Finset.sum_add_distrib, ih, Finset.sum_ite_eq, Finset.mem_univ, if_true]
      cases hp : p key with
      | true =>
          simp [hp]
          omega
      | false => simp [hp]

theorem sum_card_share (keys : List Bytes) (p : Bytes → Prop) [DecidablePred p] :
    ∑ o, ((share route keys o).toFinset.filter p).card = (keys.toFinset.filter p).card := by
  have hfiber : ∀ o, ((share route keys o).toFinset.filter p) =
      (keys.toFinset.filter p).filter fun key => route key = o := by
    intro o
    ext key
    simp only [Finset.mem_filter, List.mem_toFinset, mem_share]
    tauto
  simp only [hfiber]
  exact (Finset.card_eq_sum_card_fiberwise fun key _ => Finset.mem_univ (route key)).symm

/-! ### Pieces -/

/-- What the parts of a cross-owner operation evaluate to, against the whole operation. -/
structure Pieces (route : Bytes → Fin n) (shards : Shards n) (nowMs : I64) (maxReplyBytes : Nat)
    (operation : Operation) (parts : List (Part n)) (reply : Reply) (effects : Effects) where
  respond : Part n → Reply
  touched : Part n → Effects
  evaluate : ∀ part ∈ parts,
    (shards part.owner).evaluate part.operation nowMs = .ok (respond part, touched part)
  lookup : ∀ part ∈ parts, ∀ key, (touched part).lookup key =
    if route key = part.owner then effects.lookup key else none
  covered : ∀ key entry, effects.lookup key = some entry → ∃ part ∈ parts, part.owner = route key
  exceeds : ∀ part ∈ parts, (respond part).exceeds maxReplyBytes = true →
    reply.exceeds maxReplyBytes = true
  combine : Recall.combine operation parts (parts.map respond) = .ok reply
  nodup : (parts.map Part.owner).Nodup

variable {shards : Shards n} {single : Shard} {nowMs : I64} {maxReplyBytes : Nat}

theorem covered_of_mem {make : List Bytes → Operation} {keys : List Bytes} {key : Bytes}
    (hkey : key ∈ keys) : ∃ part ∈ splitKeys route make keys, part.owner = route key := by
  obtain ⟨i, hi⟩ := List.mem_iff_getElem?.mp hkey
  obtain ⟨part, hpart, howner, -⟩ := exists_part hi
  exact ⟨part, hpart, howner⟩

theorem observed_piece (hmerges : Merges route shards single) (keys : List Bytes) (o : Fin n)
    (key : Bytes) :
    ((shards o).observeAll nowMs (share route keys o) ∅).2.lookup key =
      if route key = o then (single.observeAll nowMs keys ∅).2.lookup key else none := by
  rw [lookup_observeAll, lookup_observeAll]
  by_cases ho : route key = o
  · subst ho
    simp [mem_share, stale_congr (hmerges key)]
  · simp [mem_share, ho]

/-- The counts of the parts add up to the count over all owners. -/
theorem sumIntegers_share (make : List Bytes → Operation) (keys : List Bytes)
    (weight : List Bytes → Nat) (hweight : weight [] = 0) :
    ∃ total, sumIntegers ((splitKeys route make keys).map fun part =>
        .count (weight (share route keys part.owner))) = .ok total ∧
      I64.wrap total = I64.wrap ((∑ o, weight (share route keys o) : Nat) : Int) := by
  obtain ⟨total, hsum, htotal⟩ := sumIntegers_count
    ((splitKeys route make keys).map fun part => weight (share route keys part.owner))
  rw [List.map_map] at hsum
  rw [sum_share make keys hweight] at htotal
  exact ⟨total, hsum, htotal⟩

theorem pieces_delete (hmerges : Merges route shards single) (hmax : 64 ≤ maxReplyBytes)
    (keys : List Bytes) :
    ∃ reply effects, single.evaluate (.delete keys) nowMs = .ok (reply, effects) ∧
      Nonempty (Pieces route shards nowMs maxReplyBytes (.delete keys)
        (splitKeys route .delete keys) reply effects) := by
  refine ⟨_, _, rfl, ⟨{
    respond := fun part => .count
      ((share route keys part.owner).toFinset.filter fun key => (single.live nowMs key).isSome).card
    touched := fun part =>
      ((shards part.owner).deleteAll nowMs (share route keys part.owner) 0 ∅).2
    evaluate := ?_
    lookup := ?_
    covered := ?_
    exceeds := ?_
    combine := ?_
    nodup := nodup_splitKeys route .delete keys }⟩⟩
  · intro part hpart
    have hcount : ((shards part.owner).deleteAll nowMs (share route keys part.owner) 0 ∅).1 =
        ((share route keys part.owner).toFinset.filter fun key =>
          (single.live nowMs key).isSome).card := by
      rw [deleteAll_fst, Nat.zero_add]
      congr 1
      apply Finset.filter_congr
      intro key hkey
      rw [live_congr (hmerges.of_mem_share (List.mem_toFinset.mp hkey))]
      simp
    rw [(mem_splitKeys hpart).1, Shard.evaluate, ← hcount]
  · intro part _ key
    rw [lookup_deleteAll _ _ _ (by simp), lookup_deleteAll _ _ _ (by simp)]
    by_cases ho : route key = part.owner
    · simp [mem_share, ho]
    · simp [mem_share, ho]
  · intro key entry hentry
    exact covered_of_mem (@evaluate_footprint single nowMs (.delete keys) _ _ rfl key entry hentry)
  · intro part _ hexceeds
    rw [Reply.count, Reply.not_exceeds_integer _ hmax] at hexceeds
    cases hexceeds
  · obtain ⟨total, hsum, htotal⟩ := @sumIntegers_share n route .delete keys
      (fun keys => (keys.toFinset.filter fun key => (single.live nowMs key).isSome).card) rfl
    rw [sum_card_share] at htotal
    rw [Recall.combine, hsum]
    simp only [bind, Except.bind, pure, Except.pure, htotal, deleteAll_fst, Reply.count]
    simp

theorem evaluate_exists_eq (shard : Shard) (keys : List Bytes) :
    shard.evaluate (.exists keys) nowMs =
      .ok (.count (keys.filter fun key => (shard.live nowMs key).isSome).length,
        (shard.observeAll nowMs keys ∅).2) := by
  have hcount : ((shard.observeAll nowMs keys ∅).1.filter Option.isSome).length =
      (keys.filter fun key => (shard.live nowMs key).isSome).length := by
    rw [observeAll_fst, List.filter_map, List.length_map]
    rfl
  rw [← hcount]
  rfl

theorem evaluate_multiGet_eq (shard : Shard) (keys : List Bytes) :
    shard.evaluate (.multiGet keys) nowMs =
      .ok (.array (keys.map fun key => bulkOf (shard.live nowMs key)),
        (shard.observeAll nowMs keys ∅).2) := by
  have hvalues : (shard.observeAll nowMs keys ∅).1.map bulkOf =
      keys.map fun key => bulkOf (shard.live nowMs key) := by
    rw [observeAll_fst, List.map_map]
    rfl
  rw [← hvalues]
  rfl

theorem pieces_exists (hmerges : Merges route shards single) (hmax : 64 ≤ maxReplyBytes)
    (keys : List Bytes) :
    ∃ reply effects, single.evaluate (.exists keys) nowMs = .ok (reply, effects) ∧
      Nonempty (Pieces route shards nowMs maxReplyBytes (.exists keys)
        (splitKeys route .exists keys) reply effects) := by
  refine ⟨_, _, evaluate_exists_eq single keys, ⟨{
    respond := fun part => .count
      ((share route keys part.owner).filter fun key => (single.live nowMs key).isSome).length
    touched := fun part =>
      ((shards part.owner).observeAll nowMs (share route keys part.owner) ∅).2
    evaluate := ?_
    lookup := fun part _ key => observed_piece hmerges keys part.owner key
    covered := ?_
    exceeds := ?_
    combine := ?_
    nodup := nodup_splitKeys route .exists keys }⟩⟩
  · intro part hpart
    have hlive : ((share route keys part.owner).filter fun key =>
        ((shards part.owner).live nowMs key).isSome) =
        (share route keys part.owner).filter fun key => (single.live nowMs key).isSome := by
      apply List.filter_congr
      intro key hkey
      rw [live_congr (hmerges.of_mem_share hkey)]
    rw [(mem_splitKeys hpart).1, evaluate_exists_eq, hlive]
  · intro key entry hentry
    exact covered_of_mem (@evaluate_footprint single nowMs (.exists keys) _ _ rfl key entry hentry)
  · intro part _ hexceeds
    rw [Reply.count, Reply.not_exceeds_integer _ hmax] at hexceeds
    cases hexceeds
  · obtain ⟨total, hsum, htotal⟩ := @sumIntegers_share n route .exists keys
      (fun keys => (keys.filter fun key => (single.live nowMs key).isSome).length) rfl
    rw [sum_length_share] at htotal
    rw [Recall.combine, hsum]
    simp only [bind, Except.bind, pure, Except.pure, htotal, Reply.count]

/-- The arrays the owners answer, scattered through the positions, are the array of all keys. -/
theorem scatter_share (keys : List Bytes) (answer : Bytes → Reply) :
    scatterParts (List.replicate keys.length (.bulk none))
      ((splitKeys route .multiGet keys).zip ((splitKeys route .multiGet keys).map fun part =>
        .array ((share route keys part.owner).map answer))) = .ok (keys.map answer) := by
  have hzip : ((splitKeys route .multiGet keys).zip ((splitKeys route .multiGet keys).map
      fun part => Reply.array ((share route keys part.owner).map answer))) =
      (splitKeys route .multiGet keys).map fun part =>
        (part, Reply.array ((share route keys part.owner).map answer)) := by
    have hboth := @List.zip_map' _ _ _ id
      (fun part : Part n => Reply.array ((share route keys part.owner).map answer))
      (splitKeys route .multiGet keys)
    rwa [List.map_id] at hboth
  have hlength : (List.replicate keys.length (Reply.bulk none)).length =
      (keys.map answer).length := by
    rw [List.length_replicate, List.length_map]
  have hpairs : ∀ pair ∈ (splitKeys route .multiGet keys).map fun part =>
      (part, Reply.array ((share route keys part.owner).map answer)),
      ∃ values, pair.2 = .array values ∧
        List.Forall₂ (fun p v => (keys.map answer)[p]? = some v) pair.1.positions values := by
    intro pair hpair
    obtain ⟨part, hpart, rfl⟩ := List.mem_map.mp hpair
    refine ⟨_, rfl, ?_⟩
    have hshare : share route keys part.owner =
        (keys.zipIdx.filter fun item => route item.1 = part.owner).map Prod.fst :=
      (zipIdx_filter_fst (fun key => decide (route key = part.owner)) keys 0).symm
    simp only [(mem_splitKeys hpart).2, hshare, List.map_map, List.forall₂_map_left_iff,
      List.forall₂_map_right_iff, List.forall₂_same]
    intro item hitem
    have hget := List.mem_zipIdx_iff_getElem?.mp (List.mem_filter.mp hitem).1
    rw [List.getElem?_map, hget]
    rfl
  obtain ⟨result, hscatter, hresult, hget⟩ := scatterParts_spec hpairs hlength
  rw [hzip, hscatter]
  congr 1
  apply List.ext_getElem?
  intro i
  rw [hget i]
  cases hkey : keys[i]? with
  | none =>
      have hout : keys.length ≤ i := List.getElem?_eq_none_iff.mp hkey
      have hnone : (List.replicate keys.length (Reply.bulk none))[i]? = none :=
        List.getElem?_eq_none_iff.mpr (by rwa [List.length_replicate])
      rw [hnone, List.getElem?_map, hkey]
      exact ite_self _
  | some key =>
      obtain ⟨part, hpart, -, hposition⟩ := @exists_part n route .multiGet keys i key hkey
      rw [if_pos]
      exact ⟨_, List.mem_map_of_mem hpart, hposition⟩

theorem pieces_multiGet (hmerges : Merges route shards single) (keys : List Bytes) :
    ∃ reply effects, single.evaluate (.multiGet keys) nowMs = .ok (reply, effects) ∧
      Nonempty (Pieces route shards nowMs maxReplyBytes (.multiGet keys)
        (splitKeys route .multiGet keys) reply effects) := by
  refine ⟨_, _, evaluate_multiGet_eq single keys, ⟨{
    respond := fun part => .array
      ((share route keys part.owner).map fun key => bulkOf (single.live nowMs key))
    touched := fun part =>
      ((shards part.owner).observeAll nowMs (share route keys part.owner) ∅).2
    evaluate := ?_
    lookup := fun part _ key => observed_piece hmerges keys part.owner key
    covered := ?_
    exceeds := ?_
    combine := ?_
    nodup := nodup_splitKeys route .multiGet keys }⟩⟩
  · intro part hpart
    have hlive : ((share route keys part.owner).map fun key =>
        bulkOf ((shards part.owner).live nowMs key)) =
        (share route keys part.owner).map fun key => bulkOf (single.live nowMs key) := by
      apply List.map_congr_left
      intro key hkey
      rw [live_congr (hmerges.of_mem_share hkey)]
    rw [(mem_splitKeys hpart).1, evaluate_multiGet_eq, hlive]
  · intro key entry hentry
    exact covered_of_mem
      (@evaluate_footprint single nowMs (.multiGet keys) _ _ rfl key entry hentry)
  · intro part _
    exact Reply.exceeds_mono (Reply.wireLen_array_sublist (List.filter_sublist.map _))
  · rw [Recall.combine, scatter_share]
    rfl

theorem pieces_multiSet (hmax : 64 ≤ maxReplyBytes) (pairs : List (Bytes × Bytes)) :
    ∃ parts reply effects, split route (.multiSet pairs) = .ok parts ∧
      single.evaluate (.multiSet pairs) nowMs = .ok (reply, effects) ∧
      Nonempty (Pieces route shards nowMs maxReplyBytes (.multiSet pairs) parts reply effects) := by
  have hpart : ∀ part ∈ (grouped (fun pair : Bytes × Bytes => route pair.1) pairs).map fun group =>
      ({ owner := group.1, operation := .multiSet group.2, positions := [] } : Part n),
      part.operation = .multiSet (pairs.filter fun pair => route pair.1 = part.owner) := by
    intro part hpart
    obtain ⟨group, hgroup, rfl⟩ := List.mem_map.mp hpart
    simp only [(mem_grouped.mp hgroup).1]
  refine ⟨_, _, _, rfl, rfl, ⟨{
    respond := fun _ => .ok
    touched := fun part =>
      assignAll (pairs.filter fun pair => route pair.1 = part.owner) ∅
    evaluate := ?_
    lookup := ?_
    covered := ?_
    exceeds := ?_
    combine := rfl
    nodup := ?_ }⟩⟩
  · intro part hmem
    rw [hpart part hmem]
    rfl
  · intro part _ key
    rw [lookup_assignAll, lookup_assignAll, ← List.filter_reverse, List.find?_filter]
    by_cases ho : route key = part.owner
    · have hsame : (fun pair : Bytes × Bytes =>
          decide (decide (route pair.1 = part.owner) = true ∧ decide (pair.1 = key) = true)) =
          fun pair => decide (pair.1 = key) := by
        funext pair
        by_cases hkey : pair.1 = key
        · simp [hkey, ho]
        · simp [hkey]
      rw [if_pos ho, hsame]
    · have hnone : pairs.reverse.find? (fun pair : Bytes × Bytes =>
          decide (decide (route pair.1 = part.owner) = true ∧ decide (pair.1 = key) = true)) =
          none := by
        rw [List.find?_eq_none]
        intro pair _
        simp only [decide_eq_true_eq, not_and]
        rintro howner rfl
        exact ho howner
      rw [if_neg ho, hnone]
      rfl
  · intro key entry hentry
    have hkey := @evaluate_footprint single nowMs (.multiSet pairs) _ _ rfl key entry hentry
    obtain ⟨pair, hpair, rfl⟩ := List.mem_map.mp hkey
    have hmember : pair ∈ pairs.filter fun other => route other.1 = route pair.1 := by
      simp [hpair]
    have hgroup : (route pair.1, pairs.filter fun other => route other.1 = route pair.1) ∈
        grouped (fun pair : Bytes × Bytes => route pair.1) pairs :=
      mem_grouped.mpr ⟨rfl, List.ne_nil_of_mem hmember⟩
    exact ⟨_, List.mem_map_of_mem hgroup, rfl⟩
  · intro part _ hexceeds
    rw [Reply.not_exceeds_ok hmax] at hexceeds
    cases hexceeds
  · rw [List.map_map]
    exact nodup_grouped _ pairs

/-! ### Destinations -/

theorem destination_owner {operation : Operation} {o : Fin n}
    (hdestination : destination route operation = .owner o) :
    ∀ key ∈ operation.keys, route key = o := by
  unfold destination at hdestination
  split at hdestination
  · cases hdestination
  · rename_i first keys hkeys
    split at hdestination
    · rename_i hall
      cases hdestination
      intro key hkey
      rw [hkeys] at hkey
      simpa using List.all_eq_true.mp hall key hkey
    · cases hdestination

theorem destination_ne_nowhere {operation : Operation} (hkeys : operation.keys ≠ []) :
    destination route operation ≠ .nowhere := by
  unfold destination
  split
  · rename_i hnil
    exact absurd hnil hkeys
  · split <;> simp

/-- Only the multi-key operations reach the coordinator, and their parts are pieces of the whole. -/
theorem pieces_of_cross (hmerges : Merges route shards single) (hmax : 64 ≤ maxReplyBytes)
    {operation : Operation} (hdestination : destination route operation = .cross) (nowMs : I64) :
    ∃ parts reply effects, split route operation = .ok parts ∧
      single.evaluate operation nowMs = .ok (reply, effects) ∧
      Nonempty (Pieces route shards nowMs maxReplyBytes operation parts reply effects) := by
  cases operation with
  | delete keys =>
      obtain ⟨reply, effects, heval, hpieces⟩ := pieces_delete hmerges hmax keys
      exact ⟨_, reply, effects, rfl, heval, hpieces⟩
  | «exists» keys =>
      obtain ⟨reply, effects, heval, hpieces⟩ := pieces_exists hmerges hmax keys
      exact ⟨_, reply, effects, rfl, heval, hpieces⟩
  | multiGet keys =>
      obtain ⟨reply, effects, heval, hpieces⟩ := pieces_multiGet hmerges keys
      exact ⟨_, reply, effects, rfl, heval, hpieces⟩
  | multiSet pairs => exact pieces_multiSet hmax pairs
  | get _ | set _ _ _ _ | increment _ _ _ | expire _ _ | ttl _ _ | persist _ =>
      simp [destination, Operation.keys] at hdestination

/-- Some single shard has the entries of the owners, whatever these are. -/
theorem exists_merges (route : Bytes → Fin n) (shards : Shards n) :
    ∃ single, Merges route shards single := by
  obtain ⟨entries, hentries⟩ := @Finmap.exists_lookup_eq Bytes Entry _
    (Finset.univ.biUnion fun o => (shards o).entries.keys)
    (fun key => (shards (route key)).entries.lookup key) (by
      intro key hkey
      by_contra hsome
      apply hkey
      rw [Finset.mem_biUnion]
      refine ⟨route key, Finset.mem_univ _, Finmap.mem_keys.mpr ?_⟩
      obtain ⟨entry, hentry⟩ := Option.ne_none_iff_exists'.mp hsome
      exact Finmap.mem_of_lookup_eq_some hentry)
  exact ⟨⟨entries, .empty, ⟨0, 0, 0⟩, 0, 0, 0, 0⟩, fun key => (hentries key).symm⟩

end Recall
