import Recall.Routing
import Mathlib.Algebra.BigOperators.Fin

/-!
# Splitting and combining

The groups of a split are the arguments filtered by owner, and scattering the groups' answers through
their recorded positions puts every answer back in its argument's place.
-/

namespace Recall

variable {n : Nat}

/-! ### Groups -/

theorem foldl_group {α : Type} (owner : α → Fin n) (items : List α) (start : Fin n → List α) :
    items.foldl (fun groups item =>
      Function.update groups (owner item) (groups (owner item) ++ [item])) start =
      fun o => start o ++ items.filter fun item => owner item = o := by
  induction items generalizing start with
  | nil =>
      funext o
      simp
  | cons item items ih =>
      rw [List.foldl_cons, ih]
      funext o
      by_cases ho : owner item = o
      · subst ho
        simp
      · simp [ho, Function.update_of_ne (Ne.symm ho)]

theorem groups_eq_filter {α : Type} (owner : α → Fin n) (items : List α) (o : Fin n) :
    groups owner items o = items.filter fun item => owner item = o := by
  rw [groups, foldl_group]
  rfl

theorem mem_grouped {α : Type} {owner : α → Fin n} {items : List α} {group : Fin n × List α} :
    group ∈ grouped owner items ↔
      group.2 = (items.filter fun item => owner item = group.1) ∧ group.2 ≠ [] := by
  obtain ⟨o, members⟩ := group
  simp only [grouped, List.mem_filter, List.mem_map, List.mem_finRange, true_and, Prod.mk.injEq,
    groups_eq_filter, Bool.not_eq_true', List.isEmpty_eq_false_iff]
  constructor
  · rintro ⟨⟨_, rfl, rfl⟩, hne⟩
    exact ⟨rfl, hne⟩
  · rintro ⟨hmembers, hne⟩
    exact ⟨⟨o, rfl, hmembers.symm⟩, hne⟩

theorem nodup_grouped {α : Type} (owner : α → Fin n) (items : List α) :
    ((grouped owner items).map Prod.fst).Nodup := by
  have hsub : ((grouped owner items).map Prod.fst).Sublist (List.finRange n) := by
    have hmap : (((List.finRange n).map fun o => (o, groups owner items o)).map Prod.fst) =
        List.finRange n := by
      rw [List.map_map]
      exact List.map_id' _
    rw [← hmap]
    exact List.filter_sublist.map Prod.fst
  exact hsub.nodup (List.nodup_finRange n)

/-- A quantity of the groups adds up over all owners, those without a group included. -/
theorem sum_grouped {α : Type} (owner : α → Fin n) (items : List α) {weight : List α → Nat}
    (hweight : weight [] = 0) :
    ((grouped owner items).map fun group => weight group.2).sum =
      ∑ o, weight (items.filter fun item => owner item = o) := by
  have hlist : ∀ owners : List (Fin n),
      (((owners.map fun o => (o, groups owner items o)).filter fun group =>
        !group.2.isEmpty).map fun group => weight group.2).sum =
        (owners.map fun o => weight (items.filter fun item => owner item = o)).sum := by
    intro owners
    induction owners with
    | nil => rfl
    | cons o owners ih =>
        rw [List.map_cons, List.map_cons, List.sum_cons, ← ih, groups_eq_filter]
        cases hgroup : items.filter fun item => owner item = o with
        | nil => simp [hweight]
        | cons first rest => simp
  calc
    ((grouped owner items).map fun group => weight group.2).sum =
        ((List.finRange n).map fun o => weight (items.filter fun item => owner item = o)).sum :=
      hlist (List.finRange n)
    _ = ∑ o, weight (items.filter fun item => owner item = o) := (Fin.sum_univ_def _).symm

theorem zipIdx_filter_fst {α : Type} (p : α → Bool) (items : List α) (start : Nat) :
    ((items.zipIdx start).filter fun item => p item.1).map Prod.fst = items.filter p := by
  induction items generalizing start with
  | nil => rfl
  | cons item items ih =>
      rw [List.zipIdx_cons]
      cases hp : p item with
      | true => simp [hp, ih]
      | false => simp [hp, ih]

/-! ### Parts -/

/-- The arguments of a split that belong to one owner. -/
def share (route : Bytes → Fin n) (keys : List Bytes) (o : Fin n) : List Bytes :=
  keys.filter fun key => route key = o

theorem mem_splitKeys {route : Bytes → Fin n} {make : List Bytes → Operation} {keys : List Bytes}
    {part : Part n} (hpart : part ∈ splitKeys route make keys) :
    part.operation = make (share route keys part.owner) ∧
      part.positions =
        (keys.zipIdx.filter fun item => route item.1 = part.owner).map Prod.snd := by
  obtain ⟨group, hgroup, rfl⟩ := List.mem_map.mp hpart
  obtain ⟨hmembers, -⟩ := mem_grouped.mp hgroup
  refine ⟨?_, ?_⟩
  · simp only [hmembers, share]
    rw [zipIdx_filter_fst (fun key => decide (route key = group.1))]
  · simp only [hmembers]

theorem exists_part {route : Bytes → Fin n} {make : List Bytes → Operation} {keys : List Bytes}
    {i : Nat} {key : Bytes} (hkey : keys[i]? = some key) :
    ∃ part ∈ splitKeys route make keys, part.owner = route key ∧ i ∈ part.positions := by
  have hitem : (key, i) ∈ keys.zipIdx.filter fun item => route item.1 = route key := by
    rw [List.mem_filter, List.mem_zipIdx_iff_getElem?]
    exact ⟨hkey, by simp⟩
  have hgroup : (route key, keys.zipIdx.filter fun item => route item.1 = route key) ∈
      grouped (fun item => route item.1) keys.zipIdx := by
    rw [mem_grouped]
    exact ⟨rfl, List.ne_nil_of_mem hitem⟩
  refine ⟨_, List.mem_map_of_mem hgroup, rfl, ?_⟩
  exact List.mem_map_of_mem hitem

theorem nodup_splitKeys (route : Bytes → Fin n) (make : List Bytes → Operation)
    (keys : List Bytes) : ((splitKeys route make keys).map Part.owner).Nodup := by
  rw [splitKeys, List.map_map]
  exact nodup_grouped (fun item => route item.1) keys.zipIdx

theorem mem_owners_grouped {α : Type} (owner : α → Fin n) (items : List α) (o : Fin n) :
    o ∈ (grouped owner items).map Prod.fst ↔ ∃ item ∈ items, owner item = o := by
  constructor
  · intro ho
    obtain ⟨group, hgroup, rfl⟩ := List.mem_map.mp ho
    obtain ⟨hmembers, hsome⟩ := mem_grouped.mp hgroup
    obtain ⟨item, hitem⟩ := List.exists_mem_of_ne_nil _ hsome
    rw [hmembers, List.mem_filter] at hitem
    exact ⟨item, hitem.1, by simpa using hitem.2⟩
  · rintro ⟨item, hitem, rfl⟩
    refine List.mem_map.mpr ⟨(owner item, items.filter fun other => owner other = owner item),
      mem_grouped.mpr ⟨rfl, ?_⟩, rfl⟩
    exact List.ne_nil_of_mem (List.mem_filter.mpr ⟨hitem, by simp⟩)

/-- The participants of a split operation are the owners of its keys, each once. -/
theorem split_owners {route : Bytes → Fin n} {operation : Operation} {parts : List (Part n)}
    (hsplit : split route operation = .ok parts) :
    (parts.map Part.owner).Nodup ∧
      ∀ o, o ∈ parts.map Part.owner ↔ ∃ key ∈ operation.keys, route key = o := by
  have hkeys : ∀ make keys, ((splitKeys route make keys).map Part.owner).Nodup ∧
      ∀ o, o ∈ (splitKeys route make keys).map Part.owner ↔ ∃ key ∈ keys, route key = o := by
    intro make keys
    refine ⟨nodup_splitKeys route make keys, fun o => ?_⟩
    have howners : (splitKeys route make keys).map Part.owner =
        (grouped (fun item => route item.1) keys.zipIdx).map Prod.fst := by
      simp [splitKeys]
    rw [howners, mem_owners_grouped]
    constructor
    · rintro ⟨item, hitem, ho⟩
      exact ⟨item.1, List.mem_of_getElem? (List.mem_zipIdx_iff_getElem?.mp hitem), ho⟩
    · rintro ⟨key, hkey, ho⟩
      obtain ⟨i, hi⟩ := List.mem_iff_getElem?.mp hkey
      exact ⟨(key, i), List.mem_zipIdx_iff_getElem?.mpr hi, ho⟩
  cases operation with
  | delete keys | «exists» keys | multiGet keys =>
      cases hsplit
      exact hkeys _ keys
  | multiSet pairs =>
      cases hsplit
      have howners : ((grouped (fun pair : Bytes × Bytes => route pair.1) pairs).map fun group =>
          (⟨group.1, .multiSet group.2, []⟩ : Part n)).map Part.owner =
            (grouped (fun pair : Bytes × Bytes => route pair.1) pairs).map Prod.fst := by
        simp
      rw [howners]
      refine ⟨nodup_grouped _ pairs, fun o => ?_⟩
      rw [mem_owners_grouped]
      simp [Operation.keys]
  | get _ | set _ _ _ _ | increment _ _ _ | expire _ _ | ttl _ _ | persist _ => cases hsplit

/-! ### Scattering -/

theorem scatter_spec {target : List Reply} {positions : List Nat} {values : List Reply}
    (hvalues : List.Forall₂ (fun p v => target[p]? = some v) positions values)
    {response : List Reply} (hlength : response.length = target.length) :
    ∃ result, scatter response positions values = .ok result ∧ result.length = target.length ∧
      ∀ i, result[i]? = if i ∈ positions then target[i]? else response[i]? := by
  induction hvalues generalizing response with
  | nil => exact ⟨response, rfl, hlength, fun i => by simp⟩
  | @cons position value positions values hvalue _ ih =>
      have hlt : position < response.length := by
        rw [hlength]
        exact (List.getElem?_eq_some_iff.mp hvalue).1
      obtain ⟨result, hscatter, hresult, hget⟩ :=
        @ih (response.set position value) (by rw [List.length_set, hlength])
      refine ⟨result, ?_, hresult, fun i => ?_⟩
      · rw [scatter, if_pos hlt, hscatter]
      · rw [hget i, List.getElem?_set]
        by_cases hi : position = i
        · subst hi
          simp [hlt, hvalue]
        · simp [hi, Ne.symm hi]

/-- Each part's values go to its positions and nowhere else. -/
theorem scatterParts_spec {target : List Reply} {pairs : List (Part n × Reply)}
    (hpairs : ∀ pair ∈ pairs, ∃ values, pair.2 = .array values ∧
      List.Forall₂ (fun p v => target[p]? = some v) pair.1.positions values)
    {response : List Reply} (hlength : response.length = target.length) :
    ∃ result, scatterParts response pairs = .ok result ∧ result.length = target.length ∧
      ∀ i, result[i]? =
        if ∃ pair ∈ pairs, i ∈ pair.1.positions then target[i]? else response[i]? := by
  induction pairs generalizing response with
  | nil => exact ⟨response, rfl, hlength, fun i => by simp⟩
  | cons pair pairs ih =>
      obtain ⟨part, reply⟩ := pair
      obtain ⟨values, hreply, hvalues⟩ := hpairs _ List.mem_cons_self
      simp only at hreply hvalues
      subst hreply
      obtain ⟨middle, hscatter, hmiddle, hget⟩ := scatter_spec hvalues hlength
      obtain ⟨result, hrest, hresult, hfinal⟩ :=
        ih (fun later hlater => hpairs later (List.mem_cons_of_mem _ hlater)) hmiddle
      refine ⟨result, ?_, hresult, fun i => ?_⟩
      · rw [scatterParts, if_pos hvalues.length_eq, hscatter]
        exact hrest
      · rw [hfinal i, hget i]
        have hcons : (∃ pair ∈ (part, Reply.array values) :: pairs, i ∈ pair.1.positions) ↔
            i ∈ part.positions ∨ ∃ pair ∈ pairs, i ∈ pair.1.positions := by
          simp
        by_cases hlater : ∃ pair ∈ pairs, i ∈ pair.1.positions
        · rw [if_pos hlater, if_pos (hcons.mpr (.inr hlater))]
        · rw [if_neg hlater]
          by_cases hfirst : i ∈ part.positions
          · rw [if_pos hfirst, if_pos (hcons.mpr (.inl hfirst))]
          · rw [if_neg hfirst, if_neg fun h => (hcons.mp h).elim hfirst hlater]

/-! ### Sums -/

theorem I64.wrap_add_wrap (a b : Int) : I64.wrap ((I64.wrap a).val + b) = I64.wrap (a + b) := by
  apply I64.val_injective
  exact Int.bmod_add_bmod

theorem sumIntegers_count (counts : List Nat) :
    ∃ total, sumIntegers (counts.map Reply.count) = .ok total ∧
      I64.wrap total = I64.wrap (counts.sum : Nat) := by
  induction counts with
  | nil => exact ⟨0, rfl, rfl⟩
  | cons count counts ih =>
      obtain ⟨total, hsum, htotal⟩ := ih
      refine ⟨(I64.wrap count).val + total, ?_, ?_⟩
      · rw [List.map_cons, Reply.count, sumIntegers, hsum]
        rfl
      · calc
          I64.wrap ((I64.wrap count).val + total) = I64.wrap (count + total) :=
            I64.wrap_add_wrap count total
          _ = I64.wrap ((I64.wrap total).val + count) := by
            rw [I64.wrap_add_wrap, add_comm]
          _ = I64.wrap ((counts.sum : Nat) + count) := by
            rw [htotal, I64.wrap_add_wrap]
          _ = I64.wrap ((count :: counts).sum : Nat) := by
            rw [List.sum_cons, add_comm, Nat.cast_add]

end Recall
