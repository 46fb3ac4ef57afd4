import Recall.Proof.Evaluate

/-!
# The footprint of an operation

An operation reads and changes the table under its own keys only.
-/

namespace Recall.Shard

variable {s t : Shard} {nowMs : I64}

theorem observe_congr {key : Bytes} (hlookup : s.entries.lookup key = t.entries.lookup key)
    (effects : Effects) : s.observe key nowMs effects = t.observe key nowMs effects := by
  rw [observe, observe, hlookup]

theorem observeAll_congr {keys : List Bytes}
    (hlookup : ∀ key ∈ keys, s.entries.lookup key = t.entries.lookup key) (effects : Effects) :
    s.observeAll nowMs keys effects = t.observeAll nowMs keys effects := by
  induction keys generalizing effects with
  | nil => rfl
  | cons key keys ih =>
      have hkeys : ∀ other ∈ keys, s.entries.lookup other = t.entries.lookup other :=
        fun other hother => hlookup other (List.mem_cons_of_mem _ hother)
      simp only [observeAll, observe_congr (hlookup key List.mem_cons_self), ih hkeys]

theorem deleteAll_congr {keys : List Bytes}
    (hlookup : ∀ key ∈ keys, s.entries.lookup key = t.entries.lookup key) (removed : Nat)
    (effects : Effects) :
    s.deleteAll nowMs keys removed effects = t.deleteAll nowMs keys removed effects := by
  induction keys generalizing removed effects with
  | nil => rfl
  | cons key keys ih =>
      have hkeys : ∀ other ∈ keys, s.entries.lookup other = t.entries.lookup other :=
        fun other hother => hlookup other (List.mem_cons_of_mem _ hother)
      simp only [deleteAll, observe_congr (hlookup key List.mem_cons_self), ih hkeys]

/-- The reply and the effects of an operation are functions of the entries under its keys. -/
theorem evaluate_congr {operation : Operation}
    (hlookup : ∀ key ∈ operation.keys, s.entries.lookup key = t.entries.lookup key) (nowMs : I64) :
    s.evaluate operation nowMs = t.evaluate operation nowMs := by
  cases operation with
  | delete keys =>
      rw [Operation.keys] at hlookup
      rw [evaluate, evaluate, deleteAll_congr hlookup]
  | «exists» keys | multiGet keys =>
      rw [Operation.keys] at hlookup
      rw [evaluate, evaluate, observeAll_congr hlookup]
  | multiSet pairs => rfl
  | get key | set key _ _ _ | increment key _ _ | expire key _ | ttl key _ | persist key =>
      have hkey : s.entries.lookup key = t.entries.lookup key := hlookup key List.mem_cons_self
      simp only [evaluate, observe_congr hkey]

theorem change_footprint {change : Change} {key other : Bytes} {entry : Option Entry}
    (hentry : (change.effects s nowMs key).lookup other = some entry) : other = key := by
  by_contra hother
  cases change with
  | keep =>
      rw [Change.effects, lookup_sweep, if_neg (by simp [hother])] at hentry
      cases hentry
  | put stored =>
      rw [Change.effects, lookup_insert_sweep, if_neg hother] at hentry
      cases hentry

theorem evaluate_footprint {operation : Operation} {response : Reply} {effects : Effects}
    (heval : s.evaluate operation nowMs = .ok (response, effects)) {key : Bytes}
    {entry : Option Entry} (hentry : effects.lookup key = some entry) : key ∈ operation.keys := by
  rcases evaluate_cases heval with
    ⟨own, change, hsingle, -, rfl⟩ | ⟨keys, rfl, rfl⟩ | ⟨keys, hoperation, rfl⟩ | ⟨pairs, rfl, rfl⟩
  · rw [change_footprint hentry, keys_of_singleKey hsingle]
    exact List.mem_singleton_self own
  · rw [lookup_deleteAll _ _ _ (by simp)] at hentry
    rw [Operation.keys]
    by_contra hkey
    rw [if_neg hkey] at hentry
    cases hentry
  · have hkeys : operation.keys = keys := by
      rcases hoperation with rfl | rfl
      · rfl
      · rfl
    rw [lookup_observeAll] at hentry
    by_contra hkey
    rw [hkeys] at hkey
    rw [if_neg (fun h => hkey h.1)] at hentry
    cases hentry
  · rw [lookup_assignAll] at hentry
    cases hfind : pairs.reverse.find? fun pair => pair.1 = key with
    | none =>
        rw [hfind] at hentry
        cases hentry
    | some pair =>
        have hpair := List.mem_reverse.mp (List.mem_of_find?_eq_some hfind)
        have hkey := List.find?_some hfind
        simp only [decide_eq_true_eq] at hkey
        rw [← hkey]
        exact List.mem_map_of_mem hpair

theorem live_congr {key : Bytes} (hlookup : s.entries.lookup key = t.entries.lookup key)
    (nowMs : I64) : s.live nowMs key = t.live nowMs key := by
  rw [live, live, hlookup]

theorem stale_congr {key : Bytes} (hlookup : s.entries.lookup key = t.entries.lookup key)
    (nowMs : I64) : s.stale nowMs key = t.stale nowMs key := by
  rw [stale, stale, hlookup]

end Recall.Shard
