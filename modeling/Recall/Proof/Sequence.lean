import Recall.Proof.Expiration
import Recall.Proof.Pieces

/-!
# Multi-key commands as sequences

`MSET`, `DEL`, `EXISTS` and `MGET` evaluate all their arguments against the old table. The single-key
forms, executed one after the other at the same time, lead to the same table and to replies that add
up to the same reply.
-/

namespace Recall

/-- The single-key forms of a multi-key operation, from left to right. -/
def Operation.singles : Operation → Option (List Operation)
  | .multiSet pairs => some (pairs.map fun pair => .set pair.1 pair.2 .always .clear)
  | .delete keys => some (keys.map fun key => .delete [key])
  | .exists keys => some (keys.map fun key => .exists [key])
  | .multiGet keys => some (keys.map fun key => .multiGet [key])
  | _ => none

namespace Shard

/-- The operations one after the other at one time, each with a hash map of its own. -/
def executeInOrder (shard : Shard) (nowMs : I64) :
    List (HashSeed × Operation) → Except Panic (Shard × List (Except EngineError Reply))
  | [] => .ok (shard, [])
  | (seed, operation) :: steps => do
      let (shard, result) ← shard.execute seed operation nowMs
      let (shard, results) ← shard.executeInOrder nowMs steps
      return (shard, result :: results)

/-- The reply of a multi-key operation is put together from those of its single-key forms. -/
def AddsUp (operation : Operation) (results : List (Except EngineError Reply)) (reply : Reply) :
    Prop :=
  match operation with
  | .delete _ | .exists _ =>
      ∃ counts : List Nat, results = counts.map (fun count => .ok (.count count)) ∧
        reply = .count counts.sum
  | .multiGet _ =>
      ∃ values, results = values.map (fun value => .ok (.array [value])) ∧ reply = .array values
  | _ => reply = .ok

variable {shard after next : Shard} {nowMs : I64} {operation : Operation} {key : Bytes}
  {steps : List (HashSeed × Operation)} {results : List (Except EngineError Reply)}

/-! ### One step -/

theorem lookup_change {change : Change}
    (hinstalled : Installed shard (change.effects shard nowMs key) next) (other : Bytes) :
    next.entries.lookup other =
      match change with
      | .keep => if other = key ∧ shard.stale nowMs key then none else shard.entries.lookup other
      | .put entry => if other = key then entry else shard.entries.lookup other := by
  rw [hinstalled.entries, Finmap.lookup_overlay]
  cases change with
  | keep =>
      simp only [Change.effects, lookup_sweep]
      split <;> simp
  | put entry =>
      simp only [Change.effects, lookup_insert_sweep]
      split <;> simp

theorem executeInOrder_cons {seed : HashSeed} (hwf : shard.WellFormed)
    (hrun : shard.executeInOrder nowMs ((seed, operation) :: steps) = .ok (after, results))
    (hresults : ∀ result ∈ results, result.isOk = true) :
    ∃ response effects next rest, shard.evaluate operation nowMs = .ok (response, effects) ∧
      shard.execute seed operation nowMs = .ok (next, .ok response) ∧
      Installed shard effects next ∧ next.executeInOrder nowMs steps = .ok (after, rest) ∧
      results = .ok response :: rest := by
  obtain ⟨⟨next, result⟩, hexecute, hrest⟩ := bind_eq_ok.mp hrun
  obtain ⟨⟨last, rest⟩, hmore, hafter⟩ := bind_eq_ok.mp hrest
  cases hafter
  have hresult := hresults result List.mem_cons_self
  rcases execute_spec hwf hexecute with
    ⟨failure, -, -, rfl⟩ | ⟨response, effects, -, heval, rfl, hinstalled⟩
  · cases hresult
  · exact ⟨response, effects, next, rest, heval, hexecute, hinstalled, hmore, rfl⟩

/-- The next of a sequence of single-key forms. -/
theorem executeInOrder_single {seed : HashSeed} (hwf : shard.WellFormed)
    (hsingle : singleKey operation = some key) {reply : Reply} {change : Change}
    (hanswer : answer nowMs (shard.live nowMs key) operation = .ok (reply, change))
    (hrun : shard.executeInOrder nowMs ((seed, operation) :: steps) = .ok (after, results))
    (hresults : ∀ result ∈ results, result.isOk = true) :
    ∃ next rest, next.WellFormed ∧ next.executeInOrder nowMs steps = .ok (after, rest) ∧
      (∀ result ∈ rest, result.isOk = true) ∧ results = .ok reply :: rest ∧
      Installed shard (change.effects shard nowMs key) next := by
  obtain ⟨response, effects, next, rest, heval, -, hinstalled, hmore, rfl⟩ :=
    executeInOrder_cons hwf hrun hresults
  rw [evaluate_single hsingle, hanswer] at heval
  cases heval
  refine ⟨next, rest, hinstalled.wellFormed, hmore, fun result hresult => ?_, rfl, hinstalled⟩
  exact hresults result (List.mem_cons_of_mem _ hresult)

/-! ### Reading -/

theorem live_of_stale (hstale : shard.stale nowMs key = true) : shard.live nowMs key = none := by
  unfold stale at hstale
  unfold live
  obtain ⟨entry, hentry, hdue⟩ := (Option.any_eq_true _ _).mp hstale
  simp [hentry, hdue]

/-- Sweeping a due entry out is not seen. -/
theorem live_keep (hinstalled : Installed shard (Change.keep.effects shard nowMs key) next)
    (other : Bytes) : next.live nowMs other = shard.live nowMs other := by
  have hlookup := lookup_change hinstalled other
  simp only at hlookup
  split at hlookup
  · next hswept =>
      obtain ⟨rfl, hstale⟩ := hswept
      rw [live_of_stale hstale, live, hlookup, Option.filter_none]
  · exact live_congr hlookup nowMs

theorem reads_in_order {make : Bytes → Operation} {reply : Option Entry → Reply}
    (hsingle : ∀ key, singleKey (make key) = some key)
    (hanswer : ∀ key old, answer nowMs old (make key) = .ok (reply old, .keep))
    {keys : List Bytes} (hwf : shard.WellFormed) (hsteps : steps.map Prod.snd = keys.map make)
    (hrun : shard.executeInOrder nowMs steps = .ok (after, results))
    (hresults : ∀ result ∈ results, result.isOk = true) :
    after.WellFormed ∧ results = keys.map (fun key => .ok (reply (shard.live nowMs key))) ∧
      ∀ other, after.entries.lookup other =
        if other ∈ keys ∧ shard.stale nowMs other then none else shard.entries.lookup other := by
  induction keys generalizing shard steps results with
  | nil =>
      obtain rfl := List.map_eq_nil_iff.mp hsteps
      cases hrun
      exact ⟨hwf, rfl, by simp⟩
  | cons key keys ih =>
      obtain ⟨⟨seed, operation⟩, steps, rfl, rfl, hmoreSteps⟩ := List.map_eq_cons_iff.mp hsteps
      obtain ⟨next, rest, hnext, hmore, hok, rfl, hinstalled⟩ :=
        executeInOrder_single hwf (hsingle key) (hanswer key _) hrun hresults
      obtain ⟨hafter, rfl, hlookup⟩ := ih hnext hmoreSteps hmore hok
      refine ⟨hafter, ?_, fun other => ?_⟩
      · simp [live_keep hinstalled]
      · have hstep := lookup_change hinstalled other
        simp only at hstep
        rw [hlookup]
        by_cases hother : other = key ∧ shard.stale nowMs key
        · obtain ⟨rfl, hstale⟩ := hother
          rw [if_pos ⟨rfl, hstale⟩] at hstep
          rw [hstep, ite_self, if_pos ⟨List.mem_cons_self, hstale⟩]
        · rw [if_neg hother] at hstep
          rw [stale_congr hstep, hstep]
          refine if_congr ⟨fun h => ⟨List.mem_cons_of_mem _ h.1, h.2⟩, ?_⟩ rfl rfl
          rintro ⟨hmem, hstale⟩
          refine ⟨(List.mem_cons.mp hmem).resolve_left fun hkey => ?_, hstale⟩
          exact hother ⟨hkey, hkey ▸ hstale⟩

/-! ### Writing and removing -/

theorem writes_in_order {pairs : List (Bytes × Bytes)} (hwf : shard.WellFormed)
    (hsteps : steps.map Prod.snd = pairs.map fun pair => .set pair.1 pair.2 .always .clear)
    (hrun : shard.executeInOrder nowMs steps = .ok (after, results))
    (hresults : ∀ result ∈ results, result.isOk = true) :
    after.WellFormed ∧ ∀ other, after.entries.lookup other =
      ((assignAll pairs ∅).lookup other).getD (shard.entries.lookup other) := by
  induction pairs generalizing shard steps results with
  | nil =>
      obtain rfl := List.map_eq_nil_iff.mp hsteps
      cases hrun
      exact ⟨hwf, fun other => rfl⟩
  | cons pair pairs ih =>
      obtain ⟨⟨seed, operation⟩, steps, rfl, rfl, hmoreSteps⟩ := List.map_eq_cons_iff.mp hsteps
      have hanswer : answer nowMs (shard.live nowMs pair.1)
          (.set pair.1 pair.2 .always .clear) = .ok (.ok, .put (some ⟨pair.2, none⟩)) := by
        simp [answer, assignedDeadline]
      obtain ⟨next, rest, hnext, hmore, hok, rfl, hinstalled⟩ :=
        executeInOrder_single hwf rfl hanswer hrun hresults
      obtain ⟨hafter, hlookup⟩ := ih hnext hmoreSteps hmore hok
      refine ⟨hafter, fun other => ?_⟩
      rw [hlookup, lookup_change hinstalled, assignAll, lookup_assignAll, lookup_assignAll]
      split
      · rfl
      · by_cases hother : other = pair.1
        · rw [hother, AList.lookup_insert]
          simp
        · rw [AList.lookup_insert_ne hother]
          simp [hother]

theorem filter_live_removed {keys : Finset Bytes} (hlookup : ∀ other, next.entries.lookup other =
      if other = key then none else shard.entries.lookup other) :
    (keys.filter fun other => (next.live nowMs other).isSome) =
      (keys.filter fun other => (shard.live nowMs other).isSome).erase key := by
  ext other
  rw [Finset.mem_erase, Finset.mem_filter, Finset.mem_filter]
  by_cases hother : other = key
  · simp [hother, live, hlookup]
  · have hsame := hlookup other
    rw [if_neg hother] at hsame
    simp [hother, live_congr hsame nowMs]

theorem removals_in_order {keys : List Bytes} (hwf : shard.WellFormed)
    (hsteps : steps.map Prod.snd = keys.map fun key => .delete [key])
    (hrun : shard.executeInOrder nowMs steps = .ok (after, results))
    (hresults : ∀ result ∈ results, result.isOk = true) :
    after.WellFormed ∧
      (∃ counts : List Nat, results = counts.map (fun count => .ok (.count count)) ∧
        counts.sum = (keys.toFinset.filter fun key => (shard.live nowMs key).isSome).card) ∧
      ∀ other, after.entries.lookup other =
        if other ∈ keys then none else shard.entries.lookup other := by
  induction keys generalizing shard steps results with
  | nil =>
      obtain rfl := List.map_eq_nil_iff.mp hsteps
      cases hrun
      exact ⟨hwf, ⟨[], rfl, rfl⟩, by simp⟩
  | cons key keys ih =>
      obtain ⟨⟨seed, operation⟩, steps, rfl, rfl, hmoreSteps⟩ := List.map_eq_cons_iff.mp hsteps
      obtain ⟨next, rest, hnext, hmore, hok, rfl, hinstalled⟩ :=
        executeInOrder_single hwf rfl rfl hrun hresults
      obtain ⟨hafter, ⟨counts, rfl, hsum⟩, hlookup⟩ := ih hnext hmoreSteps hmore hok
      have hstep := lookup_change hinstalled
      simp only at hstep
      refine ⟨hafter, ⟨(if (shard.live nowMs key).isSome then 1 else 0) :: counts, rfl, ?_⟩,
        fun other => ?_⟩
      · rw [List.sum_cons, hsum, filter_live_removed hstep, List.toFinset_cons,
          Finset.filter_insert]
        split
        · rw [← Finset.erase_insert_eq_erase, Nat.add_comm,
            Finset.card_erase_add_one (Finset.mem_insert_self _ _)]
        · next hdead =>
            rw [Finset.erase_eq_of_notMem (by simp [hdead]), Nat.zero_add]
      · rw [hlookup, hstep]
        by_cases hother : other = key
        · simp [hother]
        · simp [hother]

/-! ### The whole sequence -/

theorem length_filter_eq_sum (p : Bytes → Bool) (keys : List Bytes) :
    (keys.filter p).length = (keys.map fun key => if p key then 1 else 0).sum := by
  induction keys with
  | nil => rfl
  | cons key keys ih =>
      rw [List.map_cons, List.sum_cons, ← ih, List.filter_cons]
      split
      · rw [List.length_cons, Nat.add_comm]
      · rw [Nat.zero_add]

/-- Only a counter of revisions that runs out stops a sequence. -/
theorem executeInOrder_total (hwf : shard.WellFormed)
    (hroom : shard.revision + steps.length ≤ usizeMax) :
    ∃ after results, shard.executeInOrder nowMs steps = .ok (after, results) := by
  induction steps generalizing shard with
  | nil => exact ⟨shard, [], rfl⟩
  | cons step steps ih =>
      obtain ⟨seed, operation⟩ := step
      rw [List.length_cons] at hroom
      obtain ⟨next, result, hexecute, hnext, hrevision⟩ :=
        @execute_total _ nowMs operation seed hwf (by omega)
      obtain ⟨after, results, hmore⟩ := ih hnext (by omega)
      refine ⟨after, result :: results, ?_⟩
      simp [executeInOrder, hexecute, hmore, bind, Except.bind, pure, Except.pure]

/-- The effects of the whole and the sequence agree on the table and on the reply. -/
theorem evaluate_singles (hwf : shard.WellFormed) {singles : List Operation}
    (hsingles : operation.singles = some singles) (hsteps : steps.map Prod.snd = singles)
    (hrun : shard.executeInOrder nowMs steps = .ok (after, results))
    (hresults : ∀ result ∈ results, result.isOk = true) {reply : Reply} {effects : Effects}
    (heval : shard.evaluate operation nowMs = .ok (reply, effects)) :
    after.WellFormed ∧ shard.entries.overlay effects = after.entries ∧
      AddsUp operation results reply := by
  cases operation with
  | multiSet pairs =>
      cases hsingles
      cases heval
      obtain ⟨hafter, hlookup⟩ := writes_in_order hwf hsteps hrun hresults
      refine ⟨hafter, Finmap.ext_lookup fun other => ?_, rfl⟩
      rw [hlookup, Finmap.lookup_overlay]
  | delete keys =>
      cases hsingles
      cases heval
      obtain ⟨hafter, ⟨counts, hcounts, hsum⟩, hlookup⟩ :=
        removals_in_order hwf hsteps hrun hresults
      refine ⟨hafter, Finmap.ext_lookup fun other => ?_, counts, hcounts, ?_⟩
      · rw [hlookup, Finmap.lookup_overlay, lookup_deleteAll _ _ _ (by simp)]
        split <;> simp
      · rw [hsum, deleteAll_fst, Nat.zero_add]
        simp
  | «exists» keys =>
      cases hsingles
      rw [evaluate_exists_eq] at heval
      cases heval
      obtain ⟨hafter, rfl, hlookup⟩ := reads_in_order (fun key => rfl) (fun key old => rfl) hwf
        hsteps hrun hresults
      refine ⟨hafter, Finmap.ext_lookup fun other => ?_,
        keys.map fun key => if (shard.live nowMs key).isSome then 1 else 0, ?_, ?_⟩
      · rw [hlookup, Finmap.lookup_overlay, lookup_observeAll]
        split <;> simp
      · rw [List.map_map]
        rfl
      · rw [length_filter_eq_sum]
  | multiGet keys =>
      cases hsingles
      rw [evaluate_multiGet_eq] at heval
      cases heval
      obtain ⟨hafter, rfl, hlookup⟩ := reads_in_order (fun key => rfl) (fun key old => rfl) hwf
        hsteps hrun hresults
      refine ⟨hafter, Finmap.ext_lookup fun other => ?_,
        keys.map fun key => bulkOf (shard.live nowMs key), ?_, rfl⟩
      · rw [hlookup, Finmap.lookup_overlay, lookup_observeAll]
        split <;> simp
      · rw [List.map_map]
        rfl
  | get | set | increment | expire | ttl | persist => cases hsingles

end Shard

/-- A multi-key command leaves what its single-key forms leave, executed from left to right, and its
reply is put together from theirs. One that is refused changes nothing. -/
theorem ShardRun.multi_key_sequential {limits : ShardLimits} {run : ShardRun}
    (hreach : Reachable limits run) (nowMs : I64) (seed : HashSeed) {operation : Operation}
    {singles : List Operation} (hsingles : operation.singles = some singles)
    (hnonempty : singles ≠ []) {steps : List (HashSeed × Operation)}
    (hsteps : steps.map Prod.snd = singles) :
    (run.shard.revision + singles.length ≤ usizeMax →
      ∃ after results, run.shard.executeInOrder nowMs steps = .ok (after, results)) ∧
    (∀ after results, run.shard.executeInOrder nowMs steps = .ok (after, results) →
      (∀ result ∈ results, result.isOk = true) →
      ∃ whole result, run.shard.execute seed operation nowMs = .ok (whole, result) ∧
        ∀ reply, result = .ok reply →
          whole.entries = after.entries ∧ whole.payloadBytes = after.payloadBytes ∧
          (∀ timer, timer ∈ whole.expiry.heap ↔ timer ∈ after.expiry.heap) ∧
          Shard.AddsUp operation results reply) ∧
    (∀ whole failure, run.shard.execute seed operation nowMs = .ok (whole, .error failure) →
      whole = run.shard) := by
  have hwf := hreach.invariant.1.wellFormed
  refine ⟨fun hroom => ?_, fun after results hrun hresults => ?_, fun whole failure hexecute => ?_⟩
  · refine Shard.executeInOrder_total hwf ?_
    rwa [← hsteps, List.length_map] at hroom
  · cases hrefusal : run.shard.refusal operation nowMs with
    | some failure =>
        refine ⟨run.shard, .error failure, Shard.execute_of_refusal hwf hrefusal seed, ?_⟩
        intro reply hreply
        cases hreply
    | none =>
        rcases Shard.execute_of_refusal_none hwf hrefusal seed with
          ⟨hfull, -⟩ | ⟨response, effects, whole, heval, hexecute, hinstalled⟩
        · -- The first of the forms was applied, so there was a revision left.
          obtain ⟨⟨first, single⟩, rest, rfl⟩ := List.exists_cons_of_ne_nil (l := steps) (by
            rintro rfl
            exact hnonempty hsteps.symm)
          obtain ⟨_, _, _, _, _, hfirst, hinstalled, _⟩ :=
            Shard.executeInOrder_cons hwf hrun hresults
          have hrevised := (Shard.execute_timed hreach.timed hfirst).revised
          rw [hinstalled.revision] at hrevised
          omega
        · obtain ⟨hafter, hentries, hadds⟩ :=
            Shard.evaluate_singles hwf hsingles hsteps hrun hresults heval
          rw [← hinstalled.entries] at hentries
          refine ⟨whole, .ok response, hexecute, fun reply hreply => ?_⟩
          cases hreply
          refine ⟨hentries, ?_, fun timer => ?_, hadds⟩
          · rw [hinstalled.wellFormed.payload, hafter.payload, hentries]
          · rw [hinstalled.wellFormed.timers.mem_iff, hafter.timers.mem_iff, hentries]
  · rcases Shard.execute_spec hwf hexecute with
      ⟨refused, -, hsame, -⟩ | ⟨response, effects, -, -, hreply, -⟩
    · exact hsame
    · cases hreply

def samplePairs : Operation := .multiSet [([97], [49]), ([98], [50]), ([97], [51])]

def sampleSteps : List (HashSeed × Operation) :=
  [(.insertionOrder, .set [97] [49] .always .clear),
    (.insertionOrder, .set [98] [50] .always .clear),
    (.insertionOrder, .set [97] [51] .always .clear)]

/-- The last value of a repeated key stays, as in the sequence. -/
theorem ShardRun.multi_key_sequential_sample : ∃ shard whole after results,
    Shard.new sampleLimits = .ok shard ∧
    shard.execute .insertionOrder samplePairs 0 = .ok (whole, .ok .ok) ∧
    shard.executeInOrder 0 sampleSteps = .ok (after, results) ∧
    results = [.ok .ok, .ok .ok, .ok .ok] ∧ whole.entries = after.entries ∧
    whole.payloadBytes = after.payloadBytes := by
  obtain ⟨shard, hnew⟩ : ∃ shard, Shard.new sampleLimits = .ok shard := ⟨_, rfl⟩
  obtain ⟨⟨after, results⟩, hrun, hresults⟩ := @exists_of_okAnd _ _
    (shard.executeInOrder 0 sampleSteps)
    (fun outcome => outcome.2 = [.ok .ok, .ok .ok, .ok .ok]) (by
      cases hnew
      decide +kernel)
  obtain ⟨⟨whole, result⟩, hwhole, hresult⟩ := @exists_of_okAnd _ _
    (shard.execute .insertionOrder samplePairs 0) (fun outcome => outcome.2 = .ok .ok) (by
      cases hnew
      decide +kernel)
  obtain rfl : results = _ := of_decide_eq_true hresults
  obtain rfl : result = _ := of_decide_eq_true hresult
  obtain ⟨-, hsame, -⟩ := @multi_key_sequential _ _ (.start hnew) 0 .insertionOrder
    samplePairs _ rfl (by simp) sampleSteps rfl
  obtain ⟨whole', result', hexecute, hall⟩ := hsame after _ hrun (by
    intro result hmem
    simp only [List.mem_cons, List.not_mem_nil, or_false, or_self] at hmem
    rw [hmem]
    rfl)
  rw [hwhole] at hexecute
  cases hexecute
  obtain ⟨hentries, hpayload, -⟩ := hall _ rfl
  exact ⟨shard, whole, after, _, hnew, hwhole, hrun, rfl, hentries, hpayload⟩

end Recall
