import Recall.ShardRun
import Recall.Proof.Evaluate

/-!
# Accounting, capacity and timers over whole runs

The invariant of a shard with outstanding preparations: the shard is well formed, and a preparation
whose revision is still current describes it. Every mutation raises the revision, which is what keeps
the second half true.
-/

namespace Recall.ShardRun

open Shard

/-- A preparation made from this very shard. -/
def Made (shard : Shard) (prepared : Prepared) : Prop :=
  ∃ seed operation nowMs, shard.prepare seed operation nowMs = .ok (.ok prepared)

structure Invariant (run : ShardRun) : Prop where
  wellFormed : run.shard.WellFormed
  bounded : ∀ prepared ∈ run.outstanding, prepared.revision ≤ run.shard.revision
  current : ∀ prepared ∈ run.outstanding, prepared.revision = run.shard.revision →
    Made run.shard prepared

theorem describes_of_made {shard : Shard} (hwf : shard.WellFormed) {prepared : Prepared}
    (hmade : Made shard prepared) :
    ∃ operation nowMs effects, shard.evaluate operation nowMs = .ok (prepared.response, effects) ∧
      prepared.effects.entries.Perm effects.entries ∧ shard.Describes prepared := by
  obtain ⟨seed, operation, nowMs, hprepare⟩ := hmade
  obtain ⟨effects, heval, heffects, hdescribes⟩ := prepare_spec hwf hprepare
  refine ⟨operation, nowMs, effects, heval, ?_, hdescribes⟩
  rw [heffects]
  exact seed.perm effects

/-- A shard that moved on makes every held preparation stale. -/
theorem Invariant.advance {run : ShardRun} (hinv : run.Invariant) {shard : Shard}
    (hwf : shard.WellFormed) (hrevision : run.shard.revision < shard.revision)
    {outstanding : List Prepared} (hsubset : ∀ p ∈ outstanding, p ∈ run.outstanding) :
    Invariant ⟨shard, outstanding⟩ := by
  refine ⟨hwf, fun prepared hmem => ?_, fun prepared hmem hcurrent => ?_⟩
  · have hbound := hinv.bounded prepared (hsubset prepared hmem)
    exact hbound.trans (Nat.le_of_lt hrevision)
  · have hbound := hinv.bounded prepared (hsubset prepared hmem)
    simp only at hcurrent
    omega

theorem Invariant.shrink {run : ShardRun} (hinv : run.Invariant) {outstanding : List Prepared}
    (hsubset : ∀ p ∈ outstanding, p ∈ run.outstanding) :
    Invariant { run with outstanding } :=
  ⟨hinv.wellFormed, fun prepared hmem => hinv.bounded prepared (hsubset prepared hmem),
    fun prepared hmem => hinv.current prepared (hsubset prepared hmem)⟩

/-- What one call can lead to: a panic, which is either a stale preparation or the end of the
revisions, or a state in which the invariant holds again. -/
theorem Invariant.step_cases {run : ShardRun} (hinv : run.Invariant) (call : Call) :
    (∃ next, run.step call = .ok next ∧ next.Invariant ∧ next.shard.limits = run.shard.limits) ∨
      run.step call = .error .revisionExhausted ∨
      (run.step call = .error .stalePrepared ∧ ∃ index prepared, call = .apply index ∧
        run.outstanding[index]? = some prepared ∧ prepared.revision ≠ run.shard.revision) := by
  have hwf := hinv.wellFormed
  cases call with
  | prepare seed operation nowMs =>
      refine Or.inl ?_
      cases hrefusal : run.shard.refusal operation nowMs with
      | some failure =>
          refine ⟨run, ?_, hinv, rfl⟩
          simp [step, prepare_of_refusal hwf hrefusal, bind, Except.bind, pure, Except.pure]
      | none =>
          obtain ⟨response, effects, prepared, -, hprepare, -, -, hdescribes⟩ :=
            prepare_of_refusal_none hwf hrefusal seed
          refine ⟨{ run with outstanding := run.outstanding ++ [prepared] }, ?_, ?_, rfl⟩
          · simp [step, hprepare, bind, Except.bind, pure, Except.pure]
          · refine ⟨hwf, fun other hmem => ?_, fun other hmem hcurrent => ?_⟩
            · rcases List.mem_append.mp hmem with hold | hnew
              · exact hinv.bounded other hold
              · rw [List.mem_singleton.mp hnew]
                exact hdescribes.revision.le
            · rcases List.mem_append.mp hmem with hold | hnew
              · exact hinv.current other hold hcurrent
              · rw [List.mem_singleton.mp hnew]
                exact ⟨seed, operation, nowMs, hprepare⟩
  | apply index =>
      cases hget : run.outstanding[index]? with
      | none => exact Or.inl ⟨run, by simp [step, hget], hinv, rfl⟩
      | some prepared =>
          have hmem : prepared ∈ run.outstanding := List.mem_of_getElem? hget
          by_cases hcurrent : prepared.revision = run.shard.revision
          · obtain ⟨-, -, -, -, -, hdescribes⟩ :=
              describes_of_made hwf (hinv.current prepared hmem hcurrent)
            rcases apply_spec hwf hdescribes with ⟨-, happly⟩ | ⟨after, happly, hinstalled⟩
            · exact Or.inr (Or.inl (by simp [step, hget, happly, bind, Except.bind]))
            · refine Or.inl ⟨⟨after, run.outstanding.eraseIdx index⟩, ?_, ?_, hinstalled.limits⟩
              · simp [step, hget, happly, bind, Except.bind, pure, Except.pure]
              · exact hinv.advance hinstalled.wellFormed (by rw [hinstalled.revision]; omega)
                  fun p hp => List.mem_of_mem_eraseIdx hp
          · refine Or.inr (Or.inr ⟨?_, index, prepared, rfl, hget, hcurrent⟩)
            simp [step, hget, apply, Ne.symm hcurrent, bind, Except.bind]
  | discard index =>
      exact Or.inl ⟨_, rfl, hinv.shrink fun p hp => List.mem_of_mem_eraseIdx hp, rfl⟩
  | execute seed operation nowMs =>
      cases hrefusal : run.shard.refusal operation nowMs with
      | some failure =>
          refine Or.inl ⟨run, ?_, hinv, rfl⟩
          simp [step, execute_of_refusal hwf hrefusal, bind, Except.bind, pure, Except.pure]
      | none =>
          rcases execute_of_refusal_none hwf hrefusal seed with
            ⟨-, hpanic⟩ | ⟨response, effects, after, -, hexecute, hinstalled⟩
          · exact Or.inr (Or.inl (by simp [step, hpanic, bind, Except.bind]))
          · refine Or.inl ⟨{ run with shard := after }, ?_, ?_, hinstalled.limits⟩
            · simp [step, hexecute, bind, Except.bind, pure, Except.pure]
            · exact hinv.advance hinstalled.wellFormed (by rw [hinstalled.revision]; omega)
                fun p hp => hp
  | expireDue nowMs budget =>
      rcases expireDue_spec budget hwf nowMs with
        hpanic | ⟨after, removed, hexpire, hafter, hreclaimed, hsame⟩
      · exact Or.inr (Or.inl (by simp [step, hpanic, bind, Except.bind]))
      · refine Or.inl ⟨{ run with shard := after }, ?_, ?_, hreclaimed.limits⟩
        · simp [step, hexpire, bind, Except.bind, pure, Except.pure]
        · rcases Nat.lt_or_ge run.shard.revision after.revision with hlt | hge
          · exact hinv.advance hafter hlt fun p hp => hp
          · have heq := hsame (le_antisymm hge hreclaimed.revision)
            rw [heq]
            exact hinv

theorem Reachable.invariant {limits : ShardLimits} {run : ShardRun}
    (hreach : Reachable limits run) : run.Invariant ∧ run.shard.limits = limits := by
  induction hreach with
  | start hnew =>
      refine ⟨⟨wellFormed_new hnew, by simp, by simp⟩, ?_⟩
      rw [eq_of_new hnew]
  | call hreach call hstep ih =>
      rcases ih.1.step_cases call with ⟨next, hok, hinv, hlimits⟩ | hpanic | ⟨hpanic, -⟩
      · rw [hok] at hstep
        cases hstep
        exact ⟨hinv, hlimits.trans ih.2⟩
      · rw [hpanic] at hstep
        cases hstep
      · rw [hpanic] at hstep
        cases hstep

/-! ### The points `apply` passes through -/

/-- The shards that exist while the loop of `apply` runs over the effects in the given order: between
two effects, and between the two halves of one. -/
inductive ApplyPoint (shard : Shard) (order : List (Sigma fun _ : Bytes => Option Entry)) :
    Shard → Prop
  | between {done rest : List (Sigma fun _ : Bytes => Option Entry)} {point : Shard}
      (hsplit : order = done ++ rest) (hdone : shard.applyEffects done = .ok point) :
      ApplyPoint shard order point
  | inside {done rest : List (Sigma fun _ : Bytes => Option Entry)}
      {effect : Sigma fun _ : Bytes => Option Entry} {reached point : Shard}
      (hsplit : order = done ++ effect :: rest) (hdone : shard.applyEffects done = .ok reached)
      (htimer : reached.applyTimer effect.1 effect.2 = .ok point) :
      ApplyPoint shard order point

/-- A batch that only writes grows towards its final table, one that only removes shrinks from the
initial one; either way no part of it is larger than the limit. -/
theorem size_overlayList_le_maxKeys {shard : Shard} (hwf : shard.WellFormed)
    {prepared : Prepared} (hmade : Made shard prepared)
    {order done rest : List (Sigma fun _ : Bytes => Option Entry)}
    (hperm : order.Perm prepared.effects.entries) (hsplit : order = done ++ rest) :
    (shard.entries.overlayList done).size ≤ shard.limits.maxKeys := by
  obtain ⟨operation, nowMs, effects, heval, heffects, hdescribes⟩ := describes_of_made hwf hmade
  have hmem : ∀ e ∈ order, effects.lookup e.1 = some e.2 := fun e he =>
    AList.mem_lookup_iff.mpr (heffects.mem_iff.mp (hperm.mem_iff.mp he))
  rcases evaluate_uniform heval with hremoves | hwrites
  · refine (Finmap.size_overlayList_le (fun e he => ?_) _).trans hwf.keys_le
    exact hremoves e.1 e.2 (hmem e (hsplit ▸ List.mem_append_left rest he))
  · have hnodup : order.NodupKeys :=
      (List.perm_nodupKeys hperm).mpr prepared.effects.nodupKeys
    have hfinal : shard.entries.overlayList order = shard.entries.overlay prepared.effects :=
      @Finmap.overlay_perm _ _ _ ⟨order, hnodup⟩ _ hperm shard.entries
    have hwithin := hdescribes.within
    simp only [OverBudget, not_or, Nat.not_lt] at hwithin
    calc (shard.entries.overlayList done).size
        ≤ ((shard.entries.overlayList done).overlayList rest).size :=
          Finmap.size_le_size_overlayList (fun e he =>
            hwrites e.1 e.2 (hmem e (hsplit ▸ List.mem_append_right done he))) _
      _ = (shard.entries.overlay prepared.effects).size := by
          rw [← Finmap.overlayList_append, ← hsplit, hfinal]
      _ ≤ shard.limits.maxKeys := hwithin.1

theorem ApplyPoint.bounded {shard point : Shard} (hwf : shard.WellFormed) {prepared : Prepared}
    (hmade : Made shard prepared) {order : List (Sigma fun _ : Bytes => Option Entry)}
    (hperm : order.Perm prepared.effects.entries) (hpoint : ApplyPoint shard order point) :
    point.entries.size ≤ shard.limits.maxKeys ∧ point.expiry.len ≤ shard.limits.maxKeys := by
  cases hpoint with
  | @between done rest _ hsplit hdone =>
      obtain ⟨expiry, heffects, hagree⟩ := applyEffects_spec done hwf.timers
      rw [heffects] at hdone
      cases hdone
      have hsize := size_overlayList_le_maxKeys hwf hmade hperm hsplit
      exact ⟨hsize, hagree.len_le.trans hsize⟩
  | @inside done rest effect _ _ hsplit hdone htimer =>
      obtain ⟨expiry, heffects, hagree⟩ := applyEffects_spec done hwf.timers
      rw [heffects] at hdone
      cases hdone
      obtain ⟨timed, happly, hupdated⟩ :=
        @TimersAgree.update { shard with
          expiry
          entries := shard.entries.overlayList done } hagree effect.1 effect.2
      rw [happly] at htimer
      cases htimer
      refine ⟨size_overlayList_le_maxKeys hwf hmade hperm hsplit, hupdated.len_le.trans ?_⟩
      have hsplit' : order = (done ++ [effect]) ++ rest := by
        simp [hsplit]
      have hnext := size_overlayList_le_maxKeys hwf hmade hperm hsplit'
      rwa [Finmap.overlayList_append] at hnext

theorem not_overBudget_of_not_grows {shard : Shard} (hwf : shard.WellFormed)
    {operation : Operation} {nowMs : I64} {response : Reply} {effects : Effects}
    (hgrows : grows operation = false)
    (heval : shard.evaluate operation nowMs = .ok (response, effects)) :
    ¬ shard.OverBudget effects := by
  have hlighter : ∀ w : Bytes → Entry → Nat,
      (∀ key (a b : Entry), a.value = b.value → w key a = w key b) →
        (shard.entries.overlay effects).total w ≤ shard.entries.total w := by
    intro w hw
    refine Finmap.total_overlay_le w fun key entry hentry => ?_
    cases entry with
    | none => exact Nat.zero_le _
    | some entry =>
        obtain ⟨before, hbefore, hvalue⟩ := evaluate_of_not_grows hgrows heval hentry
        simp [Finmap.weightAt, hbefore, hw key _ _ hvalue]
  have hkeys := hlighter (fun _ _ => 1) fun _ _ _ _ => rfl
  have hbytes := hlighter entryBytes fun key a b hvalue => by simp [entryBytes, hvalue]
  have hkeysLe := hwf.keys_le
  have hpayload := hwf.payload
  have hpayloadLe := hwf.payload_le
  simp only [OverBudget, Finmap.size_eq_total, payloadOf] at *
  omega

/-- **Exact accounting.** In every reachable state the payload counter is the table's weight and both
limits hold, also at every point inside `apply` and for every iteration order; the accounting never
panics, and a command is refused for budget exactly when the table it leads to would be too large. -/
theorem accounting_exact {limits : ShardLimits} {run : ShardRun} (hreach : Reachable limits run) :
    (run.shard.payloadBytes = payloadOf run.shard.entries ∧
      run.shard.payloadBytes ≤ limits.maxPayloadBytes ∧
      run.shard.entries.size ≤ limits.maxKeys) ∧
    (∀ prepared,
      (prepared ∈ run.outstanding ∧ prepared.revision = run.shard.revision) ∨
        Made run.shard prepared →
      ∀ order, order.Perm prepared.effects.entries →
        ∀ point, ApplyPoint run.shard order point →
          point.entries.size ≤ limits.maxKeys ∧ point.expiry.len ≤ limits.maxKeys) ∧
    (∀ call panic, run.step call = .error panic →
      panic ≠ .negativePayload ∧ panic ≠ .payloadUnderflow) ∧
    (∀ seed operation nowMs response effects,
      run.shard.evaluate operation nowMs = .ok (response, effects) →
        (run.shard.prepare seed operation nowMs = .ok (.error .budget) ↔
          response.exceeds limits.maxReplyBytes = false ∧
            (limits.maxKeys < (run.shard.entries.overlay effects).size ∨
              limits.maxPayloadBytes < payloadOf (run.shard.entries.overlay effects)))) ∧
    ∀ seed operation nowMs, grows operation = false →
      run.shard.prepare seed operation nowMs ≠ .ok (.error .budget) := by
  obtain ⟨hinv, rfl⟩ := hreach.invariant
  have hwf := hinv.wellFormed
  have hbudget : ∀ seed operation nowMs response effects,
      run.shard.evaluate operation nowMs = .ok (response, effects) →
        (run.shard.prepare seed operation nowMs = .ok (.error .budget) ↔
          response.exceeds run.shard.limits.maxReplyBytes = false ∧
            run.shard.OverBudget effects) := by
    intro seed operation nowMs response effects heval
    simp only [prepare, heval, preflight_eq hwf.payload]
    split
    · simp_all
    · split <;> simp_all
  refine ⟨⟨hwf.payload, hwf.payload_le, hwf.keys_le⟩, ?_, ?_, hbudget, ?_⟩
  · intro prepared hprepared order hperm point hpoint
    refine hpoint.bounded hwf ?_ hperm
    rcases hprepared with ⟨hmem, hcurrent⟩ | hmade
    · exact hinv.current prepared hmem hcurrent
    · exact hmade
  · intro call panic hpanic
    rcases hinv.step_cases call with ⟨next, hok, -⟩ | hexhausted | ⟨hstale, -⟩
    · rw [hok] at hpanic
      cases hpanic
    · rw [hexhausted] at hpanic
      cases hpanic
      decide
    · rw [hstale] at hpanic
      cases hpanic
      decide
  · intro seed operation nowMs hgrows hrefused
    cases heval : run.shard.evaluate operation nowMs with
    | error failure =>
        simp only [prepare, heval, Except.ok.injEq, Except.error.injEq] at hrefused
        cases hrefused ▸ evaluate_error heval
    | ok result =>
        obtain ⟨response, effects⟩ := result
        have hover := ((hbudget seed operation nowMs response effects heval).mp hrefused).2
        exact not_overBudget_of_not_grows hwf hgrows heval hover

/-! A run with a timer: `SET a 1 PX 10` at time 0, then `EXISTS a` prepared at time 20, when the
entry is due but still stored. -/

def sampleLimits : ShardLimits := { maxKeys := 2, maxPayloadBytes := 8, maxReplyBytes := 64 }

def sampleSet : Operation := .set [97] [49] .always (.afterMilliseconds (I64.saturate 10))

def sampleRun : Except Panic ShardRun := do
  match Shard.new sampleLimits with
  | .error _ => .error .revisionExhausted
  | .ok shard =>
      let run ← step ⟨shard, []⟩ (.execute .insertionOrder sampleSet 0)
      run.step (.prepare .insertionOrder (.exists [[97]]) (I64.saturate 20))

theorem sampleRun_reachable : ∃ run, Reachable sampleLimits run ∧
    run.shard.entries.size = 1 ∧ run.shard.expiry.len = 1 ∧ run.outstanding.length = 1 := by
  obtain ⟨shard, hnew⟩ : ∃ shard, Shard.new sampleLimits = .ok shard := ⟨_, rfl⟩
  obtain ⟨run, hrun, hp⟩ := @exists_of_okAnd _ _ sampleRun
    (fun run => run.shard.entries.size = 1 ∧ run.shard.expiry.len = 1 ∧
      run.outstanding.length = 1) (by decide +kernel)
  refine ⟨run, ?_, by simpa using hp⟩
  simp only [sampleRun, hnew, bind, Except.bind] at hrun
  split at hrun
  · cases hrun
  · next first hfirst => exact .call (.call (.start hnew) _ hfirst) _ hrun

theorem accounting_exact_sample : ∃ run, Reachable sampleLimits run ∧
    run.shard.entries.size = 1 ∧ run.shard.payloadBytes = payloadOf run.shard.entries := by
  obtain ⟨run, hreach, hsize, -⟩ := sampleRun_reachable
  exact ⟨run, hreach, hsize, (accounting_exact hreach).1.1⟩

/-- **Timers and table agree.** In every reachable state the index holds one timer per entry with a
deadline and no other, so expiration never meets a timer without its entry. -/
theorem timers_match_table {limits : ShardLimits} {run : ShardRun}
    (hreach : Reachable limits run) :
    run.shard.expiry.Consistent ∧
    (run.shard.expiry.heap.map Timer.key).Nodup ∧
    (∀ key deadline, ⟨key, deadline⟩ ∈ run.shard.expiry.heap ↔
      ∃ entry, run.shard.entries.lookup key = some entry ∧ entry.expiresAtMs = some deadline) ∧
    (∀ nowMs budget panic, run.shard.expireDue nowMs budget = .error panic →
      panic ≠ .timerWithoutEntry ∧ panic ≠ .deadlineAssertion ∧ panic ≠ .heapIndex) ∧
    run.shard.stats.expiringKeys =
      (run.shard.entries.keys.filter fun key =>
        ((run.shard.entries.lookup key).bind Entry.expiresAtMs).isSome).card := by
  have hwf := hreach.invariant.1.wellFormed
  have htimers := hwf.timers
  refine ⟨htimers.consistent, htimers.consistent.nodup_keys, fun key deadline =>
    htimers.mem_iff ⟨key, deadline⟩, ?_, ?_⟩
  · intro nowMs budget panic hpanic
    rw [expireDue_error hwf hpanic]
    decide
  · refine htimers.consistent.length_eq_card fun key => ?_
    simp only [Finset.mem_filter, Finmap.mem_keys, Option.isSome_iff_exists,
      Option.bind_eq_some_iff]
    constructor
    · rintro ⟨-, deadline, entry, hentry, hdeadline⟩
      exact ⟨⟨key, deadline⟩, (htimers.mem_iff _).mpr ⟨entry, hentry, hdeadline⟩, rfl⟩
    · rintro ⟨timer, hmem, rfl⟩
      obtain ⟨entry, hentry, hdeadline⟩ := (htimers.mem_iff timer).mp hmem
      exact ⟨Finmap.mem_of_lookup_eq_some hentry, timer.deadline, entry, hentry, hdeadline⟩

theorem timers_match_table_sample : ∃ run, Reachable sampleLimits run ∧
    run.shard.expiry.len = 1 ∧ (run.shard.expiry.heap.map Timer.key).Nodup := by
  obtain ⟨run, hreach, -, hlen, -⟩ := sampleRun_reachable
  exact ⟨run, hreach, hlen, (timers_match_table hreach).2.1⟩

end Recall.ShardRun
