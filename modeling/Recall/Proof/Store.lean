import Recall.Store
import Recall.Proof.ExpiryIndex

/-!
# What the shard's operations do

One specification per operation, over a shard whose timers, table and accounting agree. Everything
proved about runs of a shard goes through these statements and never through the heap.
-/

namespace Recall

theorem HashSeed.lookup_arrange (seed : HashSeed) (effects : Effects) (key : Bytes) :
    (seed.arrange effects).lookup key = effects.lookup key :=
  AList.perm_lookup (seed.perm effects)

namespace Shard

def payloadOf (entries : Table) : Nat := entries.total entryBytes

/-- The expiry index holds one timer per entry with a deadline, and nothing else. -/
structure TimersAgree (expiry : ExpiryIndex) (entries : Table) : Prop where
  consistent : expiry.Consistent
  mem_iff : ∀ timer, timer ∈ expiry.heap ↔
    ∃ entry, entries.lookup timer.key = some entry ∧ entry.expiresAtMs = some timer.deadline

theorem TimersAgree.len_le {expiry : ExpiryIndex} {entries : Table}
    (hagree : TimersAgree expiry entries) : expiry.len ≤ entries.size := by
  rw [Finmap.size_eq_card_keys]
  refine hagree.consistent.length_le_card fun timer hmem => ?_
  obtain ⟨entry, hentry, -⟩ := (hagree.mem_iff timer).mp hmem
  exact Finmap.mem_keys.mpr (Finmap.mem_of_lookup_eq_some hentry)

structure WellFormed (shard : Shard) : Prop where
  timers : TimersAgree shard.expiry shard.entries
  payload : shard.payloadBytes = payloadOf shard.entries
  keys_le : shard.entries.size ≤ shard.limits.maxKeys
  payload_le : shard.payloadBytes ≤ shard.limits.maxPayloadBytes

theorem eq_of_new {limits : ShardLimits} {shard : Shard} (hnew : new limits = .ok shard) :
    shard = ⟨∅, .empty, limits, 0, 0, 0, 0⟩ := by
  unfold new at hnew
  split at hnew
  · cases hnew
  · cases hnew
    rfl

theorem wellFormed_new {limits : ShardLimits} {shard : Shard} (hnew : new limits = .ok shard) :
    shard.WellFormed := by
  rw [eq_of_new hnew]
  refine ⟨⟨ExpiryIndex.consistent_empty, ?_⟩, rfl, Nat.zero_le _, Nat.zero_le _⟩
  intro timer
  simp [ExpiryIndex.empty]

/-! ### Applying effects -/

theorem applyTimer_spec {shard : Shard} (hconsistent : shard.expiry.Consistent)
    (key : Bytes) (entry : Option Entry) :
    ∃ expiry, shard.applyTimer key entry = .ok { shard with expiry } ∧ expiry.Consistent ∧
      ∀ timer, timer ∈ expiry.heap ↔
        (timer.key = key ∧ entry.bind Entry.expiresAtMs = some timer.deadline) ∨
          (timer ∈ shard.expiry.heap ∧ timer.key ≠ key) := by
  unfold applyTimer
  cases hdeadline : entry.bind Entry.expiresAtMs with
  | some deadline =>
      obtain ⟨expiry, hset, hupdated, hmem⟩ :=
        ExpiryIndex.set_spec hconsistent key deadline
      refine ⟨expiry, by simp [hset, bind, Except.bind, pure, Except.pure], hupdated, ?_⟩
      intro timer
      rw [hmem]
      refine or_congr ⟨?_, ?_⟩ Iff.rfl
      · rintro rfl
        exact ⟨rfl, rfl⟩
      · rintro ⟨rfl, hsome⟩
        cases hsome
        rfl
  | none =>
      obtain ⟨expiry, hremove, hupdated, hmem⟩ := ExpiryIndex.remove_spec hconsistent key
      refine ⟨expiry, by simp [hremove, bind, Except.bind, pure, Except.pure], hupdated, ?_⟩
      intro timer
      simp [hmem]

/-- Timers and table agree again once both halves of an effect are done. -/
theorem TimersAgree.update {shard : Shard} (hagree : TimersAgree shard.expiry shard.entries)
    (key : Bytes) (entry : Option Entry) :
    ∃ expiry, shard.applyTimer key entry = .ok { shard with expiry } ∧
      TimersAgree expiry (shard.entries.update key entry) := by
  obtain ⟨expiry, happly, hconsistent, hmem⟩ := applyTimer_spec hagree.consistent key entry
  refine ⟨expiry, happly, hconsistent, fun timer => ?_⟩
  rw [hmem, Finmap.lookup_update]
  by_cases hkey : timer.key = key
  · simp only [hkey, true_and, ne_eq, not_true_eq_false, and_false, or_false, ↓reduceIte]
    exact Option.bind_eq_some_iff
  · simp only [hkey, false_and, ne_eq, not_false_eq_true, and_true, false_or, ↓reduceIte]
    exact hagree.mem_iff timer

theorem applyEffects_spec (effects : List (Sigma fun _ : Bytes => Option Entry)) {shard : Shard}
    (hagree : TimersAgree shard.expiry shard.entries) :
    ∃ expiry, shard.applyEffects effects =
        .ok { shard with expiry, entries := shard.entries.overlayList effects } ∧
      TimersAgree expiry (shard.entries.overlayList effects) := by
  induction effects generalizing shard with
  | nil => exact ⟨shard.expiry, rfl, hagree⟩
  | cons effect effects ih =>
      obtain ⟨key, entry⟩ := effect
      obtain ⟨expiry, htimer, hupdated⟩ := hagree.update key entry
      obtain ⟨final, hrest, hfinal⟩ :=
        @ih (applyTable { shard with expiry } key entry) hupdated
      refine ⟨final, ?_, hfinal⟩
      simp only [applyEffects, htimer, bind, Except.bind]
      exact hrest

/-! ### Preparing -/

theorem foldl_account (entries : Table)
    (effects : List (Sigma fun _ : Bytes => Option Entry)) (keys payload : Int) :
    effects.foldl (account entries) (keys, payload) =
      (keys + (effects.map (entries.delta fun _ _ => 1)).sum,
        payload + (effects.map (entries.delta entryBytes)).sum) := by
  induction effects generalizing keys payload with
  | nil => simp
  | cons effect effects ih =>
      obtain ⟨key, next⟩ := effect
      rw [List.foldl_cons]
      cases hold : entries.lookup key <;> cases next <;>
        simp only [account, hold, ih, List.map_cons, List.sum_cons, Finmap.delta,
          Finmap.weightAt] <;>
        refine Prod.ext ?_ ?_ <;> simp <;> omega

/-- The table a set of effects leads to is larger than the limits allow. -/
def OverBudget (shard : Shard) (effects : Effects) : Prop :=
  shard.limits.maxKeys < (shard.entries.overlay effects).size ∨
    shard.limits.maxPayloadBytes < payloadOf (shard.entries.overlay effects)

instance (shard : Shard) (effects : Effects) : Decidable (shard.OverBudget effects) :=
  inferInstanceAs (Decidable (_ ∨ _))

theorem overlay_arrange (seed : HashSeed) (effects : Effects) (entries : Table) :
    entries.overlay (seed.arrange effects) = entries.overlay effects :=
  Finmap.overlay_perm (seed.perm effects) entries

/-- With exact accounting the running totals of `preflight` are those of the resulting table. -/
theorem preflight_eq {shard : Shard} (hpayload : shard.payloadBytes = payloadOf shard.entries)
    (seed : HashSeed) (effects : Effects) (response : Reply) :
    shard.preflight seed effects response =
      if response.exceeds shard.limits.maxReplyBytes then .ok (.error .responseLimit)
      else if shard.OverBudget effects then .ok (.error .budget)
      else .ok (.ok { revision := shard.revision
                      effects := seed.arrange effects
                      payloadAfter := payloadOf (shard.entries.overlay effects)
                      response }) := by
  have hkeys : (shard.entries.size : Int) +
      ((seed.arrange effects).entries.map (shard.entries.delta fun _ _ => 1)).sum =
        (shard.entries.overlay effects).size := by
    rw [Finmap.size_eq_total, Finmap.size_eq_total, ← overlay_arrange seed,
      Finmap.total_overlay]
  have hbytes : (shard.payloadBytes : Int) +
      ((seed.arrange effects).entries.map (shard.entries.delta entryBytes)).sum =
        payloadOf (shard.entries.overlay effects) := by
    rw [hpayload, payloadOf, payloadOf, ← overlay_arrange seed, Finmap.total_overlay]
  unfold preflight
  split
  · rfl
  · simp only [foldl_account, hkeys, hbytes, Nat.cast_lt]
    by_cases hover : shard.OverBudget effects
    · rw [if_pos (show _ ∨ _ from hover), if_pos hover]
    · rw [if_neg (show ¬ (_ ∨ _) from hover), if_neg hover, if_neg (by omega), Int.toNat_natCast]

/-- A preparation that still describes the shard it was made for. -/
structure Describes (shard : Shard) (prepared : Prepared) : Prop where
  revision : prepared.revision = shard.revision
  payload : prepared.payloadAfter = payloadOf (shard.entries.overlay prepared.effects)
  within : ¬ shard.OverBudget prepared.effects

/-- The shard after a set of effects was installed. -/
structure Installed (shard : Shard) (effects : Effects) (after : Shard) : Prop where
  entries : after.entries = shard.entries.overlay effects
  limits : after.limits = shard.limits
  revision : after.revision = shard.revision + 1
  wellFormed : after.WellFormed

theorem apply_spec {shard : Shard} (hwf : shard.WellFormed) {prepared : Prepared}
    (hdescribes : shard.Describes prepared) :
    (usizeMax ≤ shard.revision ∧ shard.apply prepared = .error .revisionExhausted) ∨
      ∃ after, shard.apply prepared = .ok (after, prepared.response) ∧
        Installed shard prepared.effects after := by
  obtain ⟨expiry, heffects, htimers⟩ := applyEffects_spec prepared.effects.entries hwf.timers
  have hrevision : ¬ shard.revision ≠ prepared.revision := by simp [hdescribes.revision]
  have hwithin := hdescribes.within
  simp only [OverBudget, not_or, Nat.not_lt] at hwithin
  by_cases hexhausted : shard.revision < usizeMax
  · refine Or.inr ⟨{ shard with
        expiry
        entries := shard.entries.overlay prepared.effects
        payloadBytes := prepared.payloadAfter
        revision := shard.revision + 1
        appliedCommands := saturate (shard.appliedCommands + 1) }, ?_, ?_⟩
    · simp only [apply, hrevision, ↓reduceIte, heffects, nextRevision, hexhausted, bind,
        Except.bind]
      rfl
    · refine ⟨rfl, rfl, rfl, htimers, hdescribes.payload, hwithin.1, ?_⟩
      rw [hdescribes.payload]
      exact hwithin.2
  · refine Or.inl ⟨Nat.le_of_not_lt hexhausted, ?_⟩
    simp only [apply, hrevision, ↓reduceIte, heffects, nextRevision, hexhausted, bind, Except.bind]

/-- The error `prepare` answers with, if any. -/
def refusal (shard : Shard) (operation : Operation) (nowMs : I64) : Option EngineError :=
  match shard.evaluate operation nowMs with
  | .error failure => some failure
  | .ok (response, effects) =>
      if response.exceeds shard.limits.maxReplyBytes then some .responseLimit
      else if shard.OverBudget effects then some .budget
      else none

theorem prepare_of_refusal {shard : Shard} (hwf : shard.WellFormed) {operation : Operation}
    {nowMs : I64} {failure : EngineError}
    (hrefusal : shard.refusal operation nowMs = some failure) (seed : HashSeed) :
    shard.prepare seed operation nowMs = .ok (.error failure) := by
  cases heval : shard.evaluate operation nowMs with
  | error evaluated =>
      simp only [refusal, heval, Option.some.injEq] at hrefusal
      simp only [prepare, heval, hrefusal]
  | ok outcome =>
      obtain ⟨response, effects⟩ := outcome
      simp only [refusal, heval] at hrefusal
      simp only [prepare, heval, preflight_eq hwf.payload]
      split at hrefusal
      · next hexceeds =>
          cases hrefusal
          rw [if_pos hexceeds]
      · next hexceeds =>
          rw [if_neg hexceeds]
          split at hrefusal
          · next hover =>
              cases hrefusal
              rw [if_pos hover]
          · cases hrefusal

theorem prepare_of_refusal_none {shard : Shard} (hwf : shard.WellFormed) {operation : Operation}
    {nowMs : I64} (hrefusal : shard.refusal operation nowMs = none) (seed : HashSeed) :
    ∃ response effects prepared, shard.evaluate operation nowMs = .ok (response, effects) ∧
      shard.prepare seed operation nowMs = .ok (.ok prepared) ∧ prepared.response = response ∧
      prepared.effects = seed.arrange effects ∧ shard.Describes prepared := by
  cases heval : shard.evaluate operation nowMs with
  | error evaluated =>
      simp only [refusal, heval] at hrefusal
      cases hrefusal
  | ok outcome =>
      obtain ⟨response, effects⟩ := outcome
      simp only [refusal, heval] at hrefusal
      split at hrefusal
      · cases hrefusal
      · next hexceeds =>
          split at hrefusal
          · cases hrefusal
          · next hover =>
              refine ⟨response, effects,
                { revision := shard.revision
                  effects := seed.arrange effects
                  payloadAfter := payloadOf (shard.entries.overlay effects)
                  response }, rfl, ?_, rfl, rfl, rfl, ?_, ?_⟩
              · simp only [prepare, heval, preflight_eq hwf.payload]
                rw [if_neg hexceeds, if_neg hover]
              · rw [overlay_arrange]
              · rwa [OverBudget, overlay_arrange]

theorem prepare_spec {shard : Shard} (hwf : shard.WellFormed) {seed : HashSeed}
    {operation : Operation} {nowMs : I64} {ready : Prepared}
    (hprepare : shard.prepare seed operation nowMs = .ok (.ok ready)) :
    ∃ effects, shard.evaluate operation nowMs = .ok (ready.response, effects) ∧
      ready.effects = seed.arrange effects ∧ shard.Describes ready := by
  cases hrefusal : shard.refusal operation nowMs with
  | some failure =>
      rw [prepare_of_refusal hwf hrefusal] at hprepare
      cases hprepare
  | none =>
      obtain ⟨response, effects, ready', heval, hok, rfl, heffects, hdescribes⟩ :=
        prepare_of_refusal_none hwf hrefusal seed
      rw [hok] at hprepare
      cases hprepare
      exact ⟨effects, heval, heffects, hdescribes⟩

theorem describes_of_prepare {shard : Shard} (hwf : shard.WellFormed) {seed : HashSeed}
    {operation : Operation} {nowMs : I64} {ready : Prepared}
    (hprepare : shard.prepare seed operation nowMs = .ok (.ok ready)) : shard.Describes ready := by
  obtain ⟨effects, -, -, hdescribes⟩ := prepare_spec hwf hprepare
  exact hdescribes

theorem apply_installed {shard after : Shard} (hwf : shard.WellFormed) {ready : Prepared}
    (hdescribes : shard.Describes ready) {reply : Reply}
    (happly : shard.apply ready = .ok (after, reply)) : Installed shard ready.effects after := by
  rcases apply_spec hwf hdescribes with ⟨-, hpanic⟩ | ⟨later, hok, hinstalled⟩
  · rw [hpanic] at happly
    cases happly
  · rw [hok] at happly
    cases happly
    exact hinstalled

/-- An accepted command installs its effects and answers with its response, unless the shard has
used up its revisions. -/
theorem execute_of_refusal_none {shard : Shard} (hwf : shard.WellFormed) {operation : Operation}
    {nowMs : I64} (hrefusal : shard.refusal operation nowMs = none) (seed : HashSeed) :
    (usizeMax ≤ shard.revision ∧
        shard.execute seed operation nowMs = .error .revisionExhausted) ∨
      ∃ response effects after, shard.evaluate operation nowMs = .ok (response, effects) ∧
        shard.execute seed operation nowMs = .ok (after, .ok response) ∧
        Installed shard effects after := by
  obtain ⟨response, effects, prepared, heval, hprepare, hresponse, heffects, hdescribes⟩ :=
    prepare_of_refusal_none hwf hrefusal seed
  rcases apply_spec hwf hdescribes with ⟨hmax, happly⟩ | ⟨after, happly, hinstalled⟩
  · exact Or.inl ⟨hmax, by simp [execute, hprepare, happly, bind, Except.bind]⟩
  · refine Or.inr ⟨response, effects, after, heval, ?_, ?_, hinstalled.limits,
      hinstalled.revision, hinstalled.wellFormed⟩
    · simp [execute, hprepare, happly, hresponse, bind, Except.bind, pure, Except.pure]
    · rw [hinstalled.entries, heffects, overlay_arrange]

theorem execute_of_refusal {shard : Shard} (hwf : shard.WellFormed) {operation : Operation}
    {nowMs : I64} {failure : EngineError}
    (hrefusal : shard.refusal operation nowMs = some failure) (seed : HashSeed) :
    shard.execute seed operation nowMs = .ok (shard, .error failure) := by
  simp [execute, prepare_of_refusal hwf hrefusal seed, bind, Except.bind, pure, Except.pure]

/-- What a command that came back has done. -/
theorem execute_spec {shard after : Shard} (hwf : shard.WellFormed) {seed : HashSeed}
    {operation : Operation} {nowMs : I64} {result : Except EngineError Reply}
    (hexecute : shard.execute seed operation nowMs = .ok (after, result)) :
    (∃ failure, shard.refusal operation nowMs = some failure ∧ after = shard ∧
        result = .error failure) ∨
      ∃ response effects, shard.refusal operation nowMs = none ∧
        shard.evaluate operation nowMs = .ok (response, effects) ∧ result = .ok response ∧
        Installed shard effects after := by
  cases hrefusal : shard.refusal operation nowMs with
  | some failure =>
      rw [execute_of_refusal hwf hrefusal] at hexecute
      cases hexecute
      exact .inl ⟨failure, rfl, rfl, rfl⟩
  | none =>
      rcases execute_of_refusal_none hwf hrefusal seed with
        ⟨-, hpanic⟩ | ⟨response, effects, installed, heval, hok, hinstalled⟩
      · rw [hpanic] at hexecute
        cases hexecute
      · rw [hok] at hexecute
        cases hexecute
        exact .inr ⟨response, effects, rfl, heval, rfl, hinstalled⟩

theorem execute_error {shard : Shard} (hwf : shard.WellFormed) {seed : HashSeed}
    {operation : Operation} {nowMs : I64} {panic : Panic}
    (hexecute : shard.execute seed operation nowMs = .error panic) : panic = .revisionExhausted := by
  cases hrefusal : shard.refusal operation nowMs with
  | some failure =>
      rw [execute_of_refusal hwf hrefusal] at hexecute
      cases hexecute
  | none =>
      rcases execute_of_refusal_none hwf hrefusal seed with
        ⟨-, hpanic⟩ | ⟨response, effects, installed, -, hok, -⟩
      · rw [hpanic] at hexecute
        exact (Except.error.inj hexecute).symm
      · rw [hok] at hexecute
        cases hexecute

theorem execute_wellFormed {shard after : Shard} (hwf : shard.WellFormed) {seed : HashSeed}
    {operation : Operation} {nowMs : I64} {result : Except EngineError Reply}
    (hexecute : shard.execute seed operation nowMs = .ok (after, result)) :
    after.WellFormed ∧ after.limits = shard.limits := by
  rcases execute_spec hwf hexecute with
    ⟨failure, -, rfl, -⟩ | ⟨response, effects, -, -, -, hinstalled⟩
  · exact ⟨hwf, rfl⟩
  · exact ⟨hinstalled.wellFormed, hinstalled.limits⟩

theorem execute_total {shard : Shard} {nowMs : I64} {operation : Operation} {seed : HashSeed}
    (hwf : shard.WellFormed) (hroom : shard.revision < usizeMax) :
    ∃ next result, shard.execute seed operation nowMs = .ok (next, result) ∧ next.WellFormed ∧
      next.revision ≤ shard.revision + 1 := by
  cases hrefusal : shard.refusal operation nowMs with
  | some failure => exact ⟨shard, _, execute_of_refusal hwf hrefusal seed, hwf, by omega⟩
  | none =>
      rcases execute_of_refusal_none hwf hrefusal seed with
        ⟨hfull, -⟩ | ⟨response, effects, next, -, hok, hinstalled⟩
      · omega
      · exact ⟨next, _, hok, hinstalled.wellFormed, hinstalled.revision.le⟩

/-! ### Active expiration -/

/-- One table is another with some due entries removed. -/
structure Reclaimed (before after : Shard) (nowMs : I64) : Prop where
  limits : after.limits = before.limits
  revision : before.revision ≤ after.revision
  entries : ∀ key, after.entries.lookup key = before.entries.lookup key ∨
    after.entries.lookup key = none ∧
      ∃ entry, before.entries.lookup key = some entry ∧ entry.due nowMs

theorem Reclaimed.refl (shard : Shard) (nowMs : I64) : Reclaimed shard shard nowMs :=
  ⟨rfl, le_rfl, fun _ => Or.inl rfl⟩

theorem Reclaimed.trans {a b c : Shard} {nowMs : I64} (hab : Reclaimed a b nowMs)
    (hbc : Reclaimed b c nowMs) : Reclaimed a c nowMs := by
  refine ⟨hbc.limits.trans hab.limits, hab.revision.trans hbc.revision, fun key => ?_⟩
  rcases hbc.entries key with hsame | ⟨hnone, entry, hentry, hdue⟩
  · rw [hsame]
    exact hab.entries key
  · rcases hab.entries key with hsame | ⟨habsent, -⟩
    · exact Or.inr ⟨hnone, entry, hsame ▸ hentry, hdue⟩
    · rw [habsent] at hentry
      cases hentry

theorem expired_spec {shard : Shard} (hwf : shard.WellFormed) {nowMs : I64} {key : Bytes}
    (hexpired : shard.expiry.expired nowMs = some key) :
    ∃ entry, shard.entries.lookup key = some entry ∧ entry.due nowMs := by
  unfold ExpiryIndex.expired at hexpired
  obtain ⟨timer, hfilter, rfl⟩ := Option.map_eq_some_iff.mp hexpired
  obtain ⟨hhead, hdue⟩ := Option.filter_eq_some_iff.mp hfilter
  have hmem : timer ∈ shard.expiry.heap := List.mem_of_mem_head? hhead
  obtain ⟨entry, hentry, hdeadline⟩ := (hwf.timers.mem_iff timer).mp hmem
  refine ⟨entry, hentry, ?_⟩
  simpa [Entry.due, hdeadline] using hdue

theorem expireKey_spec {shard : Shard} (hwf : shard.WellFormed) {nowMs : I64} {key : Bytes}
    {entry : Entry} (hentry : shard.entries.lookup key = some entry) (hdue : entry.due nowMs) :
    (usizeMax ≤ shard.revision ∧ shard.expireKey key nowMs = .error .revisionExhausted) ∨
      ∃ after, shard.expireKey key nowMs = .ok after ∧ after.WellFormed ∧
        after.limits = shard.limits ∧ after.revision = shard.revision + 1 ∧
        after.entries = shard.entries.erase key := by
  obtain ⟨expiry, hremove, hconsistent, hmem⟩ :=
    ExpiryIndex.remove_spec hwf.timers.consistent key
  have htotal := Finmap.total_erase_add entryBytes key shard.entries
  simp only [hentry, Finmap.weightAt] at htotal
  have hpayload := hwf.payload
  unfold payloadOf at hpayload
  have hcovered : ¬ shard.payloadBytes < entryBytes key entry := by omega
  have hsize := Finmap.size_update_none_le shard.entries key
  by_cases hexhausted : shard.revision < usizeMax
  · refine Or.inr ⟨{ shard with
      expiry
      entries := shard.entries.erase key
      payloadBytes := shard.payloadBytes - entryBytes key entry
      expiredKeys := saturate (shard.expiredKeys + 1)
      revision := shard.revision + 1 }, ?_, ⟨⟨hconsistent, fun timer => ?_⟩, ?_, ?_, ?_⟩,
        rfl, rfl, rfl⟩
    · simp only [expireKey, hremove, hentry, hdue, hcovered, nextRevision, hexhausted, bind,
        Except.bind, ↓reduceIte]
      rfl
    · rw [hmem, hwf.timers.mem_iff]
      by_cases hkey : timer.key = key
      · subst hkey
        simp
      · simp [hkey, Finmap.lookup_erase_ne hkey]
    · simp only [payloadOf]
      omega
    · exact hsize.trans hwf.keys_le
    · have hle := hwf.payload_le
      simp only
      omega
  · refine Or.inl ⟨Nat.le_of_not_lt hexhausted, ?_⟩
    simp only [expireKey, hremove, hentry, hdue, hcovered, nextRevision, hexhausted, bind,
      Except.bind, ↓reduceIte]

theorem expireDue_spec (budget : Nat) {shard : Shard} (hwf : shard.WellFormed) (nowMs : I64) :
    shard.expireDue nowMs budget = .error .revisionExhausted ∨
      ∃ after removed, shard.expireDue nowMs budget = .ok (after, removed) ∧ after.WellFormed ∧
        Reclaimed shard after nowMs ∧ (after.revision = shard.revision → after = shard) := by
  induction budget generalizing shard with
  | zero => exact Or.inr ⟨shard, 0, rfl, hwf, .refl shard nowMs, fun _ => rfl⟩
  | succ budget ih =>
      unfold expireDue
      cases hexpired : shard.expiry.expired nowMs with
      | none => exact Or.inr ⟨shard, 0, rfl, hwf, .refl shard nowMs, fun _ => rfl⟩
      | some key =>
          obtain ⟨entry, hentry, hdue⟩ := expired_spec hwf hexpired
          rcases expireKey_spec hwf hentry hdue with
            ⟨-, hpanic⟩ | ⟨next, hkey, hnext, hlimits, hrevision, hentries⟩
          · exact Or.inl (by simp [hpanic, bind, Except.bind])
          · have hreclaimed : Reclaimed shard next nowMs := by
              refine ⟨hlimits, by omega, fun other => ?_⟩
              rw [hentries]
              by_cases hother : other = key
              · subst hother
                exact Or.inr ⟨Finmap.lookup_erase _ _, entry, hentry, hdue⟩
              · exact Or.inl (Finmap.lookup_erase_ne hother)
            rcases ih hnext with hpanic | ⟨after, removed, hrest, hafter, hrestReclaimed, -⟩
            · exact Or.inl (by simp [hkey, hpanic, bind, Except.bind])
            · refine Or.inr ⟨after, removed + 1, ?_, hafter, hreclaimed.trans hrestReclaimed, ?_⟩
              · simp [hkey, hrest, bind, Except.bind, pure, Except.pure]
              · have hmono := hrestReclaimed.revision
                omega

theorem expireDue_wellFormed {shard after : Shard} (hwf : shard.WellFormed) {nowMs : I64}
    {budget removed : Nat} (hexpire : shard.expireDue nowMs budget = .ok (after, removed)) :
    after.WellFormed ∧ Reclaimed shard after nowMs := by
  rcases expireDue_spec budget hwf nowMs with hpanic | ⟨later, count, hok, hlater, hreclaimed, -⟩
  · rw [hpanic] at hexpire
    cases hexpire
  · rw [hok] at hexpire
    cases hexpire
    exact ⟨hlater, hreclaimed⟩

theorem expireDue_error {shard : Shard} (hwf : shard.WellFormed) {nowMs : I64} {budget : Nat}
    {panic : Panic} (hexpire : shard.expireDue nowMs budget = .error panic) :
    panic = .revisionExhausted := by
  rcases expireDue_spec budget hwf nowMs with hpanic | ⟨after, removed, hok, -⟩
  · rw [hpanic] at hexpire
    exact (Except.error.inj hexpire).symm
  · rw [hok] at hexpire
    cases hexpire

end Shard

end Recall
