import Recall.Proof.Pieces

/-!
# Sharding is invisible

The owners of an engine together behave like one shard that holds every key.
-/

namespace Recall

open Shard

variable {n : Nat} {route : Bytes → Fin n} {shards : Shards n} {single : Shard} {nowMs : I64}
  {maxReplyBytes : Nat}

/-! ### Preparing and applying the parts -/

/-- The participant has prepared its part. -/
def Ready (shards : Shards n) (seeds : Fin n → HashSeed) (nowMs : I64) (part : Part n)
    (prepared : Prepared) : Prop :=
  (shards part.owner).refusal part.operation nowMs = none ∧
    (shards part.owner).prepare (seeds part.owner) part.operation nowMs = .ok (.ok prepared)

/-- Either some participant refuses, and its error is what preparing comes to, or all are ready. -/
theorem prepareParts_spec (hwf : ∀ o, (shards o).WellFormed) (seeds : Fin n → HashSeed)
    (parts : List (Part n)) :
    (∃ part ∈ parts, ∃ failure,
        (shards part.owner).refusal part.operation nowMs = some failure ∧
        prepareParts shards seeds nowMs parts = .ok (.error failure)) ∨
      ∃ prepared, prepareParts shards seeds nowMs parts = .ok (.ok prepared) ∧
        List.Forall₂ (Ready shards seeds nowMs) parts prepared := by
  induction parts with
  | nil => exact .inr ⟨[], rfl, .nil⟩
  | cons part parts ih =>
      cases hrefusal : (shards part.owner).refusal part.operation nowMs with
      | some failure =>
          refine .inl ⟨part, List.mem_cons_self, failure, hrefusal, ?_⟩
          rw [prepareParts, prepare_of_refusal (hwf part.owner) hrefusal]
          rfl
      | none =>
          obtain ⟨_, _, ready, -, hprepare, -⟩ :=
            prepare_of_refusal_none (hwf part.owner) hrefusal (seeds part.owner)
          rcases ih with ⟨later, hlater, failure, hfailure, hrest⟩ | ⟨prepared, hrest, hready⟩
          · refine .inl ⟨later, List.mem_cons_of_mem _ hlater, failure, hfailure, ?_⟩
            rw [prepareParts, hprepare]
            simp only [abortOnPanic, bind, Except.bind, hrest]
            rfl
          · refine .inr ⟨ready :: prepared, ?_, .cons ⟨hrefusal, hprepare⟩ hready⟩
            rw [prepareParts, hprepare]
            simp only [abortOnPanic, bind, Except.bind, hrest]
            rfl

/-- Applying touches the participants, each with its own effects, and no other shard. -/
theorem applyParts_spec {pairs : List (Part n × Prepared)}
    (hnodup : (pairs.map fun pair => pair.1.owner).Nodup) {shards : Shards n}
    (hwf : ∀ pair ∈ pairs, (shards pair.1.owner).WellFormed)
    (hdescribes : ∀ pair ∈ pairs, (shards pair.1.owner).Describes pair.2) :
    ((∃ pair ∈ pairs, usizeMax ≤ (shards pair.1.owner).revision) ∧
        applyParts shards pairs = .error (.panic .revisionExhausted)) ∨
      ∃ after, applyParts shards pairs = .ok after ∧
        (∀ pair ∈ pairs,
          Installed (shards pair.1.owner) pair.2.effects (after pair.1.owner)) ∧
        ∀ o, (∀ pair ∈ pairs, pair.1.owner ≠ o) → after o = shards o := by
  induction pairs generalizing shards with
  | nil => exact .inr ⟨shards, rfl, by simp, fun _ _ => rfl⟩
  | cons pair pairs ih =>
      obtain ⟨part, prepared⟩ := pair
      rw [List.map_cons, List.nodup_cons] at hnodup
      have hother : ∀ later ∈ pairs, later.1.owner ≠ part.owner := by
        intro later hlater howner
        exact hnodup.1 (howner ▸ List.mem_map_of_mem (f := fun pair => pair.1.owner) hlater)
      rcases apply_spec (hwf _ List.mem_cons_self) (hdescribes _ List.mem_cons_self) with
        ⟨hmax, happly⟩ | ⟨shard, happly, hinstalled⟩
      · refine .inl ⟨⟨_, List.mem_cons_self, hmax⟩, ?_⟩
        simp only [applyParts, happly, abortOnPanic, bind, Except.bind]
      · have hkept : ∀ later ∈ pairs,
            Function.update shards part.owner shard later.1.owner = shards later.1.owner :=
          fun later hlater => Function.update_of_ne (hother later hlater) _ _
        have hrest := @ih hnodup.2 (Function.update shards part.owner shard)
          (fun later hlater => by
            rw [hkept later hlater]
            exact hwf later (List.mem_cons_of_mem _ hlater))
          (fun later hlater => by
            rw [hkept later hlater]
            exact hdescribes later (List.mem_cons_of_mem _ hlater))
        have hstep : applyParts shards ((part, prepared) :: pairs) =
            applyParts (Function.update shards part.owner shard) pairs := by
          simp only [applyParts, happly, abortOnPanic, bind, Except.bind]
        rw [hstep]
        rcases hrest with ⟨⟨later, hlater, hmax⟩, hpanic⟩ | ⟨after, hafter, hpairs, hframe⟩
        · rw [hkept later hlater] at hmax
          exact .inl ⟨⟨later, List.mem_cons_of_mem _ hlater, hmax⟩, hpanic⟩
        · refine .inr ⟨after, hafter, ?_, ?_⟩
          · intro later hlater
            rcases List.mem_cons.mp hlater with rfl | hlater
            · rw [hframe part.owner hother, Function.update_self]
              exact hinstalled
            · have hlaterInstalled := hpairs later hlater
              rwa [hkept later hlater] at hlaterInstalled
          · intro o ho
            rw [hframe o fun later hlater => ho later (List.mem_cons_of_mem _ hlater)]
            exact Function.update_of_ne (Ne.symm (ho _ List.mem_cons_self)) _ _

/-! ### One command -/

/-- A shard that some number of commands were executed on. -/
structure Steady (maxReplyBytes steps : Nat) (shard : Shard) : Prop where
  wellFormed : shard.WellFormed
  reply : shard.limits.maxReplyBytes = maxReplyBytes
  revision : shard.revision ≤ steps

theorem Steady.installed {steps : Nat} {shard after : Shard} {effects : Effects}
    (hsteady : Steady maxReplyBytes steps shard) (hinstalled : Installed shard effects after) :
    Steady maxReplyBytes (steps + 1) after := by
  refine ⟨hinstalled.wellFormed, ?_, ?_⟩
  · rw [hinstalled.limits]
    exact hsteady.reply
  · rw [hinstalled.revision]
    exact Nat.succ_le_succ hsteady.revision

theorem Steady.later {steps : Nat} {shard : Shard} (hsteady : Steady maxReplyBytes steps shard) :
    Steady maxReplyBytes (steps + 1) shard :=
  ⟨hsteady.wellFormed, hsteady.reply, Nat.le_succ_of_le hsteady.revision⟩

theorem executeLocal_spec {steps : Nat} {shard : Shard} (hsteady : Steady maxReplyBytes steps shard)
    (seed : HashSeed) (operation : Operation) (nowMs : I64) :
    (∃ failure, shard.refusal operation nowMs = some failure ∧
        executeLocal shard seed operation nowMs = .ok (shard, failure.reply)) ∨
      (usizeMax ≤ steps ∧
        executeLocal shard seed operation nowMs = .error (.panic .revisionExhausted)) ∨
      ∃ response effects after, shard.refusal operation nowMs = none ∧
        shard.evaluate operation nowMs = .ok (response, effects) ∧
        executeLocal shard seed operation nowMs = .ok (after, response) ∧
        Installed shard effects after := by
  cases hrefusal : shard.refusal operation nowMs with
  | some failure =>
      refine .inl ⟨failure, rfl, ?_⟩
      rw [executeLocal, execute_of_refusal hsteady.wellFormed hrefusal]
      rfl
  | none =>
      rcases execute_of_refusal_none hsteady.wellFormed hrefusal seed with
        ⟨hmax, hexecute⟩ | ⟨response, effects, after, heval, hexecute, hinstalled⟩
      · refine .inr (.inl ⟨le_trans hmax hsteady.revision, ?_⟩)
        rw [executeLocal, hexecute]
        rfl
      · refine .inr (.inr ⟨response, effects, after, rfl, heval, ?_, hinstalled⟩)
        rw [executeLocal, hexecute]
        rfl

/-- A local command that came back was refused, or its effects are installed. -/
theorem executeLocal_ok {shard after : Shard} {seed : HashSeed} {operation : Operation}
    {reply : Reply} (hwf : shard.WellFormed)
    (hexecute : executeLocal shard seed operation nowMs = .ok (after, reply)) :
    (∃ failure, shard.refusal operation nowMs = some failure ∧ after = shard ∧
        reply = failure.reply) ∨
      ∃ effects, shard.refusal operation nowMs = none ∧
        shard.evaluate operation nowMs = .ok (reply, effects) ∧ Installed shard effects after := by
  rcases executeLocal_spec (⟨hwf, rfl, le_refl _⟩ : Steady _ _ shard) seed operation nowMs with
    ⟨failure, hrefusal, hok⟩ | ⟨-, hpanic⟩ | ⟨response, effects, later, hnone, heval, hok, hinstalled⟩
  · rw [hok] at hexecute
    cases hexecute
    exact .inl ⟨failure, hrefusal, rfl, rfl⟩
  · rw [hpanic] at hexecute
    cases hexecute
  · rw [hok] at hexecute
    cases hexecute
    exact .inr ⟨effects, hnone, heval, hinstalled⟩

theorem Shard.Installed.lookup {shard later : Shard} {effects : Effects}
    (hinstalled : Installed shard effects later) (key : Bytes) :
    later.entries.lookup key = (effects.lookup key).getD (shard.entries.lookup key) := by
  rw [hinstalled.entries, Finmap.lookup_overlay]

section

variable {operation : Operation} {parts : List (Part n)} {reply : Reply} {effects : Effects}
  {seeds : Fin n → HashSeed} {prepared : List Prepared}

/-- What a participant has prepared is its piece of the command. -/
theorem Pieces.ready (pieces : Pieces route shards nowMs maxReplyBytes operation parts reply effects)
    (hwf : ∀ o, (shards o).WellFormed)
    (hready : List.Forall₂ (Ready shards seeds nowMs) parts prepared) {pair : Part n × Prepared}
    (hpair : pair ∈ parts.zip prepared) :
    pair.1 ∈ parts ∧ pair.2.response = pieces.respond pair.1 ∧
      pair.2.effects = (seeds pair.1.owner).arrange (pieces.touched pair.1) ∧
      (shards pair.1.owner).Describes pair.2 := by
  have hmem : pair.1 ∈ parts := (List.of_mem_zip hpair).1
  obtain ⟨hrefusal, hprepared⟩ := List.forall₂_zip hready hpair
  obtain ⟨_, _, _, heval, hprepare, hresponse, heffects, hdescribes⟩ :=
    prepare_of_refusal_none (hwf pair.1.owner) hrefusal (seeds pair.1.owner)
  rw [pieces.evaluate pair.1 hmem] at heval
  rw [hprepared] at hprepare
  cases heval
  cases hprepare
  exact ⟨hmem, hresponse, heffects, hdescribes⟩

theorem Pieces.combine_ready
    (pieces : Pieces route shards nowMs maxReplyBytes operation parts reply effects)
    (hwf : ∀ o, (shards o).WellFormed)
    (hready : List.Forall₂ (Ready shards seeds nowMs) parts prepared) :
    Recall.combine operation parts (prepared.map Prepared.response) = .ok reply := by
  have hresponses : prepared.map Prepared.response = parts.map pieces.respond := by
    calc
      prepared.map Prepared.response =
          ((parts.zip prepared).map Prod.snd).map Prepared.response := by
        rw [List.map_snd_zip (le_of_eq hready.length_eq.symm)]
      _ = ((parts.zip prepared).map Prod.fst).map pieces.respond := by
        rw [List.map_map, List.map_map]
        apply List.map_congr_left
        intro pair hpair
        exact (pieces.ready hwf hready hpair).2.1
      _ = parts.map pieces.respond := by rw [List.map_fst_zip (le_of_eq hready.length_eq)]
  rw [hresponses]
  exact pieces.combine

/-- The tables once every participant has installed its piece. -/
theorem Pieces.lookup_installed
    (pieces : Pieces route shards nowMs maxReplyBytes operation parts reply effects)
    (hwf : ∀ o, (shards o).WellFormed)
    (hready : List.Forall₂ (Ready shards seeds nowMs) parts prepared) {after : Shards n}
    (hinstalled : ∀ pair ∈ parts.zip prepared,
      Installed (shards pair.1.owner) pair.2.effects (after pair.1.owner))
    (hframe : ∀ o, (∀ pair ∈ parts.zip prepared, pair.1.owner ≠ o) → after o = shards o)
    (key : Bytes) (o : Fin n) :
    (after o).entries.lookup key =
      if route key = o then (effects.lookup key).getD ((shards o).entries.lookup key)
      else (shards o).entries.lookup key := by
  by_cases ho : ∃ pair ∈ parts.zip prepared, pair.1.owner = o
  · obtain ⟨pair, hpair, rfl⟩ := ho
    obtain ⟨hmem, -, heffects, -⟩ := pieces.ready hwf hready hpair
    rw [(hinstalled pair hpair).lookup, heffects, HashSeed.lookup_arrange, pieces.lookup pair.1 hmem]
    split <;> rfl
  · push Not at ho
    rw [hframe o ho]
    -- An owner without a part has no effect to install under its keys.
    split
    · rename_i hroute
      cases heffect : effects.lookup key with
      | none => rfl
      | some entry =>
          obtain ⟨part, hmem, howner⟩ := pieces.covered key entry heffect
          rw [← List.map_fst_zip (le_of_eq hready.length_eq)] at hmem
          obtain ⟨pair, hpair, rfl⟩ := List.mem_map.mp hmem
          exact absurd (howner.trans hroute) (ho pair hpair)
    · rfl

end

/-- The ways a cross-owner command can go: a participant refuses, the combined reply is too long, an
owner has used up its revisions, or all participants install their pieces. -/
theorem executeCross_spec {steps : Nat} (hsteady : ∀ o, Steady maxReplyBytes steps (shards o))
    {operation : Operation} {parts : List (Part n)} (hsplit : split route operation = .ok parts)
    {reply : Reply} {effects : Effects}
    (pieces : Pieces route shards nowMs maxReplyBytes operation parts reply effects)
    (seeds : Fin n → HashSeed) :
    (∃ part ∈ parts, ∃ failure, (shards part.owner).refusal part.operation nowMs = some failure ∧
        executeCross route maxReplyBytes shards seeds operation nowMs =
          .ok (shards, failure.reply)) ∨
      (reply.exceeds maxReplyBytes = true ∧
        (∀ part ∈ parts, (shards part.owner).refusal part.operation nowMs = none) ∧
        executeCross route maxReplyBytes shards seeds operation nowMs =
          .ok (shards, EngineError.responseLimit.reply)) ∨
      (usizeMax ≤ steps ∧ executeCross route maxReplyBytes shards seeds operation nowMs =
          .error (.panic .revisionExhausted)) ∨
      ∃ after, reply.exceeds maxReplyBytes = false ∧
        executeCross route maxReplyBytes shards seeds operation nowMs = .ok (after, reply) ∧
        (∀ o, Steady maxReplyBytes (steps + 1) (after o)) ∧
        ∀ key o, (after o).entries.lookup key =
          if route key = o then (effects.lookup key).getD ((shards o).entries.lookup key)
          else (shards o).entries.lookup key := by
  have hwf := fun o => (hsteady o).wellFormed
  rcases prepareParts_spec hwf seeds parts with
    ⟨part, hpart, failure, hrefusal, hprepare⟩ | ⟨prepared, hprepare, hready⟩
  · refine .inl ⟨part, hpart, failure, hrefusal, ?_⟩
    simp only [executeCross, hsplit, hprepare, bind, Except.bind]
    rfl
  have hcombine := pieces.combine_ready hwf hready
  have hfst : (parts.zip prepared).map Prod.fst = parts :=
    List.map_fst_zip (le_of_eq hready.length_eq)
  by_cases hexceeds : reply.exceeds maxReplyBytes = true
  · refine .inr (.inl ⟨hexceeds, ?_, ?_⟩)
    · intro part hmem
      rw [← hfst] at hmem
      obtain ⟨pair, hpair, rfl⟩ := List.mem_map.mp hmem
      exact (List.forall₂_zip hready hpair).1
    · simp only [executeCross, hsplit, hprepare, bind, Except.bind, hcombine, if_pos hexceeds]
      rfl
  have hexecute : executeCross route maxReplyBytes shards seeds operation nowMs =
      (applyParts shards (parts.zip prepared)).map fun after => (after, reply) := by
    simp only [executeCross, hsplit, hprepare, bind, Except.bind, hcombine, if_neg hexceeds]
    cases applyParts shards (parts.zip prepared) <;> rfl
  have howners : ((parts.zip prepared).map fun pair => pair.1.owner) = parts.map Part.owner := by
    rw [← hfst, List.map_map, hfst]
    rfl
  have happly := @applyParts_spec n (parts.zip prepared) (by rw [howners]; exact pieces.nodup) shards
    (fun pair _ => hwf pair.1.owner) fun pair hpair => (pieces.ready hwf hready hpair).2.2.2
  rcases happly with ⟨⟨pair, -, hmax⟩, hpanic⟩ | ⟨after, hafter, hinstalled, hframe⟩
  · refine .inr (.inr (.inl ⟨le_trans hmax (hsteady pair.1.owner).revision, ?_⟩))
    rw [hexecute, hpanic]
    rfl
  refine .inr (.inr (.inr ⟨after, Bool.eq_false_of_not_eq_true hexceeds, ?_, fun o => ?_,
    pieces.lookup_installed hwf hready hinstalled hframe⟩))
  · rw [hexecute, hafter]
    rfl
  · by_cases ho : ∃ pair ∈ parts.zip prepared, pair.1.owner = o
    · obtain ⟨pair, hpair, rfl⟩ := ho
      exact (hsteady _).installed (hinstalled pair hpair)
    · push Not at ho
      rw [hframe o ho]
      exact (hsteady o).later

/-! ### Agreement with the single shard -/

/-- No owner holds a key that is routed to another. -/
def Exclusive (route : Bytes → Fin n) (shards : Shards n) : Prop :=
  ∀ key o, route key ≠ o → (shards o).entries.lookup key = none

/-- What refuses an operation, other than the budget, is its own error or the length of its reply. -/
theorem refusal_of_evaluate {s : Shard} {operation : Operation} {failure : EngineError}
    (hrefusal : s.refusal operation nowMs = some failure) (hbudget : failure ≠ .budget) :
    s.evaluate operation nowMs = .error failure ∨
      ∃ response effects, s.evaluate operation nowMs = .ok (response, effects) ∧
        response.exceeds s.limits.maxReplyBytes = true ∧ failure = .responseLimit := by
  unfold refusal at hrefusal
  split at hrefusal
  · rename_i heval
    cases hrefusal
    exact .inl heval
  · rename_i response effects heval
    split at hrefusal
    · rename_i hexceeds
      cases hrefusal
      exact .inr ⟨response, effects, heval, hexceeds, rfl⟩
    · split at hrefusal
      · cases hrefusal
        exact absurd rfl hbudget
      · cases hrefusal

theorem refusal_of_exceeds {s : Shard} {operation : Operation} {response : Reply}
    {effects : Effects} (heval : s.evaluate operation nowMs = .ok (response, effects))
    (hexceeds : response.exceeds s.limits.maxReplyBytes = true) :
    s.refusal operation nowMs = some .responseLimit := by
  simp only [refusal, heval, if_pos hexceeds]

theorem refusal_congr {s t : Shard} {operation : Operation}
    (heval : s.evaluate operation nowMs = t.evaluate operation nowMs)
    (hlimit : s.limits.maxReplyBytes = t.limits.maxReplyBytes) {failure : EngineError}
    (hrefusal : s.refusal operation nowMs = some failure) (hbudget : failure ≠ .budget) :
    t.refusal operation nowMs = some failure := by
  rcases refusal_of_evaluate hrefusal hbudget with herror | ⟨response, effects, hok, hexceeds, rfl⟩
  · rw [heval] at herror
    simp only [refusal, herror]
  · rw [heval] at hok
    rw [hlimit] at hexceeds
    exact refusal_of_exceeds hok hexceeds

theorem ne_budget_of_reply {failure : EngineError}
    (hreply : failure.reply ≠ EngineError.budget.reply) : failure ≠ .budget := by
  rintro rfl
  exact hreply rfl

variable {steps : Nat} {operation : Operation} {seeds : Fin n → HashSeed} {seed : HashSeed}

/-- A command all of whose keys live on one owner. -/
theorem local_agrees {o : Fin n} (hsteady : Steady maxReplyBytes steps (shards o))
    (hsingle : Steady maxReplyBytes steps single) (hmerges : Merges route shards single)
    (hexclusive : Exclusive route shards) (hkeys : ∀ key ∈ operation.keys, route key = o)
    {shard' single' : Shard} {reply reply' : Reply}
    (hexecute : executeLocal (shards o) (seeds o) operation nowMs = .ok (shard', reply))
    (hexecute' : executeLocal single seed operation nowMs = .ok (single', reply'))
    (hbudget : reply ≠ EngineError.budget.reply) (hbudget' : reply' ≠ EngineError.budget.reply) :
    reply = reply' ∧ Merges route (Function.update shards o shard') single' ∧
      Exclusive route (Function.update shards o shard') := by
  have heval : (shards o).evaluate operation nowMs = single.evaluate operation nowMs := by
    apply evaluate_congr
    intro key hkey
    rw [← hkeys key hkey]
    exact hmerges key
  have hlimit : (shards o).limits.maxReplyBytes = single.limits.maxReplyBytes :=
    hsteady.reply.trans hsingle.reply.symm
  rcases executeLocal_ok hsteady.wellFormed hexecute with
    ⟨failure, hrefusal, rfl, rfl⟩ | ⟨effects, hnone, hok, hinstalled⟩
  · have hrefusal' := refusal_congr heval hlimit hrefusal (ne_budget_of_reply hbudget)
    rcases executeLocal_ok hsingle.wellFormed hexecute' with
      ⟨failure', hfailure', rfl, rfl⟩ | ⟨_, hnone', -⟩
    · rw [hrefusal'] at hfailure'
      cases hfailure'
      rw [Function.update_eq_self]
      exact ⟨rfl, hmerges, hexclusive⟩
    · rw [hrefusal'] at hnone'
      cases hnone'
  · rcases executeLocal_ok hsingle.wellFormed hexecute' with
      ⟨failure', hfailure', rfl, rfl⟩ | ⟨effects', -, hok', hinstalled'⟩
    · have hrefusal := refusal_congr heval.symm hlimit.symm hfailure' (ne_budget_of_reply hbudget')
      rw [hnone] at hrefusal
      cases hrefusal
    · rw [heval, hok'] at hok
      cases hok
      have hforeign : ∀ key, route key ≠ o → effects.lookup key = none := by
        intro key hroute
        by_contra hsome
        obtain ⟨entry, hentry⟩ := Option.ne_none_iff_exists'.mp hsome
        exact hroute (hkeys key (evaluate_footprint hok' hentry))
      refine ⟨rfl, ?_, ?_⟩
      · intro key
        rw [hinstalled'.lookup key]
        by_cases hroute : route key = o
        · rw [hroute, Function.update_self, hinstalled.lookup key, ← hmerges key, hroute]
        · rw [Function.update_of_ne hroute, hforeign key hroute]
          exact hmerges key
      · intro key o' hroute
        by_cases ho : o' = o
        · subst ho
          rw [Function.update_self, hinstalled.lookup key, hforeign key hroute]
          exact hexclusive key o' hroute
        · rw [Function.update_of_ne ho]
          exact hexclusive key o' hroute

/-- A cross-owner command. -/
theorem cross_agrees (hsteady : ∀ o, Steady maxReplyBytes steps (shards o))
    (hsingle : Steady maxReplyBytes steps single) (hmax : 64 ≤ maxReplyBytes)
    (hmerges : Merges route shards single) (hexclusive : Exclusive route shards)
    (hdestination : destination route operation = .cross)
    {shards' : Shards n} {single' : Shard} {reply reply' : Reply}
    (hexecute : executeCross route maxReplyBytes shards seeds operation nowMs =
      .ok (shards', reply))
    (hexecute' : executeLocal single seed operation nowMs = .ok (single', reply'))
    (hbudget : reply ≠ EngineError.budget.reply) (hbudget' : reply' ≠ EngineError.budget.reply) :
    reply = reply' ∧ Merges route shards' single' ∧ Exclusive route shards' := by
  obtain ⟨parts, whole, effects, hsplit, heval, ⟨pieces⟩⟩ :=
    pieces_of_cross hmerges hmax hdestination nowMs
  have hrefused : ∀ {shards' : Shards n} {reply : Reply}, whole.exceeds maxReplyBytes = true →
      (shards', reply) = (shards, EngineError.responseLimit.reply) →
      reply = reply' ∧ Merges route shards' single' ∧ Exclusive route shards' := by
    intro shards' reply hexceeds hresult
    cases hresult
    have hrefusal := refusal_of_exceeds heval (by rw [hsingle.reply]; exact hexceeds)
    rcases executeLocal_ok hsingle.wellFormed hexecute' with
      ⟨failure, hfailure, rfl, rfl⟩ | ⟨_, hnone, -⟩
    · rw [hrefusal] at hfailure
      cases hfailure
      exact ⟨rfl, hmerges, hexclusive⟩
    · rw [hrefusal] at hnone
      cases hnone
  rcases executeCross_spec hsteady hsplit pieces seeds with
    ⟨part, hpart, failure, hfailure, hresult⟩ | ⟨hexceeds, -, hresult⟩ | ⟨-, hresult⟩ |
      ⟨after, hfits, hresult, -, hlookup⟩
  · rw [hresult] at hexecute
    cases hexecute
    rcases refusal_of_evaluate hfailure (ne_budget_of_reply hbudget) with
      herror | ⟨response, _, hok, hexceeds, rfl⟩
    · rw [pieces.evaluate part hpart] at herror
      cases herror
    · rw [pieces.evaluate part hpart] at hok
      cases hok
      rw [(hsteady part.owner).reply] at hexceeds
      exact hrefused (pieces.exceeds part hpart hexceeds) rfl
  · rw [hresult] at hexecute
    cases hexecute
    exact hrefused hexceeds rfl
  · rw [hresult] at hexecute
    cases hexecute
  · rw [hresult] at hexecute
    cases hexecute
    rcases executeLocal_ok hsingle.wellFormed hexecute' with
      ⟨failure, hfailure, rfl, rfl⟩ | ⟨effects', -, hok, hinstalled⟩
    · rcases refusal_of_evaluate hfailure (ne_budget_of_reply hbudget') with
        herror | ⟨_, _, hok, hexceeds, -⟩
      · rw [heval] at herror
        cases herror
      · rw [heval] at hok
        cases hok
        rw [hsingle.reply, hfits] at hexceeds
        cases hexceeds
    · rw [heval] at hok
      cases hok
      refine ⟨rfl, ?_, ?_⟩
      · intro key
        rw [hlookup key (route key), if_pos rfl, hinstalled.lookup key, hmerges key]
      · intro key o hroute
        rw [hlookup key o, if_neg hroute]
        exact hexclusive key o hroute

/-! ### Runs -/

/-- One command of a script, with the hash seeds of the shards that execute it. -/
structure ScriptStep (n : Nat) where
  operation : Operation
  nowMs : I64
  seeds : Fin n → HashSeed
  seed : HashSeed

def runSharded (route : Bytes → Fin n) (maxReplyBytes : Nat) (shards : Shards n) :
    List (ScriptStep n) → Except Fatal (Shards n × List Reply)
  | [] => .ok (shards, [])
  | step :: script => do
      let (shards, reply) ←
        executeSharded route maxReplyBytes shards step.seeds step.operation step.nowMs
      let (shards, replies) ← runSharded route maxReplyBytes shards script
      return (shards, reply :: replies)

def runSingle (shard : Shard) : List (ScriptStep n) → Except Fatal (Shard × List Reply)
  | [] => .ok (shard, [])
  | step :: script => do
      let (shard, reply) ← executeLocal shard step.seed step.operation step.nowMs
      let (shard, replies) ← runSingle shard script
      return (shard, reply :: replies)

theorem executeLocal_steady {shard : Shard} (hsteady : Steady maxReplyBytes steps shard)
    (seed : HashSeed) (operation : Operation) (nowMs : I64) :
    (usizeMax ≤ steps ∧
        executeLocal shard seed operation nowMs = .error (.panic .revisionExhausted)) ∨
      ∃ after reply, executeLocal shard seed operation nowMs = .ok (after, reply) ∧
        Steady maxReplyBytes (steps + 1) after := by
  rcases executeLocal_spec hsteady seed operation nowMs with
    ⟨failure, -, hresult⟩ | hpanic | ⟨response, effects, after, -, -, hresult, hinstalled⟩
  · exact .inr ⟨shard, failure.reply, hresult, hsteady.later⟩
  · exact .inl hpanic
  · exact .inr ⟨after, response, hresult, hsteady.installed hinstalled⟩

theorem executeSharded_steady (hsteady : ∀ o, Steady maxReplyBytes steps (shards o))
    (hmax : 64 ≤ maxReplyBytes) (hkeys : operation.keys ≠ []) (seeds : Fin n → HashSeed)
    (nowMs : I64) :
    (usizeMax ≤ steps ∧ executeSharded route maxReplyBytes shards seeds operation nowMs =
        .error (.panic .revisionExhausted)) ∨
      ∃ after reply, executeSharded route maxReplyBytes shards seeds operation nowMs =
          .ok (after, reply) ∧
        ∀ o, Steady maxReplyBytes (steps + 1) (after o) := by
  cases hdestination : destination route operation with
  | nowhere => exact absurd hdestination (destination_ne_nowhere hkeys)
  | owner o =>
      simp only [executeSharded, hdestination]
      rcases executeLocal_steady (hsteady o) (seeds o) operation nowMs with
        ⟨hexhausted, hpanic⟩ | ⟨after, reply, hresult, hafter⟩
      · exact .inl ⟨hexhausted, by rw [hpanic]; rfl⟩
      · refine .inr ⟨Function.update shards o after, reply, by rw [hresult]; rfl, fun other => ?_⟩
        by_cases hother : other = o
        · subst hother
          rw [Function.update_self]
          exact hafter
        · rw [Function.update_of_ne hother]
          exact (hsteady other).later
  | cross =>
      simp only [executeSharded, hdestination]
      obtain ⟨single, hmerges⟩ := exists_merges route shards
      obtain ⟨parts, reply, effects, hsplit, -, ⟨pieces⟩⟩ :=
        pieces_of_cross hmerges hmax hdestination nowMs
      rcases executeCross_spec hsteady hsplit pieces seeds with
        ⟨_, -, failure, -, hresult⟩ | ⟨-, -, hresult⟩ | hpanic | ⟨after, -, hresult, hafter, -⟩
      · exact .inr ⟨shards, _, hresult, fun o => (hsteady o).later⟩
      · exact .inr ⟨shards, _, hresult, fun o => (hsteady o).later⟩
      · exact .inl hpanic
      · exact .inr ⟨after, reply, hresult, hafter⟩

theorem executeSharded_agrees (hsteady : ∀ o, Steady maxReplyBytes steps (shards o))
    (hsingle : Steady maxReplyBytes steps single) (hmax : 64 ≤ maxReplyBytes)
    (hmerges : Merges route shards single) (hexclusive : Exclusive route shards)
    (hkeys : operation.keys ≠ []) {shards' : Shards n} {single' : Shard} {reply reply' : Reply}
    (hexecute : executeSharded route maxReplyBytes shards seeds operation nowMs =
      .ok (shards', reply))
    (hexecute' : executeLocal single seed operation nowMs = .ok (single', reply'))
    (hbudget : reply ≠ EngineError.budget.reply) (hbudget' : reply' ≠ EngineError.budget.reply) :
    reply = reply' ∧ Merges route shards' single' ∧ Exclusive route shards' := by
  cases hdestination : destination route operation with
  | nowhere => exact absurd hdestination (destination_ne_nowhere hkeys)
  | owner o =>
      simp only [executeSharded, hdestination] at hexecute
      rcases hlocal : executeLocal (shards o) (seeds o) operation nowMs with _ | ⟨shard', answer⟩
      · rw [hlocal] at hexecute
        cases hexecute
      · rw [hlocal] at hexecute
        cases hexecute
        exact local_agrees (hsteady o) hsingle hmerges hexclusive (destination_owner hdestination)
          hlocal hexecute' hbudget hbudget'
  | cross =>
      simp only [executeSharded, hdestination] at hexecute
      exact cross_agrees hsteady hsingle hmax hmerges hexclusive hdestination hexecute hexecute'
        hbudget hbudget'

/-- A run is stopped by nothing but an exhausted revision counter, which takes more commands than the
counter has values. -/
theorem runSharded_steady {script : List (ScriptStep n)}
    (hkeys : ∀ step ∈ script, step.operation.keys ≠ []) (hmax : 64 ≤ maxReplyBytes)
    (hsteady : ∀ o, Steady maxReplyBytes steps (shards o)) :
    (runSharded route maxReplyBytes shards script = .error (.panic .revisionExhausted) ∧
        usizeMax < steps + script.length) ∨
      ∃ after replies, runSharded route maxReplyBytes shards script = .ok (after, replies) ∧
        ∀ o, Steady maxReplyBytes (steps + script.length) (after o) := by
  induction script generalizing shards steps with
  | nil => exact .inr ⟨shards, [], rfl, hsteady⟩
  | cons step script ih =>
      have hstep := @executeSharded_steady n route shards maxReplyBytes steps step.operation hsteady
        hmax (hkeys step List.mem_cons_self) step.seeds step.nowMs
      rw [List.length_cons]
      rcases hstep with ⟨hexhausted, hpanic⟩ | ⟨middle, reply, hresult, hmiddle⟩
      · refine .inl ⟨?_, by omega⟩
        rw [runSharded, hpanic]
        rfl
      · rcases ih (fun later hlater => hkeys later (List.mem_cons_of_mem _ hlater)) hmiddle with
          ⟨hpanic, hlong⟩ | ⟨after, replies, hrest, hafter⟩
        · refine .inl ⟨?_, by omega⟩
          simp only [runSharded, hresult, bind, Except.bind, hpanic]
        · refine .inr ⟨after, reply :: replies, ?_, ?_⟩
          · simp only [runSharded, hresult, bind, Except.bind, hrest]
            rfl
          · intro o
            have hfinal := hafter o
            rwa [show steps + 1 + script.length = steps + (script.length + 1) by omega] at hfinal

theorem runSingle_steady {script : List (ScriptStep n)}
    (hsteady : Steady maxReplyBytes steps single) :
    (runSingle single script = .error (.panic .revisionExhausted) ∧
        usizeMax < steps + script.length) ∨
      ∃ after replies, runSingle single script = .ok (after, replies) := by
  induction script generalizing single steps with
  | nil => exact .inr ⟨single, [], rfl⟩
  | cons step script ih =>
      rw [List.length_cons]
      rcases executeLocal_steady hsteady step.seed step.operation step.nowMs with
        ⟨hexhausted, hpanic⟩ | ⟨middle, reply, hresult, hmiddle⟩
      · refine .inl ⟨?_, by omega⟩
        rw [runSingle, hpanic]
        rfl
      · rcases ih hmiddle with ⟨hpanic, hlong⟩ | ⟨after, replies, hrest⟩
        · refine .inl ⟨?_, by omega⟩
          simp only [runSingle, hresult, bind, Except.bind, hpanic]
        · refine .inr ⟨after, reply :: replies, ?_⟩
          simp only [runSingle, hresult, bind, Except.bind, hrest]
          rfl

theorem run_agrees {script : List (ScriptStep n)}
    (hkeys : ∀ step ∈ script, step.operation.keys ≠ []) (hmax : 64 ≤ maxReplyBytes)
    (hsteady : ∀ o, Steady maxReplyBytes steps (shards o))
    (hsingle : Steady maxReplyBytes steps single) (hmerges : Merges route shards single)
    (hexclusive : Exclusive route shards) {shards' : Shards n} {single' : Shard}
    {replies replies' : List Reply}
    (hrun : runSharded route maxReplyBytes shards script = .ok (shards', replies))
    (hrun' : runSingle single script = .ok (single', replies'))
    (hbudget : EngineError.budget.reply ∉ replies)
    (hbudget' : EngineError.budget.reply ∉ replies') :
    replies = replies' ∧ Merges route shards' single' ∧ Exclusive route shards' := by
  induction script generalizing shards single steps replies replies' with
  | nil =>
      cases hrun
      cases hrun'
      exact ⟨rfl, hmerges, hexclusive⟩
  | cons step script ih =>
      have hfirst := hkeys step List.mem_cons_self
      have hlater : ∀ later ∈ script, later.operation.keys ≠ [] :=
        fun later hlater => hkeys later (List.mem_cons_of_mem _ hlater)
      rcases @executeSharded_steady n route shards maxReplyBytes steps step.operation hsteady hmax
        hfirst step.seeds step.nowMs with ⟨-, hpanic⟩ | ⟨middle, reply, hresult, hmiddle⟩
      · simp only [runSharded, hpanic, bind, Except.bind] at hrun
        cases hrun
      rcases executeLocal_steady hsingle step.seed step.operation step.nowMs with
        ⟨-, hpanic⟩ | ⟨middle', reply', hresult', hmiddle'⟩
      · simp only [runSingle, hpanic, bind, Except.bind] at hrun'
        cases hrun'
      simp only [runSharded, hresult, bind, Except.bind] at hrun
      simp only [runSingle, hresult', bind, Except.bind] at hrun'
      rcases hrest : runSharded route maxReplyBytes middle script with _ | ⟨final, rest⟩
      · rw [hrest] at hrun
        cases hrun
      rcases hrest' : runSingle middle' script with _ | ⟨final', rest'⟩
      · rw [hrest'] at hrun'
        cases hrun'
      rw [hrest] at hrun
      rw [hrest'] at hrun'
      cases hrun
      cases hrun'
      rw [List.mem_cons, not_or] at hbudget hbudget'
      obtain ⟨hreply, hmerges', hexclusive'⟩ := executeSharded_agrees hsteady hsingle hmax hmerges
        hexclusive hfirst hresult hresult' (Ne.symm hbudget.1) (Ne.symm hbudget'.1)
      obtain ⟨hreplies, hfinal⟩ := ih hlater hmiddle hmiddle' hmerges' hexclusive' hrest hrest'
        hbudget.2 hbudget'.2
      exact ⟨by rw [hreply, hreplies], hfinal⟩

/-- A participant that refuses keeps every shard as it was. -/
theorem cross_refused (hsteady : ∀ o, Steady maxReplyBytes steps (shards o))
    (hdestination : destination route operation = .cross)
    {parts : List (Part n)} (hsplit : split route operation = .ok parts) {part : Part n}
    (hpart : part ∈ parts) {failure : EngineError}
    (hprepare : (shards part.owner).prepare (seeds part.owner) part.operation nowMs =
      .ok (.error failure)) :
    ∃ reply, executeSharded route maxReplyBytes shards seeds operation nowMs =
      .ok (shards, reply) := by
  simp only [executeSharded, hdestination]
  rcases @prepareParts_spec n shards nowMs (fun o => (hsteady o).wellFormed) seeds parts with
    ⟨_, -, refused, -, hparts⟩ | ⟨prepared, -, hready⟩
  · exact ⟨refused.reply, by simp only [executeCross, hsplit, hparts, bind, Except.bind]; rfl⟩
  · have hfst : (parts.zip prepared).map Prod.fst = parts :=
      List.map_fst_zip (le_of_eq hready.length_eq)
    rw [← hfst] at hpart
    obtain ⟨pair, hpair, rfl⟩ := List.mem_map.mp hpart
    rw [(List.forall₂_zip hready hpair).2] at hprepare
    cases hprepare

theorem new_steady {limits : ShardLimits} {shard : Shard} (hnew : Shard.new limits = .ok shard) :
    Steady limits.maxReplyBytes 0 shard ∧ 64 ≤ limits.maxReplyBytes ∧
      ∀ key, shard.entries.lookup key = none := by
  have hwf := wellFormed_new hnew
  unfold Shard.new at hnew
  split at hnew
  · cases hnew
  · rename_i hlimits
    push Not at hlimits
    cases hnew
    exact ⟨⟨hwf, rfl, le_refl 0⟩, hlimits.2.2, fun key => Finmap.lookup_empty key⟩

/-- For every number of owners, routing and script, an engine answers like one shard with the same
reply limit, as long as no budget is exhausted on either side; each key lives on its owner only, and a
refused cross-owner command changes nothing. -/
theorem sharding_invisible (route : Bytes → Fin n) {limits : Fin n → ShardLimits}
    {singleLimits : ShardLimits}
    (hreply : ∀ o, (limits o).maxReplyBytes = singleLimits.maxReplyBytes)
    {shards : Shards n} (hshards : ∀ o, Shard.new (limits o) = .ok (shards o))
    {single : Shard} (hsingle : Shard.new singleLimits = .ok single)
    (script : List (ScriptStep n)) (hkeys : ∀ step ∈ script, step.operation.keys ≠ []) :
    (∀ failure, runSharded route singleLimits.maxReplyBytes shards script = .error failure →
      failure = .panic .revisionExhausted ∧ usizeMax < script.length) ∧
    (∀ failure, runSingle single script = .error failure →
      failure = .panic .revisionExhausted ∧ usizeMax < script.length) ∧
    ∀ shards' replies,
      runSharded route singleLimits.maxReplyBytes shards script = .ok (shards', replies) →
      (∀ single' replies', runSingle single script = .ok (single', replies') →
        EngineError.budget.reply ∉ replies → EngineError.budget.reply ∉ replies' →
        replies = replies' ∧
          (∀ key, (shards' (route key)).entries.lookup key = single'.entries.lookup key) ∧
          ∀ key o, route key ≠ o → (shards' o).entries.lookup key = none) ∧
      ∀ operation nowMs seeds parts, destination route operation = .cross →
        split route operation = .ok parts →
        (∃ part ∈ parts, ∃ failure, (shards' part.owner).prepare (seeds part.owner)
          part.operation nowMs = .ok (.error failure)) →
        ∃ reply, executeSharded route singleLimits.maxReplyBytes shards' seeds operation nowMs =
          .ok (shards', reply) := by
  obtain ⟨hsingleSteady, hmax, hsingleEmpty⟩ := new_steady hsingle
  have hsteady : ∀ o, Steady singleLimits.maxReplyBytes 0 (shards o) := by
    intro o
    have hnew := (new_steady (hshards o)).1
    rwa [hreply o] at hnew
  have hempty := fun o => (new_steady (hshards o)).2.2
  have hrun := @runSharded_steady n route shards singleLimits.maxReplyBytes 0 script hkeys hmax
    hsteady
  have hrun' := @runSingle_steady n single singleLimits.maxReplyBytes 0 script hsingleSteady
  rw [Nat.zero_add] at hrun hrun'
  refine ⟨?_, ?_, ?_⟩
  · intro failure hfailure
    rcases hrun with ⟨hpanic, hlong⟩ | ⟨_, _, hok, -⟩
    · rw [hpanic] at hfailure
      cases hfailure
      exact ⟨rfl, hlong⟩
    · rw [hok] at hfailure
      cases hfailure
  · intro failure hfailure
    rcases hrun' with ⟨hpanic, hlong⟩ | ⟨_, _, hok⟩
    · rw [hpanic] at hfailure
      cases hfailure
      exact ⟨rfl, hlong⟩
    · rw [hok] at hfailure
      cases hfailure
  · intro shards' replies hsharded
    refine ⟨?_, ?_⟩
    · intro single' replies' hrunSingle hbudget hbudget'
      exact run_agrees hkeys hmax hsteady hsingleSteady
        (fun key => (hempty (route key) key).trans (hsingleEmpty key).symm)
        (fun key o _ => hempty o key) hsharded hrunSingle hbudget hbudget'
    · rintro operation nowMs seeds parts hdestination hsplit ⟨part, hpart, failure, hprepare⟩
      rcases hrun with ⟨hpanic, -⟩ | ⟨_, _, hok, hafter⟩
      · rw [hpanic] at hsharded
        cases hsharded
      · rw [hok] at hsharded
        cases hsharded
        exact cross_refused hafter hdestination hsplit hpart hprepare

def sampleRoute (key : Bytes) : Fin 2 := if key = ascii "a" then 0 else 1

/-- An `MSET`, an `MGET` with a repeated key and a `DEL`, all over both owners. -/
def sampleScript : List (ScriptStep 2) :=
  [⟨.multiSet [(ascii "a", ascii "1"), (ascii "b", ascii "2"), (ascii "a", ascii "3")], 0,
      fun _ => .insertionOrder, .insertionOrder⟩,
    ⟨.multiGet [ascii "b", ascii "a", ascii "c", ascii "b"], 1, fun _ => .insertionOrder,
      .insertionOrder⟩,
    ⟨.delete [ascii "a", ascii "b", ascii "a"], 1, fun _ => .insertionOrder, .insertionOrder⟩]

def sampleReplies : List Reply :=
  [.ok, .array [.bulk (some (ascii "2")), .bulk (some (ascii "3")), .bulk none,
    .bulk (some (ascii "2"))], .count 2]

def sampleShardLimits : ShardLimits := ⟨8, 64, 64⟩

theorem sharding_invisible_sample : ∃ shards single shards' single' replies',
    (∀ o : Fin 2, Shard.new sampleShardLimits = .ok (shards o)) ∧
      Shard.new sampleShardLimits = .ok single ∧
      runSharded sampleRoute 64 shards sampleScript = .ok (shards', sampleReplies) ∧
      runSingle single sampleScript = .ok (single', replies') ∧
      sampleReplies = replies' ∧
      ∀ key, (shards' (sampleRoute key)).entries.lookup key = single'.entries.lookup key := by
  obtain ⟨shard, hnew, hshard⟩ := @exists_of_okAnd _ _ (Shard.new sampleShardLimits)
    (fun shard => okAnd (fun result => result.2 = sampleReplies)
        (runSharded sampleRoute 64 (fun _ => shard) sampleScript) ∧
      okAnd (fun result => EngineError.budget.reply ∉ result.2) (runSingle shard sampleScript))
    (by decide +kernel)
  simp only [Bool.decide_and, Bool.and_eq_true, decide_eq_true_eq] at hshard
  obtain ⟨⟨shards', replies⟩, hrun, hreplies⟩ := exists_of_okAnd hshard.1
  obtain ⟨⟨single', replies'⟩, hrun', hbudget'⟩ := exists_of_okAnd hshard.2
  obtain rfl : replies = sampleReplies := by simpa using hreplies
  have hinvisible := (@sharding_invisible 2 sampleRoute (fun _ => sampleShardLimits)
    sampleShardLimits (fun _ => rfl) (fun _ => shard) (fun _ => hnew) shard hnew sampleScript
    (by decide)).2.2 shards' sampleReplies hrun
  have hagree := hinvisible.1 single' replies' hrun' (by decide) (by simpa using hbudget')
  exact ⟨fun _ => shard, shard, shards', single', replies', fun _ => hnew, hnew, hrun, hrun',
    hagree.1, hagree.2.1⟩

end Recall
