import Recall.Proof.Sequence
import Recall.Proof.Refinement

/-!
# The order of effects

`apply` goes through the effects of a command in the order of a hash map. Two orders leave the same
table and heaps with the same timers. Which of several timers with one deadline is at the root may
differ, and with it what active expiration removes first, so later runs are compared by their live
entries.
-/

namespace Recall

namespace Shard

variable {s t s' t' : Shard} {nowMs later : I64} {operation : Operation}

/-! ### Shards with the same live entries -/

/-- The shards answer from the same entries at any time from `since` on. -/
structure Alike (s t : Shard) (since : Option I64) : Prop where
  limits : s.limits = t.limits
  live : ∀ nowMs, (∀ time ∈ since, time ≤ nowMs) → ∀ key, s.live nowMs key = t.live nowMs key

theorem Alike.of_entries (hlimits : s.limits = t.limits) (hentries : s.entries = t.entries)
    (since : Option I64) : Alike s t since :=
  ⟨hlimits, fun nowMs _ key => live_congr (by rw [hentries]) nowMs⟩

/-- The effects do nothing to the key that a command could see. -/
def Untouched (shard : Shard) (nowMs : I64) (effects : Effects) (key : Bytes) : Prop :=
  effects.lookup key = none ∨ effects.lookup key = some none ∧ shard.stale nowMs key = true

/-- Effects that write the same under every key they touch. -/
def AlikeEffects (s t : Shard) (nowMs : I64) (left right : Effects) : Prop :=
  ∀ key, (∃ entry, left.lookup key = some entry ∧ right.lookup key = some entry) ∨
    Untouched s nowMs left key ∧ Untouched t nowMs right key

theorem untouched_sweep (shard : Shard) (nowMs : I64) (key other : Bytes) :
    Untouched shard nowMs (shard.sweep nowMs key ∅) other := by
  unfold Untouched
  rw [lookup_sweep]
  by_cases hswept : other = key ∧ shard.stale nowMs key
  · obtain ⟨rfl, hstale⟩ := hswept
    exact .inr ⟨if_pos ⟨rfl, hstale⟩, hstale⟩
  · exact .inl (if_neg hswept)

theorem untouched_observeAll (shard : Shard) (nowMs : I64) (keys : List Bytes) (other : Bytes) :
    Untouched shard nowMs (shard.observeAll nowMs keys ∅).2 other := by
  unfold Untouched
  rw [lookup_observeAll]
  by_cases hswept : other ∈ keys ∧ shard.stale nowMs other
  · exact .inr ⟨if_pos hswept, hswept.2⟩
  · exact .inl (if_neg hswept)

theorem alikeEffects_change (change : Change) (key : Bytes) :
    AlikeEffects s t nowMs (change.effects s nowMs key) (change.effects t nowMs key) := by
  intro other
  cases change with
  | keep => exact .inr ⟨untouched_sweep .., untouched_sweep ..⟩
  | put entry =>
      simp only [Change.effects, Untouched, lookup_insert_sweep]
      by_cases hother : other = key
      · exact .inl ⟨entry, if_pos hother, if_pos hother⟩
      · exact .inr ⟨.inl (if_neg hother), .inl (if_neg hother)⟩

theorem evaluate_delete_eq (shard : Shard) (keys : List Bytes) :
    shard.evaluate (.delete keys) nowMs =
      .ok (.count (keys.toFinset.filter fun key => (shard.live nowMs key).isSome).card,
        (shard.deleteAll nowMs keys 0 ∅).2) := by
  have hcount : (shard.deleteAll nowMs keys 0 ∅).1 =
      (keys.toFinset.filter fun key => (shard.live nowMs key).isSome).card := by
    rw [deleteAll_fst, Nat.zero_add]
    simp
  rw [← hcount]
  rfl

def AlikeOutcomes (s t : Shard) (nowMs : I64) :
    Except EngineError (Reply × Effects) → Except EngineError (Reply × Effects) → Prop
  | .error failure, .error failure' => failure = failure'
  | .ok (response, left), .ok (response', right) =>
      response = response' ∧ AlikeEffects s t nowMs left right
  | _, _ => False

theorem evaluate_single_alike {key : Bytes} (hsingle : singleKey operation = some key)
    (hlive : ∀ key, s.live nowMs key = t.live nowMs key) :
    AlikeOutcomes s t nowMs (s.evaluate operation nowMs) (t.evaluate operation nowMs) := by
  rw [evaluate_single hsingle, evaluate_single hsingle, hlive key]
  cases answer nowMs (t.live nowMs key) operation with
  | error failure => exact rfl
  | ok result => exact ⟨rfl, alikeEffects_change result.2 key⟩

/-- What an operation answers and asks for follows from the live entries. -/
theorem evaluate_alike (hlive : ∀ key, s.live nowMs key = t.live nowMs key) :
    AlikeOutcomes s t nowMs (s.evaluate operation nowMs) (t.evaluate operation nowMs) := by
  cases operation with
  | get | set | increment | expire | ttl | persist => exact evaluate_single_alike rfl hlive
  | delete keys =>
      rw [evaluate_delete_eq, evaluate_delete_eq]
      refine ⟨by simp only [hlive], fun other => ?_⟩
      rw [Untouched, Untouched, lookup_deleteAll _ _ _ (by simp), lookup_deleteAll _ _ _ (by simp)]
      by_cases hother : other ∈ keys
      · exact .inl ⟨none, if_pos hother, if_pos hother⟩
      · exact .inr ⟨.inl (if_neg hother), .inl (if_neg hother)⟩
  | «exists» keys =>
      rw [evaluate_exists_eq, evaluate_exists_eq]
      refine ⟨by simp only [hlive], fun other => ?_⟩
      exact .inr ⟨untouched_observeAll .., untouched_observeAll ..⟩
  | multiGet keys =>
      rw [evaluate_multiGet_eq, evaluate_multiGet_eq]
      refine ⟨by simp only [hlive], fun other => ?_⟩
      exact .inr ⟨untouched_observeAll .., untouched_observeAll ..⟩
  | multiSet pairs =>
      refine ⟨rfl, fun other => ?_⟩
      cases hlookup : (assignAll pairs ∅).lookup other with
      | none => exact .inr ⟨.inl hlookup, .inl hlookup⟩
      | some entry => exact .inl ⟨entry, rfl, rfl⟩

/-! ### Commands and ticks keep shards alike -/

theorem live_untouched {effects : Effects} {key : Bytes}
    (huntouched : Untouched s nowMs effects key) (hinstalled : Installed s effects s')
    (hle : nowMs ≤ later) : s'.live later key = s.live later key := by
  rw [live, live, hinstalled.entries, Finmap.lookup_overlay]
  rcases huntouched with hnone | ⟨hremoved, hstale⟩
  · rw [hnone, Option.getD_none]
  · obtain ⟨entry, hentry, hdue⟩ := (Option.any_eq_true _ _).mp hstale
    simp [hremoved, hentry, Option.filter, due_mono hdue hle]

theorem Alike.installed {since : Option I64} {left right : Effects} (h : Alike s t since)
    (htime : ∀ time ∈ since, time ≤ nowMs) (heffects : AlikeEffects s t nowMs left right)
    (hleft : Installed s left s') (hright : Installed t right t') : Alike s' t' (some nowMs) := by
  refine ⟨by rw [hleft.limits, hright.limits, h.limits], fun later hlater key => ?_⟩
  have hle : nowMs ≤ later := hlater nowMs rfl
  rcases heffects key with ⟨entry, hl, hr⟩ | ⟨hl, hr⟩
  · refine live_congr ?_ later
    rw [hleft.entries, hright.entries, Finmap.lookup_overlay, Finmap.lookup_overlay, hl, hr,
      Option.getD_some, Option.getD_some]
  · rw [live_untouched hl hleft hle, live_untouched hr hright hle]
    exact h.live later (fun time htime' => (htime time htime').trans hle) key

theorem Alike.weaken {since : Option I64} (h : Alike s t since)
    (htime : ∀ time ∈ since, time ≤ nowMs) : Alike s t (some nowMs) :=
  ⟨h.limits, fun later hlater key =>
    h.live later (fun time hmem => (htime time hmem).trans (hlater nowMs rfl)) key⟩

/-- An executed command: refused by the evaluation, by a limit, or answered and installed. -/
theorem execute_cases {seed : HashSeed} {result : Except EngineError Reply} (hwf : s.WellFormed)
    (hexecute : s.execute seed operation nowMs = .ok (s', result)) :
    match s.evaluate operation nowMs with
    | .error failure => s' = s ∧ result = .error failure
    | .ok (response, effects) =>
        if response.exceeds s.limits.maxReplyBytes then s' = s ∧ result = .error .responseLimit
        else (s' = s ∧ result = .error .budget) ∨ result = .ok response ∧ Installed s effects s' := by
  rcases execute_spec hwf hexecute with
    ⟨failure, hrefusal, rfl, rfl⟩ | ⟨response, effects, hrefusal, heval, rfl, hinstalled⟩
  · unfold refusal at hrefusal
    cases heval : s'.evaluate operation nowMs with
    | error evaluated =>
        rw [heval] at hrefusal
        cases hrefusal
        exact ⟨rfl, rfl⟩
    | ok outcome =>
        obtain ⟨response, effects⟩ := outcome
        simp only [heval] at hrefusal
        dsimp only
        split
        · next hexceeds =>
            rw [if_pos hexceeds] at hrefusal
            cases hrefusal
            exact ⟨rfl, rfl⟩
        · next hfits =>
            rw [if_neg hfits] at hrefusal
            split at hrefusal
            · cases hrefusal
              exact .inl ⟨rfl, rfl⟩
            · cases hrefusal
  · simp only [refusal, heval] at hrefusal
    rw [heval]
    dsimp only
    split
    · next hexceeds =>
        rw [if_pos hexceeds] at hrefusal
        cases hrefusal
    · exact .inr ⟨rfl, hinstalled⟩

/-- The reply is the same unless a budget, which counts due entries too, interferes. -/
theorem Alike.execute {since : Option I64} (h : Alike s t since) (hs : s.WellFormed)
    (ht : t.WellFormed) (htime : ∀ time ∈ since, time ≤ nowMs) {left right : HashSeed}
    {result result' : Except EngineError Reply}
    (hleft : s.execute left operation nowMs = .ok (s', result))
    (hright : t.execute right operation nowMs = .ok (t', result'))
    (hbudget : result ≠ .error .budget) (hbudget' : result' ≠ .error .budget) :
    result = result' ∧ Alike s' t' (some nowMs) := by
  have hevaluate := @evaluate_alike s t nowMs operation (h.live nowMs htime)
  have hcases := execute_cases hs hleft
  have hcases' := execute_cases ht hright
  cases heval : s.evaluate operation nowMs with
  | error failure =>
      cases heval' : t.evaluate operation nowMs with
      | ok outcome =>
          rw [heval, heval'] at hevaluate
          exact hevaluate.elim
      | error failure' =>
          rw [heval, heval'] at hevaluate
          rw [heval] at hcases
          rw [heval'] at hcases'
          obtain ⟨rfl, rfl⟩ := hcases
          obtain ⟨rfl, rfl⟩ := hcases'
          exact ⟨congrArg _ hevaluate, h.weaken htime⟩
  | ok outcome =>
      cases heval' : t.evaluate operation nowMs with
      | error failure' =>
          rw [heval, heval'] at hevaluate
          exact hevaluate.elim
      | ok outcome' =>
          rw [heval, heval'] at hevaluate
          obtain ⟨hresponse, heffects⟩ := hevaluate
          simp only [heval] at hcases
          simp only [heval', ← hresponse, ← h.limits] at hcases'
          split at hcases
          · next hexceeds =>
              rw [if_pos hexceeds] at hcases'
              obtain ⟨rfl, rfl⟩ := hcases
              obtain ⟨rfl, rfl⟩ := hcases'
              exact ⟨rfl, h.weaken htime⟩
          · next hfits =>
              rw [if_neg hfits] at hcases'
              rcases hcases with ⟨-, hover⟩ | ⟨rfl, hinstalled⟩
              · exact absurd hover hbudget
              · rcases hcases' with ⟨-, hover⟩ | ⟨rfl, hinstalled'⟩
                · exact absurd hover hbudget'
                · exact ⟨rfl, h.installed htime heffects hinstalled hinstalled'⟩

theorem Alike.expireDue {since : Option I64} (h : Alike s t since)
    (htime : ∀ time ∈ since, time ≤ nowMs) (hleft : Reclaimed s s' nowMs)
    (hright : Reclaimed t t' nowMs) : Alike s' t' (some nowMs) := by
  refine ⟨by rw [hleft.limits, hright.limits, h.limits], fun later hlater key => ?_⟩
  have hle : nowMs ≤ later := hlater nowMs rfl
  rw [live_reclaimed hleft hle, live_reclaimed hright hle]
  exact h.live later (fun time hmem => (htime time hmem).trans hle) key

/-! ### Later runs -/

inductive Later where
  | execute (operation : Operation) (nowMs : I64)
  | expireDue (nowMs : I64) (budget : Nat)

def Later.time : Later → I64
  | execute _ nowMs | expireDue nowMs _ => nowMs

/-- The revisions a call may use up. -/
def Later.work : Later → Nat
  | execute _ _ => 1
  | expireDue _ budget => budget

/-- The calls are made in order, each with a hash map of its own, and `execute` answers with the
results. -/
inductive Continues : Shard → List Later → List (Except EngineError Reply) → Shard → Prop
  | nil (shard : Shard) : Continues shard [] [] shard
  | execute {shard next after : Shard} {seed : HashSeed} {operation : Operation} {nowMs : I64}
      {result : Except EngineError Reply} {calls : List Later}
      {results : List (Except EngineError Reply)}
      (hexecute : shard.execute seed operation nowMs = .ok (next, result))
      (hrest : Continues next calls results after) :
      Continues shard (.execute operation nowMs :: calls) (result :: results) after
  | expireDue {shard next after : Shard} {nowMs : I64} {budget removed : Nat} {calls : List Later}
      {results : List (Except EngineError Reply)}
      (hexpire : shard.expireDue nowMs budget = .ok (next, removed))
      (hrest : Continues next calls results after) :
      Continues shard (.expireDue nowMs budget :: calls) results after

theorem continues_total (calls : List Later) {shard : Shard} (hwf : shard.WellFormed)
    (htimed : shard.Timed) (hroom : shard.revision + (calls.map Later.work).sum ≤ usizeMax) :
    ∃ results after, Continues shard calls results after := by
  induction calls generalizing shard with
  | nil => exact ⟨[], shard, .nil shard⟩
  | cons call calls ih =>
      rw [List.map_cons, List.sum_cons] at hroom
      cases call with
      | execute operation nowMs =>
          have hone : (Later.execute operation nowMs).work = 1 := rfl
          rw [hone] at hroom
          obtain ⟨next, result, hexecute, hnext, hrevision⟩ :=
            @execute_total _ nowMs operation .insertionOrder hwf (by omega)
          obtain ⟨results, after, hrest⟩ := ih hnext (execute_timed htimed hexecute) (by omega)
          exact ⟨result :: results, after, .execute hexecute hrest⟩
      | expireDue nowMs budget =>
          have hmost : (Later.expireDue nowMs budget).work = budget := rfl
          rw [hmost] at hroom
          obtain ⟨next, removed, hexpire, hcard, hremoves⟩ :=
            @expireDue_removes _ nowMs budget hwf htimed (by omega)
          have hrevision := hremoves.revision
          obtain ⟨results, after, hrest⟩ := ih (expireDue_wellFormed hwf hexpire).1
            (expireDue_timed htimed hexpire) (by omega)
          exact ⟨results, after, .expireDue hexpire hrest⟩

/-- Shards with the same live entries give the same replies, as long as no budget interferes. -/
theorem Alike.replies {calls : List Later} {since : Option I64}
    {results results' : List (Except EngineError Reply)} (h : Alike s t since)
    (hs : s.WellFormed) (ht : t.WellFormed)
    (htimes : (calls.map Later.time).Pairwise (· ≤ ·))
    (hsince : ∀ call ∈ calls, ∀ time ∈ since, time ≤ call.time)
    (hleft : Continues s calls results s') (hright : Continues t calls results' t')
    (hbudget : .error .budget ∉ results) (hbudget' : .error .budget ∉ results') :
    results = results' := by
  induction hleft generalizing t since results' with
  | nil =>
      cases hright
      rfl
  | @execute s next after seed operation nowMs result calls results hexecute hrest ih =>
      rw [List.map_cons, List.pairwise_cons] at htimes
      cases hright with
      | execute hexecute' hrest' =>
          rw [List.mem_cons, not_or] at hbudget hbudget'
          obtain ⟨rfl, hnext⟩ := h.execute hs ht (hsince _ List.mem_cons_self) hexecute hexecute'
            (Ne.symm hbudget.1) (Ne.symm hbudget'.1)
          congr 1
          refine ih hnext (execute_wellFormed hs hexecute).1 (execute_wellFormed ht hexecute').1
            htimes.2 ?_ hrest' hbudget.2 hbudget'.2
          intro call hcall time htime
          cases htime
          exact htimes.1 _ (List.mem_map_of_mem hcall)
  | @expireDue s next after nowMs budget removed calls results hexpire hrest ih =>
      rw [List.map_cons, List.pairwise_cons] at htimes
      cases hright with
      | expireDue hexpire' hrest' =>
          obtain ⟨hwf, hreclaimed⟩ := expireDue_wellFormed hs hexpire
          obtain ⟨hwf', hreclaimed'⟩ := expireDue_wellFormed ht hexpire'
          refine ih (h.expireDue (hsince _ List.mem_cons_self) hreclaimed hreclaimed') hwf hwf'
            htimes.2 ?_ hrest' hbudget hbudget'
          intro call hcall time htime
          cases htime
          exact htimes.1 _ (List.mem_map_of_mem hcall)

/-! ### The order of effects -/

theorem apply_eq_ok {ready : Prepared} {reply : Reply} (hwf : s.WellFormed)
    (happly : s.apply ready = .ok (s', reply)) :
    s'.payloadBytes = ready.payloadAfter ∧
      s'.appliedCommands = saturate (s.appliedCommands + 1) := by
  unfold apply at happly
  split at happly
  · cases happly
  · obtain ⟨expiry, heffects, -⟩ := applyEffects_spec ready.effects.entries hwf.timers
    obtain ⟨applied, happlied, hrest⟩ := bind_eq_ok.mp happly
    obtain ⟨revision, -, hafter⟩ := bind_eq_ok.mp hrest
    rw [heffects] at happlied
    cases happlied
    cases hafter
    exact ⟨rfl, rfl⟩

theorem Describes.reorder {ready : Prepared} {effects : Effects} (h : s.Describes ready)
    (hperm : effects.entries.Perm ready.effects.entries) :
    s.Describes { ready with effects } := by
  have hsame := Finmap.overlay_perm hperm s.entries
  refine ⟨h.revision, ?_, ?_⟩
  · rw [h.payload, ← hsame]
  · have hwithin := h.within
    rwa [OverBudget, ← hsame] at hwithin

end Shard

open Shard in
/-- Two orders of the effects of a command leave the same table, accounting and timers, and no later
reply tells them apart. -/
theorem ShardRun.apply_order_independent {limits : ShardLimits} {run : ShardRun}
    (hreach : Reachable limits run) {seed : HashSeed} {operation : Operation} {nowMs : I64}
    {ready : Prepared} (hprepare : run.shard.prepare seed operation nowMs = .ok (.ok ready))
    {left right : Effects} (hleft : left.entries.Perm ready.effects.entries)
    (hright : right.entries.Perm ready.effects.entries) :
    (usizeMax ≤ run.shard.revision ∧
      run.shard.apply { ready with effects := left } = .error .revisionExhausted ∧
      run.shard.apply { ready with effects := right } = .error .revisionExhausted) ∨
    ∃ a b, run.shard.apply { ready with effects := left } = .ok (a, ready.response) ∧
      run.shard.apply { ready with effects := right } = .ok (b, ready.response) ∧
      a.entries = b.entries ∧ a.payloadBytes = b.payloadBytes ∧ a.revision = b.revision ∧
      a.appliedCommands = b.appliedCommands ∧ a.expiry.Sound ∧ b.expiry.Sound ∧
      (∀ timer, timer ∈ a.expiry.heap ↔ timer ∈ b.expiry.heap) ∧
      ∀ calls : List Later, (calls.map Later.time).Pairwise (· ≤ ·) →
        (a.revision + (calls.map Later.work).sum ≤ usizeMax →
          (∃ results a', Continues a calls results a') ∧
          ∃ results b', Continues b calls results b') ∧
        ∀ results results' a' b', Continues a calls results a' → Continues b calls results' b' →
          .error .budget ∉ results → .error .budget ∉ results' → results = results' := by
  have hwf := hreach.invariant.1.wellFormed
  have hdescribes := describes_of_prepare hwf hprepare
  rcases apply_spec hwf (hdescribes.reorder hleft) with ⟨hfull, hpanic⟩ | ⟨a, happly, ha⟩
  · rcases apply_spec hwf (hdescribes.reorder hright) with ⟨-, hpanic'⟩ | ⟨b, happly, hb⟩
    · exact .inl ⟨hfull, hpanic, hpanic'⟩
    · have hrevised := (apply_timed hreach.timed happly).revised
      rw [hb.revision] at hrevised
      omega
  · rcases apply_spec hwf (hdescribes.reorder hright) with ⟨hfull, -⟩ | ⟨b, happly', hb⟩
    · have hrevised := (apply_timed hreach.timed happly).revised
      rw [ha.revision] at hrevised
      omega
    · have hentries : a.entries = b.entries := by
        rw [ha.entries, hb.entries]
        exact Finmap.overlay_perm (hleft.trans hright.symm) _
      have htimed := apply_timed hreach.timed happly
      have htimed' := apply_timed hreach.timed happly'
      obtain ⟨hpayload, happlied⟩ := apply_eq_ok hwf happly
      obtain ⟨hpayload', happlied'⟩ := apply_eq_ok hwf happly'
      refine .inr ⟨a, b, happly, happly', hentries, hpayload.trans hpayload'.symm,
        ha.revision.trans hb.revision.symm, happlied.trans happlied'.symm, htimed.sound,
        htimed'.sound, fun timer => ?_, fun calls htimes => ⟨fun hroom => ⟨?_, ?_⟩, ?_⟩⟩
      · rw [ha.wellFormed.timers.mem_iff, hb.wellFormed.timers.mem_iff, hentries]
      · exact continues_total calls ha.wellFormed htimed hroom
      · refine continues_total calls hb.wellFormed htimed' ?_
        rwa [hb.revision, ← ha.revision]
      · intro results results' a' b' hcontinues hcontinues' hbudget hbudget'
        have halike : Alike a b none :=
          .of_entries (by rw [ha.limits, hb.limits]) hentries none
        exact halike.replies ha.wellFormed hb.wellFormed htimes (by simp) hcontinues hcontinues'
          hbudget hbudget'

/-- The effects in the opposite order. -/
def Shard.backwards (effects : Effects) : Effects :=
  ⟨effects.entries.reverse, (List.perm_nodupKeys effects.entries.reverse_perm).mpr effects.nodupKeys⟩

theorem ShardRun.apply_order_independent_sample : ∃ shard ready a b,
    Shard.new sampleLimits = .ok shard ∧
    shard.prepare .insertionOrder samplePairs 0 = .ok (.ok ready) ∧
    ready.effects.entries.length = 2 ∧ shard.apply ready = .ok (a, .ok) ∧
    shard.apply { ready with effects := Shard.backwards ready.effects } = .ok (b, .ok) ∧
    a.entries = b.entries ∧ a.payloadBytes = b.payloadBytes := by
  obtain ⟨shard, hnew⟩ : ∃ shard, Shard.new sampleLimits = .ok shard := ⟨_, rfl⟩
  obtain ⟨prepared, hprepare, htwo⟩ := @exists_of_okAnd _ _
    (shard.prepare .insertionOrder samplePairs 0)
    (okAnd fun ready => ready.effects.entries.length = 2 ∧ ready.response = .ok) (by
      cases hnew
      decide +kernel)
  obtain ⟨ready, rfl, hready⟩ := exists_of_okAnd htwo
  obtain ⟨hlength, hresponse⟩ : ready.effects.entries.length = 2 ∧ ready.response = .ok :=
    of_decide_eq_true hready
  have hrevision : shard.revision = 0 := by
    cases hnew
    rfl
  rcases @apply_order_independent _ _ (.start hnew) _ _ _ _ hprepare _
    (Shard.backwards ready.effects) (List.Perm.refl _) ready.effects.entries.reverse_perm with
    ⟨hfull, -⟩ | ⟨a, b, happly, happly', hentries, hpayload, -⟩
  · rw [hrevision] at hfull
    exact absurd hfull (by decide)
  · exact ⟨shard, ready, a, b, hnew, hprepare, hlength, happly.trans (by rw [hresponse]),
      happly'.trans (by rw [hresponse]), hentries, hpayload⟩

end Recall
