import Recall.Connection
import Recall.Proof.Accounting
import Recall.Proof.Wire
import Recall.Proof.Evolution
import Mathlib.Algebra.BigOperators.Fin
import Mathlib.Algebra.Order.BigOperators.Group.Finset

/-!
# Configured budgets

The configuration's payload and key budgets as bounds on the whole engine, and its value and reply
limits as a promise that what was stored can be read.
-/

namespace Recall

/-- What `validate` checks of the limits. -/
structure Config.Valid (config : Config) : Prop where
  workers : 0 < config.workers
  queueBytes : config.queueBytes ≤ 4294967295
  keys : 0 < config.keysPerWorker
  payload : config.workers ≤ config.maxPayloadBytes
  replyLower : config.commands.maxValueBytes + 64 ≤ config.maxReplyBytes
  replyUpper : config.maxReplyBytes ≤ 64 * 1024 * 1024

theorem Config.valid_of_validate {config : Config} (hvalid : config.validate = .ok ()) :
    config.Valid := by
  unfold validate at hvalid
  split at hvalid
  · cases hvalid
  · split at hvalid
    · cases hvalid
    · next hcounts =>
        split at hvalid
        · cases hvalid
        · split at hvalid
          · cases hvalid
          · split at hvalid
            · cases hvalid
            · next hlimits =>
                push Not at hcounts hlimits
                obtain ⟨hworkers, -, -, -, -, hqueue, hkeys, -, hpayload⟩ := hcounts
                obtain ⟨-, -, -, -, -, hlower, hupper⟩ := hlimits
                have hsum : config.commands.maxValueBytes + 64 ≤ config.maxReplyBytes := by
                  unfold saturate usizeMax at hlower
                  omega
                exact ⟨by omega, hqueue, by omega, hpayload, hsum, hupper⟩

/-! ### Apportioning -/

theorem sum_apportioned (total : Nat) {workers : Nat} (hworkers : 0 < workers) :
    ∑ i : Fin workers, (total / workers + if (i : Nat) < total % workers then 1 else 0) = total := by
  have hremainder : total % workers ≤ workers := (Nat.mod_lt total hworkers).le
  calc
    ∑ i : Fin workers, (total / workers + if (i : Nat) < total % workers then 1 else 0) =
        ∑ i ∈ Finset.range workers, (total / workers + if i < total % workers then 1 else 0) :=
      Fin.sum_univ_eq_sum_range
        (fun i => total / workers + if i < total % workers then 1 else 0) workers
    _ = workers * (total / workers) + total % workers := by
      rw [Finset.sum_add_distrib, Finset.sum_const, Finset.card_range, smul_eq_mul,
        ← Finset.card_filter]
      congr 1
      have hfilter : (Finset.range workers).filter (· < total % workers) =
          Finset.range (total % workers) := by
        ext i
        simp only [Finset.mem_filter, Finset.mem_range]
        omega
      rw [hfilter, Finset.card_range]
    _ = total := Nat.div_add_mod total workers

/-! ### Values an operation brings along -/

/-- The values an operation brings along are at most this long. -/
def Operation.ValuesWithin (bound : Nat) : Operation → Prop
  | .set _ value _ _ => value.length ≤ bound
  | .multiSet pairs => ∀ pair ∈ pairs, pair.2.length ≤ bound
  | _ => True

theorem sizes_of_checkSizes {limits : ParseLimits} {operation : Operation}
    (hcheck : checkSizes limits (.data operation) = .ok (.data operation)) :
    (∀ key ∈ operation.keys, key.length ≤ limits.maxKeyBytes) ∧
      operation.ValuesWithin limits.maxValueBytes := by
  rw [checkSizes] at hcheck
  split at hcheck
  · cases hcheck
  · next hkeys =>
      split at hcheck
      · cases hcheck
      · next hvalues =>
          refine ⟨fun key hkey => ?_, ?_⟩
          · by_contra hlong
            exact hkeys (List.any_eq_true.mpr ⟨key, hkey, decide_eq_true (Nat.not_le.mp hlong)⟩)
          · cases operation with
            | set key value condition expiry =>
                simpa [valueTooLarge, Operation.ValuesWithin] using hvalues
            | multiSet pairs =>
                intro pair hpair
                simp only [valueTooLarge, List.any_eq_true, decide_eq_true_eq, not_exists,
                  not_and] at hvalues
                exact Nat.le_of_not_lt (hvalues pair hpair)
            | _ => trivial

theorem valuesWithin_of_parse {arguments : List Bytes} {limits : ParseLimits} {operation : Operation}
    (hparse : parse arguments limits = .ok (.data operation)) :
    operation.ValuesWithin limits.maxValueBytes := by
  obtain ⟨_, _, _, -, -, -, -, hsizes⟩ := parse_spec hparse
  exact (sizes_of_checkSizes hsizes).2

theorem valuesWithin_of_split {n : Nat} {route : Bytes → Fin n} {bound : Nat} {operation : Operation}
    {parts : List (Part n)} (hwithin : operation.ValuesWithin bound)
    (hsplit : split route operation = .ok parts) {part : Part n} (hpart : part ∈ parts) :
    part.operation.ValuesWithin bound := by
  cases operation with
  | multiSet pairs =>
      cases hsplit
      obtain ⟨group, hgroup, rfl⟩ := List.mem_map.mp hpart
      obtain ⟨hfilter, -⟩ := mem_grouped.mp hgroup
      intro pair hpair
      rw [hfilter] at hpair
      exact hwithin pair (List.mem_filter.mp hpair).1
  | delete keys | «exists» keys | multiGet keys =>
      cases hsplit
      obtain ⟨group, hgroup, rfl⟩ := List.mem_map.mp hpart
      trivial
  | _ => cases hsplit

namespace Shard

def ValuesWithin (bound : Nat) (shard : Shard) : Prop :=
  ∀ key entry, shard.entries.lookup key = some entry → entry.value.length ≤ bound

variable {shard after : Shard} {nowMs : I64} {bound : Nat}

theorem evaluate_valuesWithin {operation : Operation} {response : Reply} {effects : Effects}
    (hshard : shard.ValuesWithin bound) (hoperation : operation.ValuesWithin bound)
    (hbound : 20 ≤ bound) (heval : shard.evaluate operation nowMs = .ok (response, effects))
    {key : Bytes} {entry : Entry} (heffect : effects.lookup key = some (some entry)) :
    entry.value.length ≤ bound := by
  cases hgrows : grows operation with
  | false =>
      obtain ⟨before, hbefore, hvalue⟩ := evaluate_of_not_grows hgrows heval heffect
      rw [hvalue]
      exact hshard key before hbefore
  | true =>
      have hinserted : ∀ written stored, ((shard.sweep nowMs written ∅).insert written
          (some stored)).lookup key = some (some entry) → entry = stored := by
        intro written stored hinsert
        rw [lookup_insert_sweep] at hinsert
        split at hinsert
        · cases hinsert
          rfl
        · cases hinsert
      cases operation with
      | set written value condition expiry =>
          simp only [evaluate, observe_eq, bind, Except.bind, pure, Except.pure] at heval
          split at heval
          · cases heval
          · split at heval
            · cases heval
              cases onlyRemoves_sweep written key _ heffect
            · cases heval
              rw [hinserted _ _ heffect]
              exact hoperation
      | increment counter amount subtract =>
          simp only [evaluate, observe_eq, bind, Except.bind, pure, Except.pure] at heval
          split at heval
          · cases heval
          · split at heval
            · cases heval
            · cases heval
              rw [hinserted _ _ heffect]
              exact (length_toBytes_le _).trans hbound
      | multiSet pairs =>
          cases heval
          rw [lookup_assignAll] at heffect
          split at heffect
          · next pair hfind =>
              cases heffect
              exact hoperation pair (List.mem_reverse.mp (List.mem_of_find?_eq_some hfind))
          · simp at heffect
      | _ => cases hgrows

theorem apply_valuesWithin {seed : HashSeed} {operation : Operation} {ready : Prepared}
    {reply : Reply} (hwf : shard.WellFormed) (hshard : shard.ValuesWithin bound)
    (hoperation : operation.ValuesWithin bound) (hbound : 20 ≤ bound)
    (hprepare : shard.prepare seed operation nowMs = .ok (.ok ready))
    (happly : shard.apply ready = .ok (after, reply)) : after.ValuesWithin bound := by
  obtain ⟨effects, heval, heffects, hdescribes⟩ := prepare_spec hwf hprepare
  have hinstalled := apply_installed hwf hdescribes happly
  intro key entry hentry
  rw [hinstalled.entries, heffects, overlay_arrange, Finmap.lookup_overlay] at hentry
  cases heffect : effects.lookup key with
  | none =>
      rw [heffect] at hentry
      exact hshard key entry hentry
  | some written =>
      rw [heffect] at hentry
      obtain rfl : written = some entry := hentry
      exact evaluate_valuesWithin hshard hoperation hbound heval heffect

theorem expireDue_valuesWithin {budget removed : Nat} (hwf : shard.WellFormed)
    (hshard : shard.ValuesWithin bound)
    (hexpire : shard.expireDue nowMs budget = .ok (after, removed)) : after.ValuesWithin bound := by
  obtain ⟨-, hreclaimed⟩ := expireDue_wellFormed hwf hexpire
  intro key entry hentry
  rcases hreclaimed.entries key with hsame | ⟨hgone, -⟩
  · exact hshard key entry (hsame ▸ hentry)
  · rw [hgone] at hentry
    cases hentry

end Shard

namespace Engine

open Shard

variable {n : Nat} {setup : Setup n} {shards base : Shards n} {trace events : List (Event n)}
  {s s' : System n}

/-- Every owner keeps the limits it was started with. -/
theorem limits_kept (setup : Setup n) :
    Kept setup (fun _ => True) fun o shard => shard.limits = setup.shardLimits o where
  tick hlimits hwf hexpire := (expireDue_wellFormed hwf hexpire).2.limits.trans hlimits
  apply hlimits hwf _ hprepare happly :=
    (apply_installed hwf (describes_of_prepare hwf hprepare) happly).limits.trans hlimits
  split _ _ _ _ := trivial

theorem Reaches.limits (hreaches : Reaches setup shards trace s) (o : Fin n) :
    (s.owners o).shard.limits = setup.shardLimits o :=
  (hreaches.kept (limits_kept setup) (fun _ _ hnew => by rw [eq_of_new hnew])
    (fun _ _ => trivial) o).shard

def twoWorkers : Config := .default 4

def firstWorker : Bytes → Fin twoWorkers.workers := fun _ => ⟨0, by decide⟩

theorem valuesWithin_mono {small large : Nat} (hle : small ≤ large) {operation : Operation}
    (hwithin : operation.ValuesWithin small) : operation.ValuesWithin large := by
  cases operation with
  | set key value condition expiry => exact hwithin.trans hle
  | multiSet pairs => exact fun pair hpair => (hwithin pair hpair).trans hle
  | _ => trivial

theorem values_kept (setup : Setup n) {bound : Nat} (hbound : 20 ≤ bound) :
    Kept setup (Operation.ValuesWithin bound) fun _ shard => shard.ValuesWithin bound where
  tick hshard hwf hexpire := expireDue_valuesWithin hwf hshard hexpire
  apply hshard hwf hoperation hprepare happly :=
    apply_valuesWithin hwf hshard hoperation hbound hprepare happly
  split hoperation hsplit _ hpart := valuesWithin_of_split hoperation hsplit hpart

/-- A value a shard may hold is short enough to be read. -/
theorem bulk_fits {limits : ParseLimits} {maxReplyBytes : Nat} {value : Bytes}
    (hlower : limits.maxValueBytes + 64 ≤ maxReplyBytes) (hupper : maxReplyBytes ≤ 64 * 1024 * 1024)
    (hvalue : value.length ≤ max limits.maxValueBytes 20) :
    (Reply.bulk (some value)).exceeds maxReplyBytes = false := by
  apply Bool.eq_false_of_not_eq_true
  rw [Reply.exceeds_iff, Reply.wireLen]
  have hdigits : decimalDigits value.length ≤ 8 := decimalDigits_le (by omega) (by omega)
  have hmax : maxReplyBytes ≤ usizeMax := by
    unfold usizeMax
    omega
  omega

theorem get_reply {shard after : Shard} {seed : HashSeed} {key : Bytes} {nowMs : I64} {reply : Reply}
    {entry : Entry} (hwf : shard.WellFormed) (hlive : shard.live nowMs key = some entry)
    (hfits : (Reply.bulk (some entry.value)).exceeds shard.limits.maxReplyBytes = false)
    (hexecute : executeLocal shard seed (.get key) nowMs = .ok (after, reply)) :
    reply = .bulk (some entry.value) := by
  have heval : shard.evaluate (.get key) nowMs =
      .ok (.bulk (some entry.value), shard.sweep nowMs key ∅) := by
    simp only [evaluate, observe_eq, hlive]
    rfl
  have hrefusal : shard.refusal (.get key) nowMs = none := by
    unfold refusal
    rw [heval]
    simp only [hfits, Bool.false_eq_true, ↓reduceIte]
    rw [if_neg (ShardRun.not_overBudget_of_not_grows hwf rfl heval)]
  rcases executeLocal_cases hexecute with ⟨-, failure, hprepare, -⟩ | ⟨ready, hprepare, happly⟩
  · obtain ⟨_, _, _, -, hok, -⟩ := prepare_of_refusal_none hwf hrefusal seed
    rw [hok] at hprepare
    cases hprepare
  · obtain ⟨⟨effects, heval'⟩, -⟩ := prepare_response hprepare
    rw [heval, Except.ok.injEq, Prod.mk.injEq] at heval'
    rw [apply_reply happly, ← heval'.1]

/-- Every effect's reply was within the output budget when it was recorded. -/
theorem Reaches.executed_fits (hreaches : Reaches setup shards trace s)
    (hlimit : 64 ≤ setup.maxReplyBytes)
    (hshards : ∀ o, (setup.shardLimits o).maxReplyBytes = setup.maxReplyBytes)
    {request : Request} {nowMs : I64} {reply : Reply}
    (hexecuted : .executed (commandEffect request nowMs reply) ∈ trace) :
    reply.exceeds setup.maxReplyBytes = false := by
  induction hreaches with
  | start hnew => cases hexecuted
  | @step trace events s s' hbefore hstep ih =>
      rcases List.mem_append.mp hexecuted with hearlier | hnow
      · exact ih hearlier
      · obtain ⟨base, h, -⟩ := hbefore.invariant
        cases hstep with
        | call hstep => cases hstep <;> simp at hnow
        | shutdown hstep => cases hnow
        | advance | stats | abandon => cases hnow
        | @owner o events s' hstep =>
            cases hstep with
            | @execute request' nowMs' turn seed shard reply' hserving hexecute =>
                have hanswers := executeLocal_answers hexecute
                rw [hbefore.limits o, hshards o] at hanswers
                obtain ⟨⟨rfl, rfl⟩, rfl⟩ : (request = request' ∧ nowMs = nowMs') ∧
                    reply = reply' := by
                  simpa [commandEffect] using hnow
                exact hanswers.fits hlimit
            | runTick => simp [commandEffect, tickEffect] at hnow
            | _ => cases hnow
        | coordinator hstep =>
            cases hstep with
            | @failed job nowMs' failure hworking htodo hphase =>
                obtain ⟨-, rfl⟩ : (request = job.request ∧ nowMs = nowMs') ∧
                    reply = failure.reply := by
                  simpa [commandEffect] using hnow
                exact failure.not_exceeds_reply hlimit
            | @oversized job nowMs' results combined hworking htodo hphase hcombine hexceeds =>
                obtain ⟨-, rfl⟩ : (request = job.request ∧ nowMs = nowMs') ∧
                    reply = EngineError.responseLimit.reply := by
                  simpa [commandEffect] using hnow
                exact EngineError.responseLimit.not_exceeds_reply hlimit
            | @applied job nowMs' reply' hworking htodo hphase =>
                obtain ⟨-, rfl⟩ : (request = job.request ∧ nowMs = nowMs') ∧ reply = reply' := by
                  simpa [commandEffect] using hnow
                have hengages := h.protocol.engages
                rw [hworking] at hengages
                obtain ⟨seeds, prepared, hengaged⟩ := hengages
                have hcomputed := hengaged.computed
                simp only [Job.Computed, hphase] at hcomputed
                exact hcomputed.2.2
            | released => simp at hnow
            | _ => cases hnow

theorem refusals_fit {reply : Reply} (hreply : reply ∈ refusals) {limit : Nat} (hlimit : 64 ≤ limit) :
    reply.exceeds limit = false := by
  apply Bool.eq_false_of_not_eq_true
  rw [Reply.exceeds_iff]
  have hlength : ∀ refusal ∈ refusals, refusal.wireLen ≤ 64 := by decide
  have hmax : 64 ≤ min limit usizeMax := le_min hlimit (by decide)
  exact fun hlt => absurd ((hlength reply hreply).trans hmax) (Nat.not_le.mpr hlt)

theorem stored_readable {config : Config} (hvalid : config.validate = .ok ())
    {route : Bytes → Fin config.workers} {shards : Shards config.workers}
    {trace : List (Event config.workers)} {s : System config.workers}
    (hreaches : Reaches (.ofConfig config route) shards trace s)
    (hparsed : ∀ request, .submitted request ∈ trace →
      ∃ arguments, parse arguments config.commands = .ok (.data request.operation)) :
    (∀ o key entry, (s.owners o).shard.entries.lookup key = some entry →
      entry.value.length ≤ max config.commands.maxValueBytes 20) ∧
    (∀ o seed key nowMs entry after reply, (s.owners o).shard.live nowMs key = some entry →
      executeLocal (s.owners o).shard seed (.get key) nowMs = .ok (after, reply) →
      reply = .bulk (some entry.value)) ∧
    ∀ call reply, .returned call reply ∈ trace →
      (∃ bytes, reply.encodedLen = some bytes ∧ bytes ≤ config.maxReplyBytes) ∧
      writeReply config reply = reply := by
  have hconfig := Config.valid_of_validate hvalid
  have hlimit : 64 ≤ config.maxReplyBytes := by
    have hlower := hconfig.replyLower
    omega
  have hallowed : ∀ request, .submitted request ∈ trace →
      request.operation.ValuesWithin (max config.commands.maxValueBytes 20) := by
    intro request hsubmitted
    obtain ⟨arguments, hparse⟩ := hparsed request hsubmitted
    exact valuesWithin_mono (le_max_left _ _) (valuesWithin_of_parse hparse)
  have hvalues : ∀ o, (s.owners o).shard.ValuesWithin (max config.commands.maxValueBytes 20) := by
    intro o
    refine (hreaches.kept (values_kept _ (le_max_right _ _)) (fun o shard hnew => ?_) hallowed o).shard
    unfold Shard.new at hnew
    split at hnew
    · cases hnew
    · cases hnew
      intro key entry hentry
      cases hentry
  obtain ⟨base, h, -⟩ := hreaches.invariant
  refine ⟨hvalues, ?_, ?_⟩
  · intro o seed key nowMs entry after reply hlive hexecute
    refine get_reply (h.protocol.wellFormed o) hlive ?_ hexecute
    rw [hreaches.limits o]
    exact bulk_fits hconfig.replyLower hconfig.replyUpper
      (hvalues o key entry (lookup_of_live hlive).1)
  · intro call reply hreturned
    have hfits : reply.exceeds config.maxReplyBytes = false := by
      rcases h.calls.returned call reply hreturned with ⟨-, hrefusal⟩ | ⟨request, -, hcompleted⟩
      · exact refusals_fit hrefusal hlimit
      · obtain ⟨nowMs, hexecuted⟩ := hreaches.records.completed request reply hcompleted
        exact hreaches.executed_fits hlimit (fun _ => rfl) hexecuted
    refine ⟨?_, ?_⟩
    · unfold Reply.exceeds at hfits
      split at hfits
      · cases hfits
      · next bytes hlength => exact ⟨bytes, hlength, by simpa using hfits⟩
    · rw [writeReply, hfits]
      rfl

def oneWorker : Config := .default 3

def onlyWorker : Bytes → Fin oneWorker.workers := fun _ => ⟨0, by decide⟩

def setRequest : Request := ⟨0, .set (ascii "a") (ascii "1") .always .clear⟩

/-- `SET a 1` as the parser reads it, run to the delivery of its reply. -/
theorem stored_readable_set : ∃ shards trace s,
    Reaches (.ofConfig oneWorker onlyWorker) shards trace s ∧ .returned 0 .ok ∈ trace ∧
    writeReply oneWorker .ok = .ok ∧
    ∀ o key entry, (s.owners o).shard.entries.lookup key = some entry →
      entry.value.length ≤ 524288 := by
  have hparse : parse [ascii "set", ascii "a", ascii "1"] oneWorker.commands =
      .ok (.data setRequest.operation) := by decide +kernel
  have hadmission : admission (.ofConfig oneWorker onlyWorker) false setRequest.operation =
      .acquiring setRequest.operation := by
    unfold admission
    rw [if_neg (by decide), if_neg (by decide), if_neg (by decide +kernel)]
  have hplace : destination onlyWorker setRequest.operation = .owner (onlyWorker []) := by decide
  have hcharge : charge setRequest.operation ≤ oneWorker.queueBytes := by decide +kernel
  obtain ⟨⟨shard, reply⟩, hlocal, hreply⟩ := @exists_of_okAnd _ _
    (executeLocal ⟨∅, .empty, oneWorker.shardLimits 0, 0, 0, 0, 0⟩ .insertionOrder
      setRequest.operation 0) (fun result => result.2 = .ok) (by decide +kernel)
  obtain rfl : reply = .ok := by simpa using hreply
  have hstart : Reaches (.ofConfig oneWorker onlyWorker)
      (fun _ => ⟨∅, .empty, oneWorker.shardLimits 0, 0, 0, 0, 0⟩) []
      (.start _ oneWorker.queueBytes 0) :=
    .start fun o => by
      obtain ⟨o, ho⟩ := o
      obtain rfl : o = 0 := Nat.lt_one_iff.mp ho
      rfl
  have hsubmit := @Reaches.submit _ _ _ _ _ hstart setRequest _ rfl nofun hadmission
  have hacquire := hsubmit.step (.call (@CallStep.acquire _ _ _ 0 setRequest.operation
    (.owner (onlyWorker [])) rfl hplace hcharge))
  have hsend := hacquire.step (.call (@CallStep.send _ _ _ 0 setRequest.operation
    (.owner (onlyWorker [])) rfl hplace (by rintro (h | h) <;> cases h) (by decide)))
  have hskip := hsend.step (.owner (o := onlyWorker []) (.skipTurn rfl (.inl rfl)))
  have htake := hskip.step (.owner (o := onlyWorker []) (.takeData rfl rfl rfl))
  have hsample := htake.step (.owner (o := onlyWorker []) (.sample rfl))
  have hexecute := hsample.step (.owner (o := onlyWorker []) (.execute rfl hlocal))
  have hdeliver := hexecute.step (.call (@CallStep.deliver _ _ _ 0 .ok rfl))
  have hreadable := stored_readable (by decide +kernel) hdeliver fun request hsubmitted => by
    obtain rfl : request = setRequest := by simpa using hsubmitted
    exact ⟨_, hparse⟩
  refine ⟨_, _, _, hdeliver, by simp, (hreadable.2.2 0 .ok (by simp)).2, ?_⟩
  exact hreadable.1

end Engine

end Recall
