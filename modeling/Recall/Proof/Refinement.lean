import Recall.Reference
import Recall.Proof.Evaluate

/-!
# A shard refines the reference keyspace

Due entries stay in the table until something touches them. The abstraction drops them, and the
relation kept along a run is that at every time not before the last call the shard and the reference
agree on what is alive then.
-/

namespace Recall

namespace Shard

def abstractEntry (entry : Entry) : Bytes × Option Int :=
  (entry.value, entry.expiresAtMs.map I64.val)

/-- Everything stored, due or not. -/
def stored (shard : Shard) : Reference.Keyspace :=
  fun key => (shard.entries.lookup key).map abstractEntry

/-- The entries without a deadline or with a deadline after `nowMs`. -/
def view (shard : Shard) (nowMs : I64) : Reference.Keyspace :=
  fun key => (shard.live nowMs key).map abstractEntry

theorem alive_abstractEntry (nowMs : I64) (entry : Entry) :
    TimedMap.alive nowMs.val (abstractEntry entry) = !entry.due nowMs := by
  obtain ⟨value, deadline⟩ := entry
  cases deadline with
  | none => rfl
  | some deadline =>
      have hlt : decide (nowMs.val < deadline.val) = !decide (deadline ≤ nowMs) := by
        rw [← decide_not, decide_eq_decide, not_le]
        exact Iff.rfl
      simpa [TimedMap.alive, abstractEntry, Entry.due] using hlt

theorem filter_alive_map (nowMs : I64) (entry : Option Entry) :
    (entry.map abstractEntry).filter (TimedMap.alive nowMs.val) =
      (entry.filter fun entry => !entry.due nowMs).map abstractEntry := by
  cases entry with
  | none => rfl
  | some entry =>
      simp only [Option.map_some, Option.filter, alive_abstractEntry]
      split <;> rfl

theorem view_eq_dropExpired (shard : Shard) (nowMs : I64) :
    shard.view nowMs = shard.stored.dropExpired nowMs.val := by
  funext key
  exact (filter_alive_map nowMs _).symm

end Shard

namespace Reference

open Shard

theorem wrap_eq_saturate {n : Int} (hlower : -9223372036854775808 ≤ n)
    (hupper : n ≤ 9223372036854775807) : I64.wrap n = I64.saturate n := by
  apply I64.val_injective
  simp only [I64.wrap, I64.saturate]
  rw [Int.bmod_eq_of_le (by omega) (by omega)]
  omega

/-- Truncating division with a carried half is rounding, for the positive remainders that occur. -/
theorem round_eq {n : Int} (hn : 0 ≤ n) :
    n.tdiv 1000 + (if 500 ≤ n.tmod 1000 then 1 else 0) = (n + 500) / 1000 := by
  rw [Int.tdiv_eq_ediv_of_nonneg hn, Int.tmod_eq_emod_of_nonneg hn]
  split <;> omega

theorem deadline_eq (old : Option Entry) (nowMs : I64) (expiry : Expiry) :
    deadline (old.map abstractEntry) nowMs.val expiry =
      match assignedDeadline old nowMs expiry with
      | .error failure => .error failure
      | .ok deadline => .ok (deadline.map I64.val) := by
  cases expiry with
  | clear => rfl
  | keep => cases old <;> rfl
  | afterMilliseconds duration =>
      simp only [deadline, assignedDeadline, I64.checkedAdd]
      have hmax : i64Max = 9223372036854775807 := rfl
      have hlower := nowMs.lower
      cases hsum : I64.ofInt? (nowMs.val + duration.val) with
      | none =>
          have hrange := I64.ofInt?_eq_none.mp hsum
          simp only [Option.filter]
          rw [if_pos (by omega)]
      | some deadline =>
          have hval := I64.ofInt?_eq_some.mp hsum
          have hupper := deadline.upper
          by_cases hpos : 0 < duration
          · have hposVal : 0 < duration.val := hpos
            simp only [Option.filter, hpos, decide_true, ↓reduceIte, Option.map_some, hval]
            rw [if_neg (by omega)]
          · have hposVal : ¬ 0 < duration.val := hpos
            simp only [Option.filter, hpos, decide_false, Bool.false_eq_true, ↓reduceIte]
            rw [if_pos (by omega)]

theorem holds_eq (old : Option Entry) (condition : Condition) :
    holds (old.map abstractEntry) condition = true ↔
      ¬ ((condition = .ifAbsent ∧ old.isSome) ∨ (condition = .ifPresent ∧ old.isNone)) := by
  cases condition <;> cases old <;> simp [holds]

theorem incremented_eq (old : Option Entry) (amount : I64) (subtract : Bool) :
    incremented old amount subtract =
      match counter (old.map abstractEntry) with
      | none => .error .notInteger
      | some current =>
          match I64.ofInt? (if subtract then current - amount.val else current + amount.val) with
          | none => .error .overflow
          | some next => .ok next := by
  have hadd : ∀ current : I64, incremented.add amount subtract current =
      match I64.ofInt? (if subtract then current.val - amount.val
        else current.val + amount.val) with
      | none => .error .overflow
      | some next => .ok next := by
    intro current
    cases subtract <;> rfl
  cases old with
  | none => exact hadd 0
  | some entry =>
      simp only [incremented, Option.map_some, counter, abstractEntry]
      cases integer entry.value with
      | none => rfl
      | some current => exact hadd current

/-- The entry a change leaves behind. -/
def Change.result (old : Option Entry) : Change → Option Entry
  | .keep => old
  | .put entry => entry

/-- On live entries the shard's answer is the reference's. -/
theorem command_eq_answer {operation : Operation} {key : Bytes}
    (hsingle : singleKey operation = some key) {old : Option Entry} {nowMs : I64}
    (hlive : ∀ entry ∈ old, entry.due nowMs = false) :
    command (old.map abstractEntry) nowMs.val operation =
      match answer nowMs old operation with
      | .error failure => .error failure
      | .ok (reply, change) => .ok (reply, (Change.result old change).map abstractEntry) := by
  cases operation with
  | get _ => cases old <;> rfl
  | set _ value condition expiry =>
      simp only [command, answer, deadline_eq]
      cases assignedDeadline old nowMs expiry with
      | error failure => rfl
      | ok deadline =>
          by_cases hholds : holds (old.map abstractEntry) condition = true
          · simp only [hholds, ↓reduceIte]
            rw [if_neg ((holds_eq old condition).mp hholds)]
            rfl
          · simp only [hholds, Bool.false_eq_true, ↓reduceIte]
            rw [if_pos (not_not.mp fun hnot => hholds ((holds_eq old condition).mpr hnot))]
            rfl
  | increment _ amount subtract =>
      simp only [command, answer]
      split
      · rfl
      · rw [incremented_eq]
        cases counter (old.map abstractEntry) with
        | none => rfl
        | some current =>
            simp only
            cases I64.ofInt? (if subtract = true then current - amount.val
              else current + amount.val) with
            | none => rfl
            | some next => cases old <;> rfl
  | delete _ => cases old <;> rfl
  | «exists» _ => cases old <;> rfl
  | multiGet _ => cases old <;> rfl
  | multiSet pairs =>
      obtain ⟨⟨key, value⟩, rfl, rfl⟩ :=
        List.map_eq_singleton_iff.mp (Shard.keys_of_singleKey hsingle)
      rfl
  | expire _ milliseconds =>
      cases old with
      | none => rfl
      | some entry =>
          have hmax : i64Max = 9223372036854775807 := rfl
          have hlower := nowMs.lower
          have hzero : (milliseconds ≤ 0) = (milliseconds.val ≤ 0) := rfl
          simp only [Option.map_some, abstractEntry, command, answer, hzero, I64.checkedAdd]
          split
          · rfl
          · cases hsum : I64.ofInt? (nowMs.val + milliseconds.val) with
            | none =>
                have hrange := I64.ofInt?_eq_none.mp hsum
                rw [if_pos (by omega)]
            | some deadline =>
                have hval := I64.ofInt?_eq_some.mp hsum
                have hupper := deadline.upper
                rw [if_neg (by omega)]
                simp [Change.result, abstractEntry, hval]
  | ttl _ milliseconds =>
      cases old with
      | none => rfl
      | some entry =>
          obtain ⟨value, deadline⟩ := entry
          cases deadline with
          | none => rfl
          | some deadline =>
              have hdue := hlive _ rfl
              have hlt : nowMs.val < deadline.val := by
                simpa [Entry.due, I64.lt_iff] using hdue
              have hmax : i64Max = 9223372036854775807 := rfl
              have hleft : (deadline.saturatingSub nowMs).val = remaining deadline.val nowMs.val := by
                simp only [I64.saturatingSub, I64.saturate, remaining]
                omega
              have hpos : 0 ≤ remaining deadline.val nowMs.val := by
                simp only [remaining]
                omega
              have hle : remaining deadline.val nowMs.val ≤ 9223372036854775807 := by
                simp only [remaining]
                omega
              cases milliseconds with
              | true =>
                  simp only [Option.map_some, abstractEntry, command, answer, remainingTtl, hleft,
                    Change.result, ↓reduceIte]
                  rw [wrap_eq_saturate (by omega) hle]
              | false =>
                  simp only [Option.map_some, abstractEntry, command, answer, remainingTtl, hleft,
                    Change.result, Bool.false_eq_true, ↓reduceIte, seconds]
                  rw [round_eq hpos, wrap_eq_saturate (by omega) (by omega)]
  | persist _ =>
      cases old with
      | none => rfl
      | some entry =>
          obtain ⟨value, deadline⟩ := entry
          cases deadline <;> rfl

/-- A deadline some time from now is not due. -/
theorem not_due_of_sum {value : Bytes} {nowMs duration deadline : I64}
    (hsum : I64.ofInt? (nowMs.val + duration.val) = some deadline) (hpos : 0 < duration.val) :
    Entry.due ⟨value, some deadline⟩ nowMs = false := by
  have hval := I64.ofInt?_eq_some.mp hsum
  simp only [Entry.due, Option.any_some, decide_eq_false_iff_not, I64.le_iff]
  omega

theorem assignedDeadline_not_due {old : Option Entry} {nowMs : I64} {expiry : Expiry}
    {deadline : Option I64} {value : Bytes}
    (hkept : Entry.due ⟨value, old.bind Entry.expiresAtMs⟩ nowMs = false)
    (hassigned : assignedDeadline old nowMs expiry = .ok deadline) :
    Entry.due ⟨value, deadline⟩ nowMs = false := by
  cases expiry with
  | clear =>
      cases hassigned
      rfl
  | keep =>
      cases hassigned
      exact hkept
  | afterMilliseconds duration =>
      simp only [assignedDeadline] at hassigned
      split at hassigned
      · next stored hstored =>
          cases hassigned
          obtain ⟨hsum, hpos⟩ := Option.filter_eq_some_iff.mp hstored
          exact not_due_of_sum hsum (of_decide_eq_true hpos)
      · cases hassigned

theorem answer_result_live {operation : Operation} {old : Option Entry} {nowMs : I64}
    {reply : Reply} {change : Change} (hlive : ∀ entry ∈ old, entry.due nowMs = false)
    (hanswer : answer nowMs old operation = .ok (reply, change)) :
    ∀ entry ∈ Change.result old change, entry.due nowMs = false := by
  have hkept : ∀ value, Entry.due ⟨value, old.bind Entry.expiresAtMs⟩ nowMs = false := by
    intro value
    cases old with
    | none => rfl
    | some entry => exact hlive entry rfl
  cases operation with
  | set _ value condition expiry =>
      simp only [answer] at hanswer
      cases hassigned : assignedDeadline old nowMs expiry with
      | error failure =>
          rw [hassigned] at hanswer
          cases hanswer
      | ok deadline =>
          simp only [hassigned] at hanswer
          split at hanswer
          · cases hanswer
            exact hlive
          · cases hanswer
            intro entry hentry
            cases hentry
            exact assignedDeadline_not_due (hkept value) hassigned
  | increment _ amount subtract =>
      simp only [answer] at hanswer
      split at hanswer
      · cases hanswer
      · split at hanswer
        · cases hanswer
        · cases hanswer
          intro entry hentry
          cases hentry
          exact hkept _
  | expire _ milliseconds =>
      simp only [answer] at hanswer
      split at hanswer
      · cases hanswer
        exact hlive
      · split at hanswer
        · cases hanswer
          intro entry hentry
          cases hentry
        · next hpos =>
            split at hanswer
            · cases hanswer
            · next deadline hsum =>
                cases hanswer
                intro entry hentry
                cases hentry
                exact not_due_of_sum hsum (I64.not_le_zero.mp hpos)
  | persist _ =>
      simp only [answer] at hanswer
      split at hanswer
      · cases hanswer
        exact hlive
      · split at hanswer
        · cases hanswer
          intro entry hentry
          cases hentry
          rfl
        · cases hanswer
          exact hlive
  | delete _ =>
      cases hanswer
      intro entry hentry
      cases hentry
  | multiSet pairs =>
      rcases pairs with - | ⟨⟨_, value⟩, - | ⟨second, rest⟩⟩
      · cases hanswer
        exact hlive
      · cases hanswer
        intro entry hentry
        cases hentry
        rfl
      · cases hanswer
        exact hlive
  | get _ | ttl _ _ | «exists» _ | multiGet _ =>
      cases hanswer
      exact hlive

end Reference

namespace Shard

open Reference

variable {shard after : Shard} {nowMs later : I64} {key : Bytes}

/-- The table after a single-key command, as far as it is alive at some later time. -/
theorem view_installed {change : Change}
    (hentries : after.entries = shard.entries.overlay (change.effects shard nowMs key))
    (hle : nowMs ≤ later) :
    after.view later =
      ((shard.view nowMs).put key
        ((Change.result (shard.live nowMs key) change).map abstractEntry)).dropExpired later.val := by
  rw [TimedMap.dropExpired_put, view_eq_dropExpired shard,
    TimedMap.dropExpired_dropExpired (I64.le_iff.mp hle), ← view_eq_dropExpired, filter_alive_map]
  funext other
  have hlookup : after.entries.lookup other =
      ((change.effects shard nowMs key).lookup other).getD (shard.entries.lookup other) := by
    rw [hentries, Finmap.lookup_overlay]
  by_cases hother : other = key
  · subst hother
    simp only [TimedMap.put, ↓reduceIte, view, live]
    rw [hlookup]
    cases change with
    | keep =>
        simp only [Change.effects, lookup_sweep, true_and, Change.result, stale]
        cases hentry : shard.entries.lookup other with
        | none => simp
        | some entry => cases hdue : entry.due nowMs <;> simp [Option.filter, hdue]
    | put entry => simp [Change.effects, Change.result]
  · have huntouched : (change.effects shard nowMs key).lookup other = none := by
      cases change with
      | keep => simp [Change.effects, lookup_sweep, hother]
      | put entry => rw [Change.effects, lookup_insert_sweep, if_neg hother]
    simp [TimedMap.put, hother, view, live, hlookup, huntouched]

theorem due_mono {entry : Entry} (hdue : entry.due nowMs = true) (hle : nowMs ≤ later) :
    entry.due later = true := by
  simp only [Entry.due, Option.any_eq_true] at hdue ⊢
  obtain ⟨deadline, hdeadline, hpast⟩ := hdue
  exact ⟨deadline, hdeadline, by simpa using (of_decide_eq_true hpast).trans hle⟩

theorem live_reclaimed (hreclaimed : Reclaimed shard after nowMs) (hle : nowMs ≤ later)
    (key : Bytes) : after.live later key = shard.live later key := by
  rcases hreclaimed.entries key with hsame | ⟨hnone, entry, hentry, hdue⟩
  · rw [live, live, hsame]
  · simp [live, hnone, hentry, Option.filter, due_mono hdue hle]

theorem view_reclaimed (hreclaimed : Reclaimed shard after nowMs) (hle : nowMs ≤ later) :
    after.view later = shard.view later := by
  funext key
  rw [view, view, live_reclaimed hreclaimed hle]

theorem live_not_due : ∀ entry ∈ shard.live nowMs key, entry.due nowMs = false :=
  fun _ hentry => (lookup_of_live hentry).2

end Shard

/-! ### Paired runs -/

/-- Answered by one of the limits, which the reference does not have. -/
def limited : Except EngineError Reply → Bool
  | .error .budget | .error .responseLimit => true
  | _ => false

structure Observation where
  operation : Operation
  nowMs : I64
  answered : Except EngineError Reply
  expected : Except EngineError Reply

open Shard in
/-- A shard and the reference keyspace run side by side from the start, with active expiration
anywhere and times that never decrease: the observed replies, the time of the last call, and the
states reached. -/
inductive PairedRun (limits : ShardLimits) :
    List Observation → Option I64 → Shard → Reference.Keyspace → Prop
  | start {shard : Shard} (hnew : Shard.new limits = .ok shard) :
      PairedRun limits [] none shard fun _ => none
  | execute {observations : List Observation} {last : Option I64} {shard after : Shard}
      {keyspace : Reference.Keyspace} {key : Bytes} {operation : Operation} {nowMs : I64}
      {seed : HashSeed} {answered : Except EngineError Reply}
      (hrun : PairedRun limits observations last shard keyspace)
      (htime : ∀ time ∈ last, time ≤ nowMs) (hkey : operation.keys = [key])
      (hexecute : shard.execute seed operation nowMs = .ok (after, answered)) :
      PairedRun limits
        (observations ++ [{ operation, nowMs, answered
                            expected := (Reference.step keyspace key operation nowMs.val).2 }])
        (some nowMs) after
        (if limited answered then keyspace.dropExpired nowMs.val
          else (Reference.step keyspace key operation nowMs.val).1)
  | expireDue {observations : List Observation} {last : Option I64} {shard after : Shard}
      {keyspace : Reference.Keyspace} {nowMs : I64} {budget removed : Nat}
      (hrun : PairedRun limits observations last shard keyspace)
      (htime : ∀ time ∈ last, time ≤ nowMs)
      (hexpire : shard.expireDue nowMs budget = .ok (after, removed)) :
      PairedRun limits observations (some nowMs) after keyspace

namespace PairedRun

open Shard Reference

/-- Agreement from some time on. -/
def Agrees (shard : Shard) (keyspace : Keyspace) (last : Option I64) : Prop :=
  ∀ later, (∀ time ∈ last, time ≤ later) → shard.view later = keyspace.dropExpired later.val

/-- One command, in the vocabulary of the reference. -/
theorem execute_agrees {shard after : Shard} {keyspace : Keyspace} {last : Option I64}
    {key : Bytes} {operation : Operation} {nowMs : I64} {seed : HashSeed}
    {answered : Except EngineError Reply} (hwf : shard.WellFormed)
    (hagrees : Agrees shard keyspace last) (htime : ∀ time ∈ last, time ≤ nowMs)
    (hkey : operation.keys = [key])
    (hexecute : shard.execute seed operation nowMs = .ok (after, answered)) :
    (answered = (step keyspace key operation nowMs.val).2 ∨ limited answered = true) ∧
      Agrees after (if limited answered then keyspace.dropExpired nowMs.val
        else (step keyspace key operation nowMs.val).1) (some nowMs) ∧
      after.view nowMs = (if limited answered then keyspace.dropExpired nowMs.val
        else (step keyspace key operation nowMs.val).1) := by
  obtain ⟨key', hsingle, hkeys⟩ := @singleKey_of_length operation (by simp [hkey])
  obtain rfl : key = key' := by simpa [hkey] using hkeys
  have hview : shard.view nowMs = keyspace.dropExpired nowMs.val := hagrees nowMs htime
  have hold : (keyspace.dropExpired nowMs.val) key = (shard.live nowMs key).map abstractEntry := by
    rw [← hview]
    rfl
  have hstay : Agrees shard (keyspace.dropExpired nowMs.val) (some nowMs) := by
    intro later hlater
    have hle := hlater nowMs rfl
    rw [TimedMap.dropExpired_dropExpired (I64.le_iff.mp hle)]
    exact hagrees later fun time hmem => (htime time hmem).trans hle
  have hstep : step keyspace key operation nowMs.val =
      match answer nowMs (shard.live nowMs key) operation with
      | .error failure => (keyspace.dropExpired nowMs.val, .error failure)
      | .ok (reply, change) => ((shard.view nowMs).put key
          ((Change.result (shard.live nowMs key) change).map abstractEntry), .ok reply) := by
    simp only [step, hold, command_eq_answer hsingle live_not_due, ← hview]
    cases answer nowMs (shard.live nowMs key) operation <;> rfl
  rcases execute_spec hwf hexecute with
    ⟨failure, hrefusal, rfl, rfl⟩ | ⟨response, effects, hrefusal, heval, rfl, hinstalled⟩
  · cases hlimited : limited (.error failure) with
    | true => exact ⟨Or.inr rfl, hstay, hview⟩
    | false =>
        have hanswer : answer nowMs (after.live nowMs key) operation = .error failure := by
          unfold refusal at hrefusal
          rw [evaluate_single hsingle] at hrefusal
          cases hanswer : answer nowMs (after.live nowMs key) operation with
          | error own =>
              rw [hanswer] at hrefusal
              cases hrefusal
              rfl
          | ok result =>
              simp only [hanswer] at hrefusal
              split at hrefusal
              · cases hrefusal
                cases hlimited
              · split at hrefusal
                · cases hrefusal
                  cases hlimited
                · cases hrefusal
        rw [hanswer] at hstep
        rw [hstep]
        exact ⟨Or.inl rfl, hstay, hview⟩
  · obtain ⟨change, hanswer, rfl⟩ := evaluate_single_ok hsingle heval
    rw [hanswer] at hstep
    rw [hstep]
    have hentries := hinstalled.entries
    refine ⟨Or.inl rfl, fun later hlater => ?_, ?_⟩
    · exact view_installed hentries (hlater nowMs rfl)
    · have hafter := view_installed hentries (le_refl nowMs)
      rw [TimedMap.dropExpired_put, filter_alive_map, view_eq_dropExpired shard,
        TimedMap.dropExpired_dropExpired le_rfl, ← view_eq_dropExpired] at hafter
      refine hafter.trans ?_
      congr 2
      have hresult := answer_result_live live_not_due hanswer
      cases hentry : Change.result (shard.live nowMs key) change with
      | none => rfl
      | some entry => simp [Option.filter, hresult entry hentry]

theorem invariant {limits : ShardLimits} {observations : List Observation}
    {last : Option I64} {shard : Shard} {keyspace : Keyspace}
    (hrun : PairedRun limits observations last shard keyspace) :
    shard.WellFormed ∧ Agrees shard keyspace last ∧
      ∀ observation ∈ observations,
        observation.answered = observation.expected ∨ limited observation.answered = true := by
  induction hrun with
  | start hnew =>
      refine ⟨wellFormed_new hnew, fun later _ => ?_, by simp⟩
      rw [eq_of_new hnew]
      rfl
  | execute hrun htime hkey hexecute ih =>
      obtain ⟨hwf, hagrees, hobservations⟩ := ih
      obtain ⟨hreply, hafter, -⟩ := execute_agrees hwf hagrees htime hkey hexecute
      refine ⟨(execute_wellFormed hwf hexecute).1, hafter, fun observation hmem => ?_⟩
      rcases List.mem_append.mp hmem with hearlier | hlast
      · exact hobservations observation hearlier
      · rw [List.mem_singleton.mp hlast]
        exact hreply
  | @expireDue observations last shard after keyspace nowMs budget removed hrun htime hexpire ih =>
      obtain ⟨hwf, hagrees, hobservations⟩ := ih
      obtain ⟨hreclaimedWf, hreclaimed⟩ := expireDue_wellFormed hwf hexpire
      refine ⟨hreclaimedWf, fun later hlater => ?_, hobservations⟩
      have hle := hlater nowMs rfl
      rw [view_reclaimed hreclaimed hle]
      exact hagrees later fun time hmem => (htime time hmem).trans hle

/-- **A shard refines the timed map.** Along every run with nondecreasing times and any placement of
active expiration, each reply is the reference's unless a limit answered, the live entries are the
reference's, and no call panics before the revisions are used up. After a command the live entries are
those of the reference map itself; after active expiration they are those the reference still holds
alive. -/
theorem refines_reference {limits : ShardLimits} {observations : List Observation}
    {last : Option I64} {shard : Shard} {keyspace : Keyspace}
    (hrun : PairedRun limits observations last shard keyspace) :
    (∀ observation ∈ observations,
      observation.answered = observation.expected ∨ limited observation.answered = true) ∧
    (∀ nowMs ∈ last, shard.view nowMs = keyspace.dropExpired nowMs.val) ∧
    (∀ seed operation nowMs key after answered, (∀ time ∈ last, time ≤ nowMs) →
      operation.keys = [key] → shard.execute seed operation nowMs = .ok (after, answered) →
        after.view nowMs = if limited answered then keyspace.dropExpired nowMs.val
          else (step keyspace key operation nowMs.val).1) ∧
    (∀ seed operation nowMs panic, shard.execute seed operation nowMs = .error panic →
      panic = .revisionExhausted) ∧
    ∀ nowMs budget panic, shard.expireDue nowMs budget = .error panic →
      panic = .revisionExhausted := by
  obtain ⟨hwf, hagrees, hobservations⟩ := invariant hrun
  refine ⟨hobservations, fun nowMs hmem => hagrees nowMs fun time htime => ?_, ?_, ?_, ?_⟩
  · rw [Option.mem_def] at hmem htime
    rw [hmem] at htime
    cases htime
    exact le_rfl
  · intro seed operation nowMs key after answered htime hkey hexecute
    exact (execute_agrees hwf hagrees htime hkey hexecute).2.2
  · intro seed operation nowMs panic hpanic
    exact execute_error hwf hpanic
  · intro nowMs budget panic hpanic
    exact expireDue_error hwf hpanic

/-! A counter that expires unseen: `SET a 7 PX 10` at time 0, then `INCR a` at time 20 starts from
zero again. -/

def sampleLimits : ShardLimits := { maxKeys := 2, maxPayloadBytes := 8, maxReplyBytes := 64 }

def sampleSet : Operation := .set [97] [55] .always (.afterMilliseconds (I64.saturate 10))

def sampleIncrement : Operation := .increment [97] 1 false

def sampleReplies (shard : Shard) : Except Panic (Except EngineError Reply) := do
  let (shard, _) ← shard.execute .insertionOrder sampleSet 0
  let (_, reply) ← shard.execute .insertionOrder sampleIncrement (I64.saturate 20)
  return reply

theorem refines_reference_sample : ∃ shard keyspace first second,
    PairedRun sampleLimits [first, second] (some (I64.saturate 20)) shard keyspace ∧
    second.answered.toOption = some (.integer 1) ∧
    (second.answered = second.expected ∨ limited second.answered = true) := by
  obtain ⟨start, hnew, hstart⟩ := @exists_of_okAnd _ _ (Shard.new sampleLimits)
    (fun shard => okAnd (fun reply => reply.toOption = some (.integer 1))
      (sampleReplies shard)) (by decide +kernel)
  obtain ⟨reply, hreply, hone⟩ := exists_of_okAnd hstart
  unfold sampleReplies at hreply
  cases hset : start.execute .insertionOrder sampleSet 0 with
  | error panic => simp [hset, bind, Except.bind] at hreply
  | ok first =>
      obtain ⟨middle, answered⟩ := first
      simp only [hset, bind, Except.bind] at hreply
      cases hincrement : middle.execute .insertionOrder sampleIncrement (I64.saturate 20) with
      | error panic => simp [hincrement] at hreply
      | ok second =>
          obtain ⟨final, counted⟩ := second
          simp only [hincrement, pure, Except.pure, Except.ok.injEq] at hreply
          subst hreply
          have hlater : ∀ t ∈ some (0 : I64), t ≤ I64.saturate 20 := by
            simp [I64.le_iff, I64.saturate]
          have hrun := PairedRun.execute (PairedRun.execute (.start hnew) (by simp) rfl hset)
            hlater rfl hincrement
          exact ⟨_, _, _, _, hrun, by simpa using hone,
            (refines_reference hrun).1 _ (by simp)⟩

end PairedRun

end Recall
