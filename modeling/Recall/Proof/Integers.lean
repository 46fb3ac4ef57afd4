import Recall.Proof.Wire
import Recall.Proof.Sequence

/-!
# Canonical integers and counters

`integer` caps the length, parses leniently and compares with the formatted result. What is left are
the canonical spellings, which is what `INCR` and its relatives store, so a counter can always be
read again and follows a scalar total through any run.
-/

namespace Recall

/-! ### Spelling and parsing -/

theorem parseDigits_ofNat (n : Nat) : parseDigits (Decimal.ofNat n) = some n := by
  have hdigits : Decimal.ofNat n ≠ [] ∧ (Decimal.ofNat n).all Decimal.isDigit := by
    refine ⟨Decimal.ofNat_ne_nil n, List.all_eq_true.mpr fun b hb => ?_⟩
    exact Decimal.isDigit_of_mem_ofNat hb
  rw [parseDigits, if_pos hdigits, Decimal.value_ofNat]

theorem parseI64_ofNat (n : Nat) : parseI64 (Decimal.ofNat n) = I64.ofInt? n := by
  have hsign : ∀ b rest, Decimal.isDigit b = false → Decimal.ofNat n ≠ b :: rest := by
    intro b rest hb hcons
    have hdigit := @Decimal.isDigit_of_mem_ofNat n b (hcons ▸ List.mem_cons_self)
    rw [hb] at hdigit
    cases hdigit
  unfold parseI64
  split
  · next digits hminus => exact absurd hminus (hsign 45 digits rfl)
  · next digits hplus => exact absurd hplus (hsign 43 digits rfl)
  · rw [parseDigits_ofNat, Option.bind_some]

theorem parseI64_toBytes (n : I64) : parseI64 n.toBytes = some n := by
  rw [I64.toBytes, Decimal.ofInt]
  split
  · next hneg =>
      change (parseDigits (Decimal.ofNat n.val.natAbs)).bind _ = some n
      rw [parseDigits_ofNat, Option.bind_some, I64.ofInt?_eq_some]
      omega
  · next hneg =>
      rw [parseI64_ofNat, I64.ofInt?_eq_some]
      omega

theorem toBytes_ne_nil (n : I64) : n.toBytes ≠ [] := by
  rw [I64.toBytes, Decimal.ofInt]
  split
  · exact List.cons_ne_nil _ _
  · exact Decimal.ofNat_ne_nil _

theorem integer_eq_some {value : Bytes} {n : I64} : integer value = some n ↔ value = n.toBytes := by
  constructor
  · intro hinteger
    unfold integer at hinteger
    split at hinteger
    · cases hinteger
    · obtain ⟨-, hsame⟩ := Option.filter_eq_some_iff.mp hinteger
      exact (of_decide_eq_true hsame).symm
  · rintro rfl
    have hlength : ¬ (n.toBytes = [] ∨ 20 < n.toBytes.length) := by
      rintro (hnil | hlong)
      · exact toBytes_ne_nil n hnil
      · exact absurd (length_toBytes_le n) (Nat.not_le.mpr hlong)
    rw [integer, if_neg hlength, parseI64_toBytes, Option.filter_some, if_pos (by simp)]

theorem integer_toBytes (n : I64) : integer n.toBytes = some n := integer_eq_some.mpr rfl

theorem integer_canonical (value : Bytes) (n : Int) :
    (integer value).map I64.val = some n ↔
      Decimal.Canonical value n ∧ -2 ^ 63 ≤ n ∧ n ≤ 2 ^ 63 - 1 := by
  rw [Option.map_eq_some_iff, Decimal.canonical_iff]
  constructor
  · rintro ⟨parsed, hparsed, rfl⟩
    exact ⟨integer_eq_some.mp hparsed, parsed.lower, parsed.upper⟩
  · rintro ⟨rfl, hlower, hupper⟩
    exact ⟨⟨n, hlower, hupper⟩, integer_toBytes ⟨n, hlower, hupper⟩, rfl⟩

/-! ### Counters -/

/-- One `INCR`, `INCRBY`, `DECR` or `DECRBY`. -/
structure Increment where
  seed : HashSeed
  amount : I64
  subtract : Bool
  nowMs : I64

namespace Increment

def operation (step : Increment) (key : Bytes) : Operation :=
  .increment key step.amount step.subtract

/-- The next total, unless it overflows or the amount to subtract has no positive counterpart. -/
def checked (step : Increment) (total : I64) : Option I64 :=
  if step.subtract ∧ step.amount = .minValue then none
  else if step.subtract then I64.ofInt? (total.val - step.amount.val)
  else I64.ofInt? (total.val + step.amount.val)

/-- A failed step leaves the total, and an absent counter absent. -/
def advance (step : Increment) (total : Option I64) : Option I64 :=
  (step.checked (total.getD 0)).or total

def reply (step : Increment) (total : Option I64) : Except EngineError Reply :=
  match step.checked (total.getD 0) with
  | some next => .ok (.integer next)
  | none => .error .overflow

end Increment

def runningTotal : Option I64 → List Increment → Option I64
  | total, [] => total
  | total, step :: steps => runningTotal (step.advance total) steps

def runningReplies : Option I64 → List Increment → List (Except EngineError Reply)
  | _, [] => []
  | total, step :: steps => step.reply total :: runningReplies (step.advance total) steps

namespace Shard

/-- Increments of one key, one after the other. -/
def incrementAll (shard : Shard) (key : Bytes) :
    List Increment → Except Panic (Shard × List (Except EngineError Reply))
  | [] => .ok (shard, [])
  | step :: steps => do
      let (shard, result) ← shard.execute step.seed (step.operation key) step.nowMs
      let (shard, results) ← shard.incrementAll key steps
      return (shard, result :: results)

variable {shard after : Shard} {key : Bytes} {step : Increment} {total : Option I64}
  {result : Except EngineError Reply}

/-- What a shard stores for a counter: its decimal, without a deadline. -/
def counterEntry (total : I64) : Entry := ⟨total.toBytes, none⟩

theorem live_counter (hstored : shard.entries.lookup key = total.map counterEntry) (nowMs : I64) :
    shard.live nowMs key = total.map counterEntry := by
  rw [live, hstored]
  cases total with
  | none => rfl
  | some n => rfl

theorem answer_counter (nowMs : I64) (total : Option I64) :
    answer nowMs (total.map counterEntry) (step.operation key) =
      match step.checked (total.getD 0) with
      | none => .error .overflow
      | some next => .ok (.integer next, .put (some (counterEntry next))) := by
  have hcurrent : ∀ amount subtract, incremented (total.map counterEntry) amount subtract =
      incremented.add amount subtract (total.getD 0) := by
    intro amount subtract
    cases total with
    | none => rfl
    | some n => simp [incremented, counterEntry, integer_toBytes]
  have hdeadline : (total.map counterEntry).bind Entry.expiresAtMs = none := by
    cases total with
    | none => rfl
    | some n => rfl
  simp only [Increment.operation, answer, Increment.checked, hcurrent, hdeadline, counterEntry]
  split
  · rfl
  · simp only [incremented.add, I64.checkedSub, I64.checkedAdd]
    split <;> split <;> simp_all

theorem increment_step (hwf : shard.WellFormed) (hreply : 64 ≤ shard.limits.maxReplyBytes)
    (hstored : shard.entries.lookup key = total.map counterEntry)
    (hexecute : shard.execute step.seed (step.operation key) step.nowMs = .ok (after, result))
    (hbudget : result ≠ .error .budget) :
    after.entries.lookup key = (step.advance total).map counterEntry ∧ result = step.reply total := by
  have heval : shard.evaluate (step.operation key) step.nowMs =
      match step.checked (total.getD 0) with
      | none => .error .overflow
      | some next => .ok (.integer next,
          (Change.put (some (counterEntry next))).effects shard step.nowMs key) := by
    rw [evaluate_single (show singleKey (step.operation key) = some key from rfl),
      live_counter hstored, answer_counter]
    cases step.checked (total.getD 0) <;> rfl
  unfold Increment.advance Increment.reply
  cases hchecked : step.checked (total.getD 0) with
  | none =>
      simp only [hchecked] at heval
      have hrefusal : shard.refusal (step.operation key) step.nowMs = some .overflow := by
        rw [refusal, heval]
      rw [execute_of_refusal hwf hrefusal] at hexecute
      cases hexecute
      exact ⟨by rw [Option.none_or, hstored], rfl⟩
  | some next =>
      simp only [hchecked] at heval
      rcases execute_spec hwf hexecute with
        ⟨failure, hrefusal, rfl, rfl⟩ | ⟨response, effects, -, heval', rfl, hinstalled⟩
      · simp only [refusal, heval, Reply.not_exceeds_integer _ hreply, Bool.false_eq_true,
          ↓reduceIte] at hrefusal
        split at hrefusal
        · cases hrefusal
          exact absurd rfl hbudget
        · cases hrefusal
      · rw [heval] at heval'
        cases heval'
        refine ⟨?_, rfl⟩
        rw [lookup_change hinstalled key]
        simp

theorem incrementAll_run {steps : List Increment} {results : List (Except EngineError Reply)}
    (hwf : shard.WellFormed) (hreply : 64 ≤ shard.limits.maxReplyBytes)
    (hstored : shard.entries.lookup key = total.map counterEntry)
    (hrun : shard.incrementAll key steps = .ok (after, results))
    (hbudget : ∀ result ∈ results, result ≠ .error .budget) :
    after.entries.lookup key = (runningTotal total steps).map counterEntry ∧
      results = runningReplies total steps := by
  induction steps generalizing shard total results with
  | nil =>
      cases hrun
      exact ⟨hstored, rfl⟩
  | cons step steps ih =>
      obtain ⟨⟨next, result⟩, hexecute, hrest⟩ := bind_eq_ok.mp hrun
      obtain ⟨⟨last, rest⟩, hmore, hafter⟩ := bind_eq_ok.mp hrest
      cases hafter
      obtain ⟨hnext, hlimits⟩ := execute_wellFormed hwf hexecute
      obtain ⟨hadvanced, hresult⟩ :=
        increment_step hwf hreply hstored hexecute (hbudget result List.mem_cons_self)
      obtain ⟨htotal, hreplies⟩ := ih hnext (by rwa [hlimits]) hadvanced hmore
        fun result hresult => hbudget result (List.mem_cons_of_mem _ hresult)
      exact ⟨htotal, by rw [runningReplies, hresult, hreplies]⟩

theorem incrementAll_total {steps : List Increment} (hwf : shard.WellFormed)
    (hroom : shard.revision + steps.length ≤ usizeMax) :
    ∃ after results, shard.incrementAll key steps = .ok (after, results) := by
  induction steps generalizing shard with
  | nil => exact ⟨shard, [], rfl⟩
  | cons step steps ih =>
      rw [List.length_cons] at hroom
      obtain ⟨next, result, hexecute, hnext, hrevision⟩ := @execute_total shard step.nowMs
        (step.operation key) step.seed hwf (by omega)
      obtain ⟨after, results, hrest⟩ := ih hnext (by omega)
      refine ⟨after, result :: results, bind_eq_ok.mpr ⟨_, hexecute, ?_⟩⟩
      exact bind_eq_ok.mpr ⟨_, hrest, rfl⟩

/-! ### What a successful increment stores -/

theorem answer_increment {nowMs : I64} {old : Option Entry} {reply : Reply} {change : Change}
    (hanswer : answer nowMs old (step.operation key) = .ok (reply, change)) :
    ∃ next, reply = .integer next ∧
      change = .put (some ⟨next.toBytes, old.bind Entry.expiresAtMs⟩) := by
  simp only [Increment.operation, answer] at hanswer
  split at hanswer
  · cases hanswer
  · split at hanswer
    · cases hanswer
    · next next hnext =>
        cases hanswer
        exact ⟨next, rfl, rfl⟩

theorem stored_of_increment (hwf : shard.WellFormed) {reply : Reply}
    (hexecute : shard.execute step.seed (step.operation key) step.nowMs = .ok (after, .ok reply)) :
    ∃ next entry, reply = .integer next ∧ after.entries.lookup key = some entry ∧
      entry.value = next.toBytes := by
  rcases execute_spec hwf hexecute with ⟨_, -, -, hfailed⟩ | ⟨response, effects, -, heval, hok, hinstalled⟩
  · cases hfailed
  · cases hok
    obtain ⟨change, hanswer, rfl⟩ := evaluate_single_ok rfl heval
    obtain ⟨next, rfl, rfl⟩ := answer_increment hanswer
    refine ⟨next, ⟨next.toBytes, (shard.live step.nowMs key).bind Entry.expiresAtMs⟩, rfl, ?_, rfl⟩
    rw [lookup_change hinstalled key]
    simp only [↓reduceIte]

theorem incremented_notInteger {old : Option Entry} {amount : I64} {subtract : Bool}
    (hincremented : incremented old amount subtract = .error .notInteger) :
    ∃ entry, old = some entry ∧ integer entry.value = none := by
  have hadd : ∀ current, incremented.add amount subtract current ≠ .error .notInteger := by
    intro current hadd
    unfold incremented.add at hadd
    split at hadd <;> cases hadd
  unfold incremented at hincremented
  split at hincremented
  · exact absurd hincremented (hadd 0)
  · next entry =>
      split at hincremented
      · next hnone => exact ⟨entry, rfl, hnone⟩
      · next current _ => exact absurd hincremented (hadd current)

/-- An increment says that a value is not an integer only when the stored one is not. -/
theorem integer_none_of_notInteger (hwf : shard.WellFormed)
    (hexecute : shard.execute step.seed (step.operation key) step.nowMs =
      .ok (after, .error .notInteger)) :
    ∃ entry, shard.entries.lookup key = some entry ∧ integer entry.value = none := by
  have hsingle : singleKey (step.operation key) = some key := rfl
  rcases execute_spec hwf hexecute with ⟨failure, hrefusal, -, hfailed⟩ | ⟨_, _, -, -, hok, -⟩
  · cases hfailed
    simp only [refusal, evaluate_single hsingle] at hrefusal
    cases hanswer : answer step.nowMs (shard.live step.nowMs key) (step.operation key) with
    | ok outcome =>
        simp only [hanswer] at hrefusal
        split at hrefusal
        · cases hrefusal
        · split at hrefusal <;> cases hrefusal
    | error failure =>
        simp only [hanswer] at hrefusal
        cases hrefusal
        simp only [Increment.operation, answer] at hanswer
        split at hanswer
        · cases hanswer
        · split at hanswer
          · next failure hincremented =>
              cases hanswer
              obtain ⟨entry, hlive, hnone⟩ := incremented_notInteger hincremented
              exact ⟨entry, (lookup_of_live hlive).1, hnone⟩
          · cases hanswer
  · cases hok

end Shard

namespace ShardRun

theorem Reachable.maxReplyBytes {limits : ShardLimits} {run : ShardRun}
    (hreach : Reachable limits run) : 64 ≤ limits.maxReplyBytes := by
  induction hreach with
  | start hnew =>
      unfold Shard.new at hnew
      split at hnew
      · cases hnew
      · omega
  | call _ _ _ ih => exact ih

/-- `integer` reads the canonical decimals of the 64-bit range and nothing else; what an increment
stores is one of them; and a run of increments of an absent key stores the decimal of the running
total in which the overflowing steps are skipped. -/
theorem integers_round_trip {limits : ShardLimits} {run : ShardRun}
    (hreach : Reachable limits run) :
    (∀ (value : Bytes) (n : Int), (integer value).map I64.val = some n ↔
      Decimal.Canonical value n ∧ -2 ^ 63 ≤ n ∧ n ≤ 2 ^ 63 - 1) ∧
    (∀ n : I64, integer n.toBytes = some n) ∧
    (∀ (key : Bytes) (step : Increment) after reply,
      run.shard.execute step.seed (step.operation key) step.nowMs = .ok (after, .ok reply) →
        ∃ total entry, reply = .integer total ∧ after.entries.lookup key = some entry ∧
          integer entry.value = some total ∧
          ∀ (next : Increment) later,
            after.execute next.seed (next.operation key) next.nowMs ≠
              .ok (later, .error .notInteger)) ∧
    ∀ (key : Bytes) (steps : List Increment), run.shard.entries.lookup key = none →
      (run.shard.revision + steps.length ≤ usizeMax →
        ∃ after results, run.shard.incrementAll key steps = .ok (after, results)) ∧
      ∀ after results, run.shard.incrementAll key steps = .ok (after, results) →
        (∀ result ∈ results, result ≠ .error .budget) →
        after.entries.lookup key =
          (runningTotal none steps).map (fun total => ⟨Decimal.ofInt total.val, none⟩) ∧
        results = runningReplies none steps := by
  obtain ⟨hinv, hlimits⟩ := hreach.invariant
  have hwf := hinv.wellFormed
  have hreply : 64 ≤ run.shard.limits.maxReplyBytes := hlimits ▸ hreach.maxReplyBytes
  refine ⟨integer_canonical, integer_toBytes, ?_, ?_⟩
  · intro key step after reply hexecute
    obtain ⟨total, entry, hinteger, hentry, hvalue⟩ := Shard.stored_of_increment hwf hexecute
    have hread : integer entry.value = some total := integer_eq_some.mpr hvalue
    refine ⟨total, entry, hinteger, hentry, hread, fun next later hnext => ?_⟩
    obtain ⟨stored, hstored, hnone⟩ :=
      Shard.integer_none_of_notInteger (Shard.execute_wellFormed hwf hexecute).1 hnext
    rw [hentry] at hstored
    cases hstored
    rw [hread] at hnone
    cases hnone
  · intro key steps habsent
    refine ⟨Shard.incrementAll_total hwf, fun after results hrun hbudget => ?_⟩
    have hstored : run.shard.entries.lookup key = (none : Option I64).map Shard.counterEntry :=
      habsent
    exact Shard.incrementAll_run hwf hreply hstored hrun hbudget

def sampleIncrements : List Increment :=
  [⟨.insertionOrder, I64.saturate 7, false, 0⟩, ⟨.insertionOrder, .minValue, true, 1⟩,
    ⟨.insertionOrder, I64.saturate 9, true, I64.saturate (-3)⟩]

/-- `INCRBY 7`, a `DECRBY` of the least integer, which fails, and `DECRBY 9` leave `-2`. -/
theorem integers_round_trip_sample : ∃ shard after results,
    Shard.new sampleLimits = .ok shard ∧
    shard.incrementAll [110] sampleIncrements = .ok (after, results) ∧
    results = [.ok (.integer (I64.saturate 7)), .error .overflow, .ok (.integer (I64.saturate (-2)))] ∧
    after.entries.lookup [110] = some ⟨ascii "-2", none⟩ := by
  obtain ⟨shard, hnew⟩ : ∃ shard, Shard.new sampleLimits = .ok shard := ⟨_, rfl⟩
  obtain ⟨⟨after, results⟩, hrun, hresults⟩ := @exists_of_okAnd _ _
    (shard.incrementAll [110] sampleIncrements)
    (fun outcome => outcome.2 = [.ok (.integer (I64.saturate 7)), .error .overflow,
      .ok (.integer (I64.saturate (-2)))]) (by
      cases hnew
      decide +kernel)
  obtain rfl : results = _ := of_decide_eq_true hresults
  obtain ⟨-, -, -, hcounts⟩ := integers_round_trip (.start hnew)
  obtain ⟨-, hfinal⟩ := hcounts [110] sampleIncrements (by
    cases hnew
    rfl)
  obtain ⟨hstored, -⟩ := hfinal after _ hrun (by decide)
  refine ⟨shard, after, _, hnew, hrun, rfl, ?_⟩
  rw [hstored]
  decide +kernel

end ShardRun

end Recall
