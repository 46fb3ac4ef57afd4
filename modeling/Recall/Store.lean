import Recall.Expiry
import Recall.Lib.FiniteMap

/-!
# The shard

`Shard` of `recall-core`: one owner's table with its timers, limits and accounting. A command is
prepared into a set of effects that leaves the shard alone, then applied. Storage is reserved up
front in the source; the model takes these reservations to succeed.

The table is never iterated and is a finite map. The effects of a command are iterated once, in the
order of a freshly seeded hash map, so `Prepared` lists them in that order and `prepare` takes the
seed.
-/

namespace Recall

structure ShardLimits where
  maxKeys : Nat
  maxPayloadBytes : Nat
  maxReplyBytes : Nat
deriving DecidableEq

inductive EngineError where
  | invalidLimits
  | responseLimit
  | budget
  | notInteger
  | overflow
  | setExpireTime
  | expireExpireTime
deriving DecidableEq

namespace EngineError

def message : EngineError → String
  | invalidLimits => "ERR invalid shard limits"
  | responseLimit => "ERR response exceeds configured limit"
  | budget => "OOM owner key or payload budget exhausted"
  | notInteger => "ERR value is not an integer or out of range"
  | overflow => "ERR increment or decrement would overflow"
  | setExpireTime => "ERR invalid expire time in 'set' command"
  | expireExpireTime => "ERR invalid expire time in 'expire' command"

def reply (failure : EngineError) : Reply := .errorText failure.message

end EngineError

structure Entry where
  value : Bytes
  expiresAtMs : Option I64
deriving DecidableEq

/-- `expires_at_ms.is_some_and(|deadline| deadline <= now_ms)` -/
def Entry.due (entry : Entry) (nowMs : I64) : Bool :=
  entry.expiresAtMs.any fun deadline => deadline ≤ nowMs

abbrev Table := Finmap fun _ : Bytes => Entry

abbrev Effects := AList fun _ : Bytes => Option Entry

/-- The iteration order a randomly seeded hash map gives its contents. -/
structure HashSeed where
  arrange : Effects → Effects
  perm : ∀ effects, (arrange effects).entries.Perm effects.entries

def HashSeed.insertionOrder : HashSeed := ⟨id, fun _ => .rfl⟩

structure Prepared where
  revision : Nat
  effects : Effects
  payloadAfter : Nat
  response : Reply

structure ShardStats where
  keys : Nat
  payloadBytes : Nat
  expiringKeys : Nat
  expiredKeys : Nat
  appliedCommands : Nat
  maxKeys : Nat
  maxPayloadBytes : Nat

structure Shard where
  entries : Table
  expiry : ExpiryIndex
  limits : ShardLimits
  payloadBytes : Nat
  revision : Nat
  expiredKeys : Nat
  appliedCommands : Nat

namespace Shard

def new (limits : ShardLimits) : Except EngineError Shard :=
  if limits.maxKeys = 0 ∨ limits.maxPayloadBytes = 0 ∨ limits.maxReplyBytes < 64 then
    .error .invalidLimits
  else
    .ok { entries := ∅, expiry := .empty, limits, payloadBytes := 0, revision := 0
          expiredKeys := 0, appliedCommands := 0 }

def stats (shard : Shard) : ShardStats :=
  { keys := shard.entries.size
    payloadBytes := shard.payloadBytes
    expiringKeys := shard.expiry.len
    expiredKeys := shard.expiredKeys
    appliedCommands := shard.appliedCommands
    maxKeys := shard.limits.maxKeys
    maxPayloadBytes := shard.limits.maxPayloadBytes }

/-- Reads a live entry; a due one is recorded as a removal and reported absent. -/
def observe (shard : Shard) (key : Bytes) (nowMs : I64) (effects : Effects) :
    Option Entry × Effects :=
  match shard.entries.lookup key with
  | none => (none, effects)
  | some entry =>
      if entry.due nowMs then (none, effects.insert key none) else (some entry, effects)

def observeAll (shard : Shard) (nowMs : I64) : List Bytes → Effects → List (Option Entry) × Effects
  | [], effects => ([], effects)
  | key :: keys, effects =>
      let (old, effects) := shard.observe key nowMs effects
      let (rest, effects) := shard.observeAll nowMs keys effects
      (old :: rest, effects)

def deleteAll (shard : Shard) (nowMs : I64) : List Bytes → Nat → Effects → Nat × Effects
  | [], removed, effects => (removed, effects)
  | key :: keys, removed, effects =>
      if key ∈ effects then
        shard.deleteAll nowMs keys removed effects
      else
        let (old, effects) := shard.observe key nowMs effects
        shard.deleteAll nowMs keys (if old.isSome then removed + 1 else removed)
          (effects.insert key none)

def assignAll : List (Bytes × Bytes) → Effects → Effects
  | [], effects => effects
  | (key, value) :: pairs, effects => assignAll pairs (effects.insert key (some ⟨value, none⟩))

def bulkOf (old : Option Entry) : Reply := .bulk (old.map Entry.value)

/-- The deadline an assignment stores, given the live entry it replaces. -/
def assignedDeadline (old : Option Entry) (nowMs : I64) : Expiry → Except EngineError (Option I64)
  | .clear => .ok none
  | .keep => .ok (old.bind Entry.expiresAtMs)
  | .afterMilliseconds duration =>
      match (nowMs.checkedAdd duration).filter fun _ => 0 < duration with
      | some deadline => .ok (some deadline)
      | none => .error .setExpireTime

/-- `DECRBY`'s minimum argument has no positive counterpart and is refused before the table is
looked at. -/
def incremented (old : Option Entry) (amount : I64) (subtract : Bool) : Except EngineError I64 :=
  match old with
  | none => add 0
  | some entry =>
      match integer entry.value with
      | none => .error .notInteger
      | some current => add current
where
  add (current : I64) : Except EngineError I64 :=
    match if subtract then current.checkedSub amount else current.checkedAdd amount with
    | none => .error .overflow
    | some next => .ok next

def remainingTtl (nowMs : I64) (milliseconds : Bool) : Option Entry → Int
  | none => -2
  | some ⟨_, none⟩ => -1
  | some ⟨_, some deadline⟩ =>
      let remaining := (deadline.saturatingSub nowMs).val
      if milliseconds then remaining
      else remaining.tdiv 1000 + if 500 ≤ remaining.tmod 1000 then 1 else 0

/-- The `match` of `prepare`: the reply of an operation and the effects it asks for. -/
def evaluate (shard : Shard) (operation : Operation) (nowMs : I64) :
    Except EngineError (Reply × Effects) :=
  match operation with
  | .get key =>
      let (old, effects) := shard.observe key nowMs ∅
      .ok (bulkOf old, effects)
  | .set key value condition expiry => do
      let (old, effects) := shard.observe key nowMs ∅
      let deadline ← assignedDeadline old nowMs expiry
      if (condition = .ifAbsent ∧ old.isSome) ∨ (condition = .ifPresent ∧ old.isNone) then
        return (.bulk none, effects)
      else
        return (.ok, effects.insert key (some ⟨value, deadline⟩))
  | .increment key amount subtract =>
      if subtract ∧ amount = .minValue then
        .error .overflow
      else do
        let (old, effects) := shard.observe key nowMs ∅
        let next ← incremented old amount subtract
        let expiresAtMs := old.bind Entry.expiresAtMs
        return (.integer next, effects.insert key (some ⟨next.toBytes, expiresAtMs⟩))
  | .delete keys =>
      let (removed, effects) := shard.deleteAll nowMs keys 0 ∅
      .ok (.count removed, effects)
  | .exists keys =>
      let (olds, effects) := shard.observeAll nowMs keys ∅
      .ok (.count (olds.filter Option.isSome).length, effects)
  | .multiGet keys =>
      let (olds, effects) := shard.observeAll nowMs keys ∅
      .ok (.array (olds.map bulkOf), effects)
  | .multiSet pairs => .ok (.ok, assignAll pairs ∅)
  | .expire key milliseconds =>
      match shard.observe key nowMs ∅ with
      | (none, effects) => .ok (.count 0, effects)
      | (some old, effects) =>
          if milliseconds ≤ 0 then
            .ok (.count 1, effects.insert key none)
          else
            match nowMs.checkedAdd milliseconds with
            | none => .error .expireExpireTime
            | some deadline =>
                .ok (.count 1, effects.insert key (some { old with expiresAtMs := some deadline }))
  | .ttl key milliseconds =>
      let (old, effects) := shard.observe key nowMs ∅
      .ok (.integer (I64.wrap (remainingTtl nowMs milliseconds old)), effects)
  | .persist key =>
      match shard.observe key nowMs ∅ with
      | (none, effects) => .ok (.count 0, effects)
      | (some old, effects) =>
          if old.expiresAtMs.isSome then
            .ok (.count 1, effects.insert key (some { old with expiresAtMs := none }))
          else
            .ok (.count 0, effects)

def entryBytes (key : Bytes) (entry : Entry) : Nat := key.length + entry.value.length

/-- One round of the `preflight` loop, in `i128` arithmetic. -/
def account (entries : Table) (totals : Int × Int) (effect : Sigma fun _ : Bytes => Option Entry) :
    Int × Int :=
  let (keys, payload) := totals
  let (keys, payload) :=
    match entries.lookup effect.1 with
    | some old => (keys - 1, payload - entryBytes effect.1 old)
    | none => (keys, payload)
  match effect.2 with
  | some next => (keys + 1, payload + entryBytes effect.1 next)
  | none => (keys, payload)

def preflight (shard : Shard) (seed : HashSeed) (effects : Effects) (response : Reply) :
    Except Panic (Except EngineError Prepared) :=
  if response.exceeds shard.limits.maxReplyBytes then
    .ok (.error .responseLimit)
  else
    let effects := seed.arrange effects
    let (keys, payload) :=
      effects.entries.foldl (account shard.entries) (shard.entries.size, shard.payloadBytes)
    if (shard.limits.maxKeys : Int) < keys ∨ (shard.limits.maxPayloadBytes : Int) < payload then
      .ok (.error .budget)
    else if payload < 0 then
      .error .negativePayload
    else
      .ok (.ok { revision := shard.revision, effects, payloadAfter := payload.toNat, response })

def prepare (shard : Shard) (seed : HashSeed) (operation : Operation) (nowMs : I64) :
    Except Panic (Except EngineError Prepared) :=
  match shard.evaluate operation nowMs with
  | .error failure => .ok (.error failure)
  | .ok (response, effects) => shard.preflight seed effects response

/-! ### Applying

Each effect updates the timers first and the table second. -/

def applyTimer (shard : Shard) (key : Bytes) (entry : Option Entry) : Except Panic Shard := do
  let expiry ←
    match entry.bind Entry.expiresAtMs with
    | some deadline => shard.expiry.set key deadline
    | none => shard.expiry.remove key
  return { shard with expiry }

def applyTable (shard : Shard) (key : Bytes) (entry : Option Entry) : Shard :=
  { shard with entries := shard.entries.update key entry }

def applyEffects : Shard → List (Sigma fun _ : Bytes => Option Entry) → Except Panic Shard
  | shard, [] => .ok shard
  | shard, ⟨key, entry⟩ :: effects => do
      let timed ← shard.applyTimer key entry
      (timed.applyTable key entry).applyEffects effects

def nextRevision (shard : Shard) : Except Panic Nat :=
  if shard.revision < usizeMax then .ok (shard.revision + 1) else .error .revisionExhausted

def apply (shard : Shard) (prepared : Prepared) : Except Panic (Shard × Reply) :=
  if shard.revision ≠ prepared.revision then
    .error .stalePrepared
  else do
    let shard ← shard.applyEffects prepared.effects.entries
    let revision ← shard.nextRevision
    return ({ shard with
      payloadBytes := prepared.payloadAfter
      revision
      appliedCommands := saturate (shard.appliedCommands + 1) }, prepared.response)

def execute (shard : Shard) (seed : HashSeed) (operation : Operation) (nowMs : I64) :
    Except Panic (Shard × Except EngineError Reply) := do
  match ← shard.prepare seed operation nowMs with
  | .error failure => return (shard, .error failure)
  | .ok prepared =>
      let (shard, reply) ← shard.apply prepared
      return (shard, .ok reply)

/-! ### Active expiration -/

/-- The body of the `expire_due` loop for the key at the heap's root. -/
def expireKey (shard : Shard) (key : Bytes) (nowMs : I64) : Except Panic Shard := do
  let expiry ← shard.expiry.remove key
  match shard.entries.lookup key with
  | none => .error .timerWithoutEntry
  | some entry =>
      if entry.due nowMs then
        if shard.payloadBytes < entryBytes key entry then
          .error .payloadUnderflow
        else do
          let revision ← shard.nextRevision
          return { shard with
            expiry
            entries := shard.entries.erase key
            payloadBytes := shard.payloadBytes - entryBytes key entry
            expiredKeys := saturate (shard.expiredKeys + 1)
            revision }
      else
        .error .deadlineAssertion

/-- Removes due entries, at most `budget` of them, and counts the removals. -/
def expireDue (shard : Shard) (nowMs : I64) : (budget : Nat) → Except Panic (Shard × Nat)
  | 0 => .ok (shard, 0)
  | budget + 1 =>
      match shard.expiry.expired nowMs with
      | none => .ok (shard, 0)
      | some key => do
          let shard ← shard.expireKey key nowMs
          let (shard, removed) ← shard.expireDue nowMs budget
          return (shard, removed + 1)

end Shard

end Recall
