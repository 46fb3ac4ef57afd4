import Recall.Store
import Mathlib.Data.List.FinRange
import Mathlib.Logic.Function.Basic

/-!
# Routing, splitting and combining

How the engine spreads an operation over its owners: the destination `EngineHandle::execute` picks,
the parts of a cross-owner operation, the reply they combine to, and the outcome of one command when
nothing else runs. The hash that routes keys is an arbitrary function to the owners.
-/

namespace Recall

/-- The reasons the engine stops the process. -/
inductive Fatal where
  | panic (panic : Panic)
  | singleKeyOperation
  | invalidMultiGetResponse
  | positionsLength
  | positionRange
  | invalidIntegerResponse
  | invalidCoordinatedOperation
  | duplicateReservation
  | prepareWithoutReservation
  | applyWithoutReservation
  | releaseWithoutReservation
  | reservationIdentity
  | alreadyPrepared
  | applyWithoutPreparation
  | stopWhileReserved
  | controlClosedWhileReserved
  | lostControlChannel
  | lostControlCompletion
  | lostPrepareCompletion
  | lostCompletion
  | identityExhausted
  | coordinatorStopped
  | ownerStopped
deriving DecidableEq

/-- A panic on an owner or coordinator thread ends the process. -/
def abortOnPanic {α : Type} : Except Panic α → Except Fatal α
  | .ok a => .ok a
  | .error panic => .error (.panic panic)

variable {n : Nat}

structure Part (n : Nat) where
  owner : Fin n
  operation : Operation
  positions : List Nat

/-! ### Splitting

The `BTreeMap` of groups: `entry(owner).or_default().push(item)` for each item in turn, then the
nonempty groups by ascending owner. -/

def groups {α : Type} (owner : α → Fin n) (items : List α) : Fin n → List α :=
  items.foldl (fun groups item =>
    Function.update groups (owner item) (groups (owner item) ++ [item])) fun _ => []

def grouped {α : Type} (owner : α → Fin n) (items : List α) : List (Fin n × List α) :=
  ((List.finRange n).map fun o => (o, groups owner items o)).filter fun group =>
    !group.2.isEmpty

def splitKeys (route : Bytes → Fin n) (make : List Bytes → Operation) (keys : List Bytes) :
    List (Part n) :=
  (grouped (fun item => route item.1) keys.zipIdx).map fun group =>
    { owner := group.1
      operation := make (group.2.map Prod.fst)
      positions := group.2.map Prod.snd }

def split (route : Bytes → Fin n) : Operation → Except Fatal (List (Part n))
  | .multiSet pairs =>
      .ok ((grouped (fun pair => route pair.1) pairs).map fun group =>
        { owner := group.1, operation := .multiSet group.2, positions := [] })
  | .delete keys => .ok (splitKeys route .delete keys)
  | .exists keys => .ok (splitKeys route .exists keys)
  | .multiGet keys => .ok (splitKeys route .multiGet keys)
  | _ => .error .singleKeyOperation

/-! ### Combining -/

def scatter (response : List Reply) : List Nat → List Reply → Except Fatal (List Reply)
  | position :: positions, value :: values =>
      if position < response.length then
        scatter (response.set position value) positions values
      else
        .error .positionRange
  | _, _ => .ok response

def scatterParts (response : List Reply) : List (Part n × Reply) → Except Fatal (List Reply)
  | [] => .ok response
  | (part, .array values) :: rest =>
      if part.positions.length = values.length then do
        let response ← scatter response part.positions values
        scatterParts response rest
      else
        .error .positionsLength
  | _ :: _ => .error .invalidMultiGetResponse

def sumIntegers : List Reply → Except Fatal Int
  | [] => .ok 0
  | .integer value :: rest => do
      let total ← sumIntegers rest
      return value.val + total
  | _ :: _ => .error .invalidIntegerResponse

def combine (operation : Operation) (parts : List (Part n)) (results : List Reply) :
    Except Fatal Reply :=
  match operation with
  | .multiSet _ => .ok .ok
  | .multiGet keys => do
      let response ← scatterParts (List.replicate keys.length (.bulk none)) (parts.zip results)
      return .array response
  | .delete _ | .exists _ => do
      let total ← sumIntegers results
      return .integer (I64.wrap total)
  | _ => .error .invalidCoordinatedOperation

/-! ### One command at a time -/

/-- Where `EngineHandle::execute` sends an operation. -/
inductive Destination (n : Nat) where
  | nowhere
  | owner (owner : Fin n)
  | cross
deriving DecidableEq

def destination (route : Bytes → Fin n) (operation : Operation) : Destination n :=
  match operation.keys with
  | [] => .nowhere
  | first :: keys =>
      if (first :: keys).all fun key => route key = route first then .owner (route first)
      else .cross

/-- `execute_local`: errors become replies. -/
def executeLocal (shard : Shard) (seed : HashSeed) (operation : Operation) (nowMs : I64) :
    Except Fatal (Shard × Reply) := do
  match ← abortOnPanic (shard.execute seed operation nowMs) with
  | (shard, .ok reply) => return (shard, reply)
  | (shard, .error failure) => return (shard, failure.reply)

abbrev Shards (n : Nat) := Fin n → Shard

/-- Prepares the parts in order and stops at the first error. -/
def prepareParts (shards : Shards n) (seeds : Fin n → HashSeed) (nowMs : I64) :
    List (Part n) → Except Fatal (Except EngineError (List Prepared))
  | [] => .ok (.ok [])
  | part :: parts => do
      match ← abortOnPanic
          ((shards part.owner).prepare (seeds part.owner) part.operation nowMs) with
      | .error failure => return .error failure
      | .ok prepared =>
          match ← prepareParts shards seeds nowMs parts with
          | .error failure => return .error failure
          | .ok rest => return .ok (prepared :: rest)

def applyParts (shards : Shards n) : List (Part n × Prepared) → Except Fatal (Shards n)
  | [] => .ok shards
  | (part, prepared) :: rest => do
      let (shard, _) ← abortOnPanic ((shards part.owner).apply prepared)
      applyParts (Function.update shards part.owner shard) rest

/-- `coordinate` with every participant at rest. -/
def executeCross (route : Bytes → Fin n) (maxReplyBytes : Nat) (shards : Shards n)
    (seeds : Fin n → HashSeed) (operation : Operation) (nowMs : I64) :
    Except Fatal (Shards n × Reply) := do
  let parts ← split route operation
  match ← prepareParts shards seeds nowMs parts with
  | .error failure => return (shards, failure.reply)
  | .ok prepared =>
      let reply ← combine operation parts (prepared.map Prepared.response)
      if reply.exceeds maxReplyBytes then
        return (shards, EngineError.responseLimit.reply)
      else
        let shards ← applyParts shards (parts.zip prepared)
        return (shards, reply)

/-- The outcome of one command that runs alone. -/
def executeSharded (route : Bytes → Fin n) (maxReplyBytes : Nat) (shards : Shards n)
    (seeds : Fin n → HashSeed) (operation : Operation) (nowMs : I64) :
    Except Fatal (Shards n × Reply) :=
  match destination route operation with
  | .nowhere => .ok (shards, .errorText "ERR empty key set")
  | .owner owner => do
      let (shard, reply) ← executeLocal (shards owner) (seeds owner) operation nowMs
      return (Function.update shards owner shard, reply)
  | .cross => executeCross route maxReplyBytes shards seeds operation nowMs

end Recall
