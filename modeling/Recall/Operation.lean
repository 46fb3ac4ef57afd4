import Recall.Reply

/-!
# Data operations

The keyspace operations of `recall-core` and the canonical integers they read and write.
-/

namespace Recall

inductive Condition where
  | always
  | ifAbsent
  | ifPresent
deriving DecidableEq

inductive Expiry where
  | clear
  | keep
  | afterMilliseconds (duration : I64)
deriving DecidableEq

inductive Operation where
  | get (key : Bytes)
  | set (key value : Bytes) (condition : Condition) (expiry : Expiry)
  | increment (key : Bytes) (amount : I64) (subtract : Bool)
  | delete (keys : List Bytes)
  | exists (keys : List Bytes)
  | multiGet (keys : List Bytes)
  | multiSet (pairs : List (Bytes × Bytes))
  | expire (key : Bytes) (milliseconds : I64)
  | ttl (key : Bytes) (milliseconds : Bool)
  | persist (key : Bytes)
deriving DecidableEq

namespace Operation

def keys : Operation → List Bytes
  | get key | persist key | set key _ _ _ | increment key _ _ | expire key _ | ttl key _ => [key]
  | delete keys | .exists keys | multiGet keys => keys
  | multiSet pairs => pairs.map Prod.fst

def payloadBytes : Operation → Nat
  | set key value _ _ => key.length + value.length
  | multiSet pairs => (pairs.map fun pair => pair.1.length + pair.2.length).sum
  | operation => (operation.keys.map List.length).sum

end Operation

/-! ### Canonical integers

`str::parse::<i64>` accepts an optional sign followed by at least one digit and fails outside the
range. A byte string that is not UTF-8 holds a byte that is neither a sign nor a digit, so the UTF-8
check in front of it rejects nothing more. -/

def parseDigits (digits : Bytes) : Option Nat :=
  if digits ≠ [] ∧ digits.all Decimal.isDigit then some (Decimal.value digits) else none

def parseI64 : Bytes → Option I64
  | 45 :: digits => (parseDigits digits).bind fun n => I64.ofInt? (-(n : Int))
  | 43 :: digits => (parseDigits digits).bind fun n => I64.ofInt? n
  | digits => (parseDigits digits).bind fun n => I64.ofInt? n

def I64.toBytes (n : I64) : Bytes := Decimal.ofInt n.val

/-- Only the spelling that formatting the parsed value gives back is accepted. -/
def integer (value : Bytes) : Option I64 :=
  if value = [] ∨ 20 < value.length then none
  else (parseI64 value).filter fun parsed => parsed.toBytes = value

end Recall
