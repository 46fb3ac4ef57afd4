import Recall.Basic
import Recall.Lib.Decimal

/-!
# Replies and their wire length

The RESP2 reply type of `recall-protocol` with its encoder and the length computation every output
budget trusts.
-/

namespace Recall

inductive Reply where
  | simple (value : Bytes)
  | error (value : Bytes)
  | integer (value : I64)
  | bulk (value : Option Bytes)
  | array (values : List Reply)

namespace Reply

mutual

def decEq : (a b : Reply) → Decidable (a = b)
  | .simple a, .simple b => decidable_of_iff (a = b) (by simp)
  | .error a, .error b => decidable_of_iff (a = b) (by simp)
  | .integer a, .integer b => decidable_of_iff (a = b) (by simp)
  | .bulk a, .bulk b => decidable_of_iff (a = b) (by simp)
  | .array a, .array b =>
      match decEqList a b with
      | isTrue h => isTrue (by rw [h])
      | isFalse h => isFalse (by simpa using h)
  | .simple _, .error _ | .simple _, .integer _ | .simple _, .bulk _ | .simple _, .array _
  | .error _, .simple _ | .error _, .integer _ | .error _, .bulk _ | .error _, .array _
  | .integer _, .simple _ | .integer _, .error _ | .integer _, .bulk _ | .integer _, .array _
  | .bulk _, .simple _ | .bulk _, .error _ | .bulk _, .integer _ | .bulk _, .array _
  | .array _, .simple _ | .array _, .error _ | .array _, .integer _ | .array _, .bulk _ =>
      isFalse (by simp)

def decEqList : (a b : List Reply) → Decidable (a = b)
  | [], [] => isTrue rfl
  | [], _ :: _ | _ :: _, [] => isFalse (by simp)
  | a :: as, b :: bs =>
      match decEq a b, decEqList as bs with
      | isTrue h, isTrue hs => isTrue (by rw [h, hs])
      | isFalse h, _ => isFalse (by simp [h])
      | _, isFalse hs => isFalse (by simp [hs])

end

instance : DecidableEq Reply := decEq

def ok : Reply := .simple (ascii "OK")

/-- `Reply::error` of a server message. -/
def errorText (message : String) : Reply := .error (ascii message)

/-- `Reply::Integer(n as i64)`. -/
def count (n : Nat) : Reply := .integer (I64.wrap n)

end Reply

/-- `decimal_digits`: divides until one digit is left. -/
def decimalDigits (value : Nat) : Nat :=
  if value < 10 then 1 else decimalDigits (value / 10) + 1
termination_by value

namespace Reply

mutual

/-- The length of the encoding, `none` when it does not fit a `usize`. -/
def encodedLen : Reply → Option Nat
  | .simple value => usizeCheckedAdd value.length 3
  | .error value => usizeCheckedAdd value.length 3
  | .integer value =>
      usizeCheckedAdd (decimalDigits value.val.natAbs) (3 + if value.val < 0 then 1 else 0)
  | .bulk none => some 5
  | .bulk (some value) =>
      (usizeCheckedAdd (decimalDigits value.length) 5).bind fun header =>
        usizeCheckedAdd header value.length
  | .array values =>
      (usizeCheckedAdd (decimalDigits values.length) 3).bind fun header =>
        encodedLenFrom header values

/-- `try_fold` of the elements' lengths onto a running total. -/
def encodedLenFrom (total : Nat) : List Reply → Option Nat
  | [] => some total
  | value :: values =>
      (encodedLen value).bind fun length =>
        (usizeCheckedAdd total length).bind fun total => encodedLenFrom total values

end

def crlf : Bytes := [13, 10]

mutual

/-- Appends the RESP2 form to the output buffer. -/
def encode (output : Bytes) : Reply → Bytes
  | .simple value => output ++ [43] ++ value ++ crlf
  | .error value => output ++ [45] ++ value ++ crlf
  | .integer value => output ++ [58] ++ Decimal.ofInt value.val ++ crlf
  | .bulk none => output ++ ascii "$-1\r\n"
  | .bulk (some value) =>
      output ++ [36] ++ Decimal.ofNat value.length ++ crlf ++ value ++ crlf
  | .array values => encodeAll (output ++ [42] ++ Decimal.ofNat values.length ++ crlf) values

def encodeAll (output : Bytes) : List Reply → Bytes
  | [] => output
  | value :: values => encodeAll (encode output value) values

end

/-- `encoded_len().is_none_or(|bytes| bytes > limit)`, the output budget test. -/
def exceeds (reply : Reply) (limit : Nat) : Bool :=
  match reply.encodedLen with
  | none => true
  | some bytes => decide (limit < bytes)

end Reply

end Recall
