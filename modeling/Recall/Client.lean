import Recall.Reply
import Recall.Operation

/-!
# The client of the network tests

`frame` spells a request and `readReply` takes a reply off the front of what the server sent. What
the server sent is a byte string, and behind its last byte the socket is closed.
-/

namespace Recall.Client

inductive Failure where
  | unexpectedEof
  | invalidData (message : String)
deriving DecidableEq

def invalid (message : String) : Failure := .invalidData message

def frame (arguments : List Bytes) : Bytes :=
  [42] ++ Decimal.ofNat arguments.length ++ Reply.crlf ++
    arguments.flatMap fun argument =>
      [36] ++ Decimal.ofNat argument.length ++ Reply.crlf ++ argument ++ Reply.crlf

/-! ### Reading -/

def readU8 : Bytes → Except Failure (UInt8 × Bytes)
  | [] => .error .unexpectedEof
  | byte :: stream => .ok (byte, stream)

def readExact (count : Nat) (stream : Bytes) : Except Failure (Bytes × Bytes) :=
  if stream.length < count then .error .unexpectedEof
  else .ok (stream.take count, stream.drop count)

/-- The rest of a header line behind what was read of it. -/
def readLine (line : Bytes) : Bytes → Except Failure (Bytes × Bytes)
  | [] => .error .unexpectedEof
  | byte :: stream =>
      if byte = 13 then do
        let (ending, stream) ← readU8 stream
        if ending ≠ 10 then .error (invalid "invalid reply CRLF") else .ok (line, stream)
      else if 4096 ≤ line.length then
        .error (invalid "reply header too long")
      else
        readLine (line ++ [byte]) stream

def number (line : Bytes) : Except Failure I64 :=
  match parseI64 line with
  | some n => .ok n
  | none => .error (invalid "invalid numeric reply header")

def readBulk (length : Int) (stream : Bytes) : Except Failure (Reply × Bytes) :=
  if length = -1 then .ok (.bulk none, stream)
  else if length < 0 ∨ 64 * 1024 * 1024 < length then
    .error (invalid "invalid bulk reply length")
  else do
    let (payload, stream) ← readExact length.toNat stream
    let (ending, stream) ← readExact 2 stream
    if ending ≠ Reply.crlf then .error (invalid "invalid bulk reply ending")
    else .ok (.bulk (some payload), stream)

section Nested

variable (read : Bytes → Except Failure (Reply × Bytes))

/-- `count` replies, each taken off the front with `read`. -/
def readReplies : Nat → Bytes → Except Failure (List Reply × Bytes)
  | 0, stream => .ok ([], stream)
  | count + 1, stream => do
      let (value, stream) ← read stream
      let (values, stream) ← readReplies count stream
      return (value :: values, stream)

def readArray (count : Int) (stream : Bytes) : Except Failure (Reply × Bytes) :=
  if count < 0 ∨ 4096 < count then .error (invalid "invalid array reply length")
  else do
    let (values, stream) ← readReplies read count.toNat stream
    return (.array values, stream)

def readBody (tag : UInt8) (line stream : Bytes) : Except Failure (Reply × Bytes) :=
  if tag = 43 then .ok (.simple line, stream)
  else if tag = 45 then .ok (.error line, stream)
  else if tag = 58 then do
    let value ← number line
    return (.integer value, stream)
  else if tag = 36 then do
    let length ← number line
    readBulk length.val stream
  else if tag = 42 then do
    let count ← number line
    readArray read count.val stream
  else
    .error (invalid "unknown reply prefix")

/-- A reply whose elements are taken off with `read`. -/
def readWith (stream : Bytes) : Except Failure (Reply × Bytes) := do
  let (tag, stream) ← readU8 stream
  let (line, stream) ← readLine [] stream
  readBody read tag line stream

end Nested

/-- Replies nested at most `depth` deep. -/
def readNested : Nat → Bytes → Except Failure (Reply × Bytes)
  | 0, _ => .error .unexpectedEof
  | depth + 1, stream => readWith (readNested depth) stream

/-- Every level of nesting takes bytes off the stream, so there are no more levels than bytes. -/
def readReply (stream : Bytes) : Except Failure (Reply × Bytes) := readNested stream.length stream

end Recall.Client
