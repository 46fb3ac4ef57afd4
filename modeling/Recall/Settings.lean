import Recall.Basic
import Recall.Lib.Trimming
import Mathlib.Data.Finmap
import Mathlib.Algebra.GroupWithZero.Nat

/-!
# Environment files

`parse_values` of the server's settings: a file of `NAME=value` lines, read as data. A text is the
list of its characters; lengths are in UTF-8 bytes. The values are never iterated here, so the
ordered map they are kept in is a finite map.
-/

namespace Recall.Settings

abbrev Text := List Char

abbrev Values := Finmap fun _ : Text => Text

def maxEnvLineBytes : Nat := 2048

def envNames : List Text :=
  ["RECALL_BIND".toList,
    "RECALL_WORKERS".toList,
    "RECALL_IO_THREADS".toList,
    "RECALL_MAX_MEMORY_MIB".toList,
    "RECALL_KEYS_PER_WORKER".toList,
    "RECALL_MAX_CONNECTIONS".toList,
    "RECALL_QUEUE_BYTES_MIB".toList,
    "RECALL_PASSWORD".toList]

/-- An error names the line it is about, never its contents. -/
inductive SettingsError where
  | invalid (line : Nat)
  | duplicate (line : Nat)
deriving DecidableEq

def SettingsError.message : SettingsError → String
  | .invalid line => "invalid environment assignment at line " ++ toString line
  | .duplicate line => "duplicate environment assignment at line " ++ toString line

/-! ### Strings -/

/-- `char::is_whitespace`, the Unicode property `White_Space`. -/
def isWhitespace (c : Char) : Bool :=
  let n := c.toNat
  (9 ≤ n && n ≤ 13) || n == 0x20 || n == 0x85 || n == 0xA0 || n == 0x1680 ||
    (0x2000 ≤ n && n ≤ 0x200A) || n == 0x2028 || n == 0x2029 || n == 0x202F || n == 0x205F ||
    n == 0x3000

def byteOrderMark : Char := Char.ofNat 0xFEFF

def utf8Len (text : Text) : Nat := (text.map Char.utf8Size).sum

def trim (text : Text) : Text := Trimming.trim isWhitespace text

def stripCarriageReturn (line : Text) : Text :=
  if line.getLast? = some '\r' then line.dropLast else line

/-- `lines` on the pieces between newlines. Behind the last newline a piece is a line only if it is
not empty, and a carriage return at its end is no line ending. -/
def linesOf : List Text → List Text
  | [] => []
  | [last] => if last = [] then [] else [last]
  | line :: lines => stripCarriageReturn line :: linesOf lines

def lines (text : Text) : List Text := linesOf (text.splitOn '\n')

/-! ### Parsing -/

def validateName (key : Text) : Bool := envNames.contains key

/-- A value in quotes ends with the same quote, which is one byte long as the first is. -/
def unquote (rawValue : Text) : Option Text :=
  if rawValue.head? = some '\'' ∨ rawValue.head? = some '"' then
    if utf8Len rawValue < 2 ∨ rawValue.getLast? ≠ rawValue.head? then none
    else some (rawValue.drop 1).dropLast
  else
    some rawValue

/-- A line without its surrounding whitespace: nothing, or a name and a value. -/
def parseTrimmed (invalid : SettingsError) (line : Text) :
    Except SettingsError (Option (Text × Text)) :=
  if line = [] ∨ line.head? = some '#' then
    .ok none
  else
    match Trimming.splitOnce '=' line with
    | none => .error invalid
    | some (key, rawValue) =>
        if validateName (trim key) then
          match unquote (trim rawValue) with
          | none => .error invalid
          | some value => .ok (some (trim key, value))
        else
          .error invalid

def parseLine (index : Nat) (line : Text) : Except SettingsError (Option (Text × Text)) :=
  if maxEnvLineBytes < utf8Len line ∨ '\x00' ∈ line then .error (.invalid (index + 1))
  else parseTrimmed (.invalid (index + 1)) (trim line)

def parseFrom (index : Nat) (values : Values) : List Text → Except SettingsError Values
  | [] => .ok values
  | line :: lines => do
      match ← parseLine index line with
      | none => parseFrom (index + 1) values lines
      | some (key, value) =>
          if key ∈ values then .error (.duplicate (index + 1))
          else parseFrom (index + 1) (values.insert key value) lines

def parseValues (text : Text) : Except SettingsError Values :=
  parseFrom 0 ∅ (lines (text.dropWhile (· = byteOrderMark)))

end Recall.Settings
