import Recall.Settings
import Recall.Config
import Mathlib.Data.Char
import Mathlib.Data.List.Lex
import Mathlib.Data.Finset.Sort

/-!
# Startup settings

`settings::load`: the command line, the process environment and an environment file are read into
values by name, laid over each other and turned into a configuration. The environment is the list of
its variables as bytes; opening a file is a choice of the system. A failure is the text it prints.
-/

namespace Recall.Settings

/-! ### Socket addresses

`SocketAddr::from_str`. Every reader fails or returns what it read and the rest of the text. -/

def readGivenChar (target : Char) : Text → Option Text
  | [] => none
  | c :: rest => if c = target then some rest else none

/-- `char::to_digit`, for the radices 10 and 16. -/
def toDigit (radix : Nat) (c : Char) : Option Nat :=
  let digit :=
    if '0' ≤ c ∧ c ≤ '9' then some (c.toNat - 48)
    else if 'a' ≤ c ∧ c ≤ 'f' then some (c.toNat - 87)
    else if 'A' ≤ c ∧ c ≤ 'F' then some (c.toNat - 55)
    else none
  digit.filter (· < radix)

def readDigits (radix : Nat) : Text → List Nat × Text
  | [] => ([], [])
  | c :: text =>
      match toDigit radix c with
      | none => ([], c :: text)
      | some digit =>
          let (digits, rest) := readDigits radix text
          (digit :: digits, rest)

/-- A number of at most `maxDigits` digits that fits its type. -/
def readNumber (radix : Nat) (maxDigits : Option Nat) (allowZeroPrefix : Bool) (maximum : Nat)
    (text : Text) : Option (Nat × Text) :=
  let (digits, rest) := readDigits radix text
  let value := digits.foldl (fun total digit => total * radix + digit) 0
  if digits = [] ∨ (∃ limit ∈ maxDigits, limit < digits.length) ∨
      (allowZeroPrefix = false ∧ text.head? = some '0' ∧ 1 < digits.length) ∨ maximum < value then
    none
  else
    some (value, rest)

abbrev Octets := Nat × Nat × Nat × Nat

def readIpv4Addr (text : Text) : Option (Octets × Text) := do
  let (a, rest) ← readNumber 10 (some 3) false 255 text
  let (b, rest) ← readGivenChar '.' rest >>= readNumber 10 (some 3) false 255
  let (c, rest) ← readGivenChar '.' rest >>= readNumber 10 (some 3) false 255
  let (d, rest) ← readGivenChar '.' rest >>= readNumber 10 (some 3) false 255
  some ((a, b, c, d), rest)

/-- `read_separator`: a colon stands before every group but the first. -/
def readSeparated {α : Type} (first : Bool) (inner : Text → Option (α × Text)) (text : Text) :
    Option (α × Text) :=
  if first then inner text else readGivenChar ':' text >>= inner

/-- Groups as long as there are any, and whether they end with an IPv4 address. -/
def readGroups (first : Bool) : Nat → Text → List Nat × Bool × Text
  | 0, text => ([], false, text)
  | remaining + 1, text =>
      match if 0 < remaining then readSeparated first readIpv4Addr text else none with
      | some ((a, b, c, d), rest) => ([a * 256 + b, c * 256 + d], true, rest)
      | none =>
          match readSeparated first (readNumber 16 (some 4) true 65535) text with
          | none => ([], false, text)
          | some (group, rest) =>
              let (groups, ipv4, rest) := readGroups false remaining rest
              (group :: groups, ipv4, rest)

def readIpv6Addr (text : Text) : Option (List Nat × Text) :=
  let (head, headIpv4, rest) := readGroups true 8 text
  if head.length = 8 then some (head, rest)
  else if headIpv4 then none
  else do
    let rest ← readGivenChar ':' rest >>= readGivenChar ':'
    let (tail, _, rest) := readGroups true (8 - (head.length + 1)) rest
    some (head ++ List.replicate (8 - head.length - tail.length) 0 ++ tail, rest)

inductive SocketAddr where
  | v4 (octets : Octets) (port : Nat)
  | v6 (segments : List Nat) (scopeId port : Nat)
deriving DecidableEq

def SocketAddr.isLoopback : SocketAddr → Bool
  | .v4 octets _ => octets.1 = 127
  | .v6 segments _ _ => segments = [0, 0, 0, 0, 0, 0, 0, 1]

def readPort (text : Text) : Option (Nat × Text) :=
  readGivenChar ':' text >>= readNumber 10 none true 65535

def readSocketAddrV4 (text : Text) : Option (SocketAddr × Text) := do
  let (octets, rest) ← readIpv4Addr text
  let (port, rest) ← readPort rest
  some (.v4 octets port, rest)

def readSocketAddrV6 (text : Text) : Option (SocketAddr × Text) := do
  let rest ← readGivenChar '[' text
  let (segments, rest) ← readIpv6Addr rest
  let (scopeId, rest) :=
    (readGivenChar '%' rest >>= readNumber 10 none true 4294967295).getD (0, rest)
  let rest ← readGivenChar ']' rest
  let (port, rest) ← readPort rest
  some (.v6 segments scopeId port, rest)

def parseSocketAddr (text : Text) : Option SocketAddr :=
  match (readSocketAddrV4 text).orElse fun _ => readSocketAddrV6 text with
  | some (address, []) => some address
  | _ => none

/-! ### Numbers -/

def isAsciiDigit (c : Char) : Bool := '0' ≤ c && c ≤ '9'

def decimalValue (value : Text) : Nat :=
  value.foldl (fun total c => total * 10 + (c.toNat - 48)) 0

def number (key value : Text) : Except Text Nat :=
  if value = [] ∨ ¬ value.all isAsciiDigit then
    .error (key ++ " requires a nonnegative decimal integer".toList)
  else if usizeMax < decimalValue value then
    .error (key ++ " is out of range".toList)
  else
    .ok (decimalValue value)

def mib (key value : Text) : Except Text Nat := do
  let count ← number key value
  match usizeCheckedMul count (1024 * 1024) with
  | some bytes => .ok bytes
  | none => .error (key ++ " is out of range".toList)

/-! ### UTF-8 -/

def decodeUtf8 (bytes : Bytes) : Option Text :=
  (ByteArray.mk bytes.toArray).utf8Decode?.map Array.toList

def encodeUtf8 (text : Text) : Bytes := text.flatMap String.utf8EncodeChar

/-! ### Sources -/

def unknownSetting : Text := "unknown Recall environment setting".toList

/-- The names `from_sources` matches on. -/
inductive Setting where
  | bind
  | workers
  | ioThreads
  | maxMemory
  | keysPerWorker
  | maxConnections
  | queueBytes
  | password
deriving DecidableEq

def Setting.name : Setting → Text
  | .bind => "RECALL_BIND".toList
  | .workers => "RECALL_WORKERS".toList
  | .ioThreads => "RECALL_IO_THREADS".toList
  | .maxMemory => "RECALL_MAX_MEMORY_MIB".toList
  | .keysPerWorker => "RECALL_KEYS_PER_WORKER".toList
  | .maxConnections => "RECALL_MAX_CONNECTIONS".toList
  | .queueBytes => "RECALL_QUEUE_BYTES_MIB".toList
  | .password => "RECALL_PASSWORD".toList

def Setting.named (key : Text) : Option Setting :=
  [.bind, .workers, .ioThreads, .maxMemory, .keysPerWorker, .maxConnections, .queueBytes,
    .password].find? fun setting => setting.name = key

/-- One entry of the merged sources. -/
def set (config : Config) (key value : Text) : Except Text Config :=
  match Setting.named key with
  | some .bind =>
      match parseSocketAddr value with
      | some bind => .ok { config with loopback := bind.isLoopback }
      | none => .error "RECALL_BIND requires an IP:port".toList
  | some .workers => do return { config with workers := ← number key value }
  | some .ioThreads => do return { config with ioThreads := ← number key value }
  | some .maxMemory => do return { config with maxPayloadBytes := ← mib key value }
  | some .keysPerWorker => do return { config with keysPerWorker := ← number key value }
  | some .maxConnections => do return { config with maxConnections := ← number key value }
  | some .queueBytes => do return { config with queueBytes := ← mib key value }
  | some .password => .ok { config with password := some (encodeUtf8 value) }
  | none => .error unknownSetting

/-- The entries of an ordered map. Strings are ordered by their bytes, which is the order of their
characters. -/
def entries (values : Values) : List (Text × Text) :=
  values.keys.sort.filterMap fun key => (values.lookup key).map fun value => (key, value)

def merge (file process arguments : Values) : Values := arguments ∪ (process ∪ file)

def fromSources (cpus : Nat) (file process arguments : Values) : Except Text Config := do
  let config ← (entries (merge file process arguments)).foldlM
    (fun config entry => set config entry.1 entry.2) (Config.default cpus)
  match config.validate with
  | .ok _ => .ok config
  | .error message => .error message.toList

/-! ### The command line -/

structure Options where
  envFile : Option Text
  explicitFile : Bool
  values : Values

/-- The options that take the value of a setting. -/
def settingOptions : List (Text × Text) :=
  [("--bind".toList, "RECALL_BIND".toList),
    ("--workers".toList, "RECALL_WORKERS".toList),
    ("--io-threads".toList, "RECALL_IO_THREADS".toList),
    ("--max-memory-mib".toList, "RECALL_MAX_MEMORY_MIB".toList),
    ("--keys-per-worker".toList, "RECALL_KEYS_PER_WORKER".toList),
    ("--max-connections".toList, "RECALL_MAX_CONNECTIONS".toList),
    ("--queue-bytes-mib".toList, "RECALL_QUEUE_BYTES_MIB".toList)]

def parseOptionsFrom (options : Options) (fileOptionSeen : Bool) :
    List Text → Except Text Options
  | [] => .ok options
  | option :: arguments =>
      if option = "--no-env-file".toList then
        if fileOptionSeen then .error "choose only one environment-file option".toList
        else parseOptionsFrom { options with envFile := none } true arguments
      else if option = "--env-file".toList then
        if fileOptionSeen then .error "choose only one environment-file option".toList
        else
          match arguments with
          | [] => .error "--env-file requires a path".toList
          | path :: arguments =>
              if path = [] then .error "--env-file requires a nonempty path".toList
              else
                parseOptionsFrom { options with envFile := some path, explicitFile := true } true
                  arguments
      else
        match settingOptions.lookup option with
        | none => .error "unknown option; use --help".toList
        | some name =>
            match arguments with
            | [] => .error ("missing value for ".toList ++ option)
            | value :: arguments =>
                if name ∈ options.values then .error ("duplicate option ".toList ++ option)
                else
                  parseOptionsFrom { options with values := options.values.insert name value }
                    fileOptionSeen arguments

def parseOptions (arguments : List Text) : Except Text Options :=
  parseOptionsFrom ⟨some ".env".toList, false, ∅⟩ false arguments

/-! ### The process environment -/

def readVariable (process : Values) (variable_ : Bytes × Bytes) : Except Text Values :=
  match decodeUtf8 variable_.1 with
  | none => .ok process
  | some key =>
      if ¬ "RECALL_".toList <+: key then .ok process
      else if ¬ validateName key then .error unknownSetting
      else
        match decodeUtf8 variable_.2 with
        | none => .error (key ++ " must be valid UTF-8".toList)
        | some value =>
            if maxEnvLineBytes < utf8Len value then
              .error (key ++ " exceeds the configuration value limit".toList)
            else
              .ok (process.insert key value)

def readEnvironment (environment : List (Bytes × Bytes)) : Except Text Values :=
  environment.foldlM readVariable ∅

/-! ### The environment file -/

/-- What opening a path gives: a file, with its kind and its bytes as far as they can be had, or a
kind of error with the text that describes it. -/
inductive Opened where
  | opened (isFile : Option Bool) (contents : Option Bytes)
  | notFound (kind : Text)
  | failed (kind : Text)

def maxEnvBytes : Nat := 16 * 1024

def readValues (contents : Option Bytes) : Except Text Values :=
  match contents.map (·.take (maxEnvBytes + 1)) with
  | none => .error "cannot read environment file".toList
  | some input =>
      if maxEnvBytes < input.length then .error "environment file exceeds 16 KiB".toList
      else
        match decodeUtf8 input with
        | none => .error "environment file must be UTF-8".toList
        | some text =>
            match parseValues text with
            | .ok values => .ok values
            | .error failure => .error failure.message.toList

def readFile (options : Options) (openFile : Text → Opened) : Except Text Values :=
  match options.envFile with
  | none => .ok ∅
  | some path =>
      match openFile path with
      | .opened none _ => .error "cannot inspect environment file".toList
      | .opened (some false) _ => .error "environment path must be a regular file".toList
      | .opened (some true) contents => readValues contents
      | .notFound kind =>
          if options.explicitFile then .error ("cannot read environment file: ".toList ++ kind)
          else .ok ∅
      | .failed kind => .error ("cannot read environment file: ".toList ++ kind)

def load (cpus : Nat) (arguments : List Text) (environment : List (Bytes × Bytes))
    (openFile : Text → Opened) : Except Text Config := do
  let options ← parseOptions arguments
  let process ← readEnvironment environment
  let file ← readFile options openFile
  fromSources cpus file process options.values

end Recall.Settings
