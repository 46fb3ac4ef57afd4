import Recall.Operation

/-!
# Commands

The command table of `recall-core`, the parser from argument vectors to commands, and the `COMMAND`
replies that describe the table.
-/

namespace Recall

structure ParseLimits where
  maxKeyBytes : Nat
  maxValueBytes : Nat
  maxClientMetadataBytes : Nat
deriving DecidableEq

def ParseLimits.default : ParseLimits where
  maxKeyBytes := 1024
  maxValueBytes := 512 * 1024
  maxClientMetadataBytes := 128

inductive CommandName where
  | ping | echo | quit | auth | hello | select | get | set | incr | incrby | decr | decrby | del
  | exists | mget | mset | expire | pexpire | ttl | pttl | persist | command | client | info
deriving DecidableEq

def CommandName.text : CommandName → String
  | .ping => "ping"
  | .echo => "echo"
  | .quit => "quit"
  | .auth => "auth"
  | .hello => "hello"
  | .select => "select"
  | .get => "get"
  | .set => "set"
  | .incr => "incr"
  | .incrby => "incrby"
  | .decr => "decr"
  | .decrby => "decrby"
  | .del => "del"
  | .exists => "exists"
  | .mget => "mget"
  | .mset => "mset"
  | .expire => "expire"
  | .pexpire => "pexpire"
  | .ttl => "ttl"
  | .pttl => "pttl"
  | .persist => "persist"
  | .command => "command"
  | .client => "client"
  | .info => "info"

inductive CommandError where
  | emptyCommand
  | unknownCommand
  | wrongArguments (name : CommandName)
  | syntaxError
  | notInteger
  | expireTime (name : CommandName)
  | keyLimit
  | valueLimit
  | clientName
  | setInfoAttribute
  | clientSubcommand
deriving DecidableEq

namespace CommandError

def message : CommandError → String
  | .emptyCommand => "ERR empty command"
  | .unknownCommand => "ERR unknown command"
  | .wrongArguments name => "ERR wrong number of arguments for '" ++ name.text ++ "' command"
  | .syntaxError => "ERR syntax error"
  | .notInteger => "ERR value is not an integer or out of range"
  | .expireTime name => "ERR invalid expire time in '" ++ name.text ++ "' command"
  | .keyLimit => "ERR key exceeds configured limit"
  | .valueLimit => "ERR value exceeds configured limit"
  | .clientName => "ERR Client names cannot contain spaces, newlines or special characters"
  | .setInfoAttribute => "ERR unsupported CLIENT SETINFO attribute"
  | .clientSubcommand => "ERR unsupported CLIENT subcommand or arguments"

def reply (failure : CommandError) : Reply := .errorText failure.message

end CommandError

inductive ClientCommand where
  | getName
  | setName (name : Bytes)
  | setInfo (libraryName : Bool) (value : Bytes)
deriving DecidableEq

inductive MetadataCommand where
  | all
  | count
  | info (names : List Bytes)
deriving DecidableEq

inductive Command where
  | data (operation : Operation)
  | ping (value : Option Bytes)
  | echo (value : Bytes)
  | quit
  | auth (username : Option Bytes) (password : Bytes)
  | hello (protocol : Option I64) (auth : Option (Bytes × Bytes)) (name : Option Bytes)
  | select (index : I64)
  | client (command : ClientCommand)
  | metadata (command : MetadataCommand)
  | info (section_ : Option Bytes)
deriving DecidableEq

/-! ### The command table -/

structure CommandSpec where
  name : CommandName
  arity : I64
  write : Bool
  firstKey : I64
  lastKey : I64
  keyStep : I64
deriving DecidableEq

def spec (name : CommandName) (arity : Int) (write : Bool) (first last step : Int) : CommandSpec where
  name := name
  arity := I64.wrap arity
  write := write
  firstKey := I64.wrap first
  lastKey := I64.wrap last
  keyStep := I64.wrap step

def specs : List CommandSpec :=
  [spec .ping (-1) false 0 0 0,
    spec .echo 2 false 0 0 0,
    spec .quit 1 false 0 0 0,
    spec .auth (-2) false 0 0 0,
    spec .hello (-1) false 0 0 0,
    spec .select 2 false 0 0 0,
    spec .get 2 false 1 1 1,
    spec .set (-3) true 1 1 1,
    spec .incr 2 true 1 1 1,
    spec .incrby 3 true 1 1 1,
    spec .decr 2 true 1 1 1,
    spec .decrby 3 true 1 1 1,
    spec .del (-2) true 1 (-1) 1,
    spec .exists (-2) false 1 (-1) 1,
    spec .mget (-2) false 1 (-1) 1,
    spec .mset (-3) true 1 (-1) 2,
    spec .expire 3 true 1 1 1,
    spec .pexpire 3 true 1 1 1,
    spec .ttl 2 false 1 1 1,
    spec .pttl 2 false 1 1 1,
    spec .persist 2 true 1 1 1,
    spec .command (-1) false 0 0 0,
    spec .client (-2) false 0 0 0,
    spec .info (-1) false 0 0 0]

def toAsciiLowercase (b : UInt8) : UInt8 := if 65 ≤ b ∧ b ≤ 90 then b + 32 else b

def eqIgnoreAsciiCase (a b : Bytes) : Bool :=
  a.map toAsciiLowercase = b.map toAsciiLowercase

def findSpec (name : Bytes) : Option CommandSpec :=
  specs.find? fun spec => eqIgnoreAsciiCase name (ascii spec.name.text)

/-! ### Parsing

The parser indexes the argument vector. `Halt.outOfRange` is the panic an index out of range would
be; `parse` below is what is left once it is excluded. -/

inductive Halt where
  | refuse (failure : CommandError)
  | outOfRange
deriving DecidableEq

def index (a : List Bytes) (i : Nat) : Except Halt Bytes :=
  match a[i]? with
  | some argument => .ok argument
  | none => .error .outOfRange

/-- The slice `a[start..]`. -/
def sliceFrom (a : List Bytes) (start : Nat) : Except Halt (List Bytes) :=
  if start ≤ a.length then .ok (a.drop start) else .error .outOfRange

def integerArgument (value : Bytes) : Except Halt I64 :=
  match integer value with
  | some n => .ok n
  | none => .error (.refuse .notInteger)

/-- `checked_mul(1000)`. -/
def secondsToMilliseconds (name : CommandName) (seconds : I64) : Except Halt I64 :=
  match seconds.checkedMul (I64.wrap 1000) with
  | some milliseconds => .ok milliseconds
  | none => .error (.refuse (.expireTime name))

def clientName (value : Bytes) (limits : ParseLimits) : Except Halt Unit :=
  if limits.maxClientMetadataBytes < value.length ∨ value.any fun b => ¬ (33 ≤ b ∧ b ≤ 126) then
    .error (.refuse .clientName)
  else
    .ok ()

/-- The operand of `EX` or `PX` in milliseconds. -/
def setDuration (seconds : Bool) (value : Bytes) : Except Halt I64 := do
  let amount ← integerArgument value
  let duration ← (if seconds then secondsToMilliseconds .set amount else .ok amount)
  if duration ≤ 0 then .error (.refuse (.expireTime .set)) else .ok duration

/-- The loop over the options of `SET`. -/
def setOptions (condition : Condition) (expiry : Expiry) :
    List Bytes → Except Halt (Condition × Expiry)
  | [] => .ok (condition, expiry)
  | option :: rest =>
      if eqIgnoreAsciiCase option (ascii "nx") ∨ eqIgnoreAsciiCase option (ascii "xx") then
        if condition ≠ .always then .error (.refuse .syntaxError)
        else if eqIgnoreAsciiCase option (ascii "nx") then setOptions .ifAbsent expiry rest
        else setOptions .ifPresent expiry rest
      else if eqIgnoreAsciiCase option (ascii "keepttl") then
        if expiry ≠ .clear then .error (.refuse .syntaxError)
        else setOptions condition .keep rest
      else if eqIgnoreAsciiCase option (ascii "ex") ∨ eqIgnoreAsciiCase option (ascii "px") then
        match rest with
        | [] => .error (.refuse .syntaxError)
        | value :: rest =>
            if expiry ≠ .clear then .error (.refuse .syntaxError)
            else do
              let duration ← setDuration (eqIgnoreAsciiCase option (ascii "ex")) value
              setOptions condition (.afterMilliseconds duration) rest
      else
        .error (.refuse .syntaxError)

def parseSet (a : List Bytes) : Except Halt Operation := do
  let (condition, expiry) ← setOptions .always .clear (a.drop 3)
  let key ← index a 1
  let value ← index a 2
  return .set key value condition expiry

/-- The loop over the options of `HELLO`. An option whose operands are missing is not recognised. -/
def helloOptions (limits : ParseLimits) (auth : Option (Bytes × Bytes)) (name : Option Bytes) :
    List Bytes → Except Halt (Option (Bytes × Bytes) × Option Bytes)
  | [] => .ok (auth, name)
  | [_] => .error (.refuse .syntaxError)
  | [option, first] =>
      if eqIgnoreAsciiCase option (ascii "setname") ∧ name.isNone then do
        clientName first limits
        return (auth, some first)
      else
        .error (.refuse .syntaxError)
  | option :: first :: second :: rest =>
      if eqIgnoreAsciiCase option (ascii "auth") ∧ auth.isNone then
        helloOptions limits (some (first, second)) name rest
      else if eqIgnoreAsciiCase option (ascii "setname") ∧ name.isNone then do
        clientName first limits
        helloOptions limits auth (some first) (second :: rest)
      else
        .error (.refuse .syntaxError)

def helloProtocol : Option Bytes → Except Halt (Option I64)
  | none => .ok none
  | some value => (integerArgument value).map some

def parseHello (a : List Bytes) (limits : ParseLimits) : Except Halt Command := do
  let protocol ← helloProtocol a[1]?
  let (auth, name) ← helloOptions limits none none (a.drop 2)
  return .hello protocol auth name

def parseClient (a : List Bytes) (limits : ParseLimits) : Except Halt ClientCommand := do
  let subcommand ← index a 1
  if eqIgnoreAsciiCase subcommand (ascii "getname") ∧ a.length = 2 then
    return .getName
  else if eqIgnoreAsciiCase subcommand (ascii "setname") ∧ a.length = 3 then
    let name ← index a 2
    clientName name limits
    return .setName name
  else if eqIgnoreAsciiCase subcommand (ascii "setinfo") ∧ a.length = 4 then
    let value ← index a 3
    clientName value limits
    let kind ← index a 2
    if eqIgnoreAsciiCase kind (ascii "lib-name") then return .setInfo true value
    else if eqIgnoreAsciiCase kind (ascii "lib-ver") then return .setInfo false value
    else .error (.refuse .setInfoAttribute)
  else
    .error (.refuse .clientSubcommand)

/-- `chunks_exact(2)`. -/
def pairs : List Bytes → List (Bytes × Bytes)
  | key :: value :: rest => (key, value) :: pairs rest
  | _ => []

def parseIncrement (name : CommandName) (a : List Bytes) : Except Halt Command := do
  let key ← index a 1
  let amount ← (if a.length = 3 then do integerArgument (← index a 2) else .ok 1)
  return .data (.increment key amount (name = .decr ∨ name = .decrby))

def parseExpire (name : CommandName) (a : List Bytes) : Except Halt Command := do
  let value ← integerArgument (← index a 2)
  let milliseconds ← (if name = .expire then secondsToMilliseconds .expire value else .ok value)
  let key ← index a 1
  return .data (.expire key milliseconds)

def parseMetadata (a : List Bytes) : Except Halt Command :=
  if a.length = 1 then .ok (.metadata .all)
  else do
    let subcommand ← index a 1
    if eqIgnoreAsciiCase subcommand (ascii "count") ∧ a.length = 2 then return .metadata .count
    else if eqIgnoreAsciiCase subcommand (ascii "info") then
      return .metadata (.info (← sliceFrom a 2))
    else .error (.refuse .syntaxError)

/-- The match on the command's name; arms whose guard fails fall through to the syntax error. -/
def parseNamed (name : CommandName) (a : List Bytes) (limits : ParseLimits) :
    Except Halt Command :=
  match name with
  | .ping => if a.length ≤ 2 then .ok (.ping a[1]?) else .error (.refuse .syntaxError)
  | .echo => (index a 1).map .echo
  | .quit => .ok .quit
  | .get => (index a 1).map fun key => .data (.get key)
  | .set => (parseSet a).map .data
  | .incr | .decr | .incrby | .decrby => parseIncrement name a
  | .del => (sliceFrom a 1).map fun keys => .data (.delete keys)
  | .exists => (sliceFrom a 1).map fun keys => .data (.exists keys)
  | .mget => (sliceFrom a 1).map fun keys => .data (.multiGet keys)
  | .mset =>
      if a.length % 2 = 1 then (sliceFrom a 1).map fun rest => .data (.multiSet (pairs rest))
      else .error (.refuse .syntaxError)
  | .expire | .pexpire => parseExpire name a
  | .ttl => (index a 1).map fun key => .data (.ttl key false)
  | .pttl => (index a 1).map fun key => .data (.ttl key true)
  | .persist => (index a 1).map fun key => .data (.persist key)
  | .auth =>
      if a.length = 2 then (index a 1).map fun password => .auth none password
      else if a.length = 3 then do
        let username ← index a 1
        let password ← index a 2
        return .auth (some username) password
      else .error (.refuse .syntaxError)
  | .select => do
      let n ← integerArgument (← index a 1)
      return .select n
  | .hello => parseHello a limits
  | .client => (parseClient a limits).map .client
  | .command => parseMetadata a
  | .info => if a.length ≤ 2 then .ok (.info a[1]?) else .error (.refuse .syntaxError)

def valueTooLarge (limits : ParseLimits) : Operation → Bool
  | .set _ value _ _ => limits.maxValueBytes < value.length
  | .multiSet pairs => pairs.any fun pair => limits.maxValueBytes < pair.2.length
  | _ => false

/-- The size checks every data command passes last. -/
def checkSizes (limits : ParseLimits) : Command → Except Halt Command
  | .data operation =>
      if operation.keys.any fun key => limits.maxKeyBytes < key.length then
        .error (.refuse .keyLimit)
      else if valueTooLarge limits operation then
        .error (.refuse .valueLimit)
      else
        .ok (.data operation)
  | command => .ok command

def checkArity (spec : CommandSpec) (count : Nat) : Except Halt Unit :=
  if (0 < spec.arity ∧ (count : Int) ≠ spec.arity.val) ∨
      (spec.arity < 0 ∧ (count : Int) < -spec.arity.val) then
    .error (.refuse (.wrongArguments spec.name))
  else
    .ok ()

def parseIndexed (a : List Bytes) (limits : ParseLimits) : Except Halt Command :=
  match a with
  | [] => .error (.refuse .emptyCommand)
  | name :: _ =>
      match findSpec name with
      | none => .error (.refuse .unknownCommand)
      | some spec => do
          checkArity spec a.length
          let command ← parseNamed spec.name a limits
          checkSizes limits command

/-! ### Indices stay in range -/

def InRange {α : Type} (result : Except Halt α) : Prop := result ≠ .error .outOfRange

theorem inRange_ok {α : Type} (a : α) : InRange (.ok a) := by
  simp [InRange]

theorem inRange_refuse {α : Type} (failure : CommandError) :
    InRange (.error (.refuse failure) : Except Halt α) := by
  simp [InRange]

theorem InRange.bind {α β : Type} {x : Except Halt α} {f : α → Except Halt β} (hx : InRange x)
    (hf : ∀ a, InRange (f a)) : InRange (x >>= f) := by
  cases x with
  | error halt => exact fun h => hx (by cases h; rfl)
  | ok a => exact hf a

theorem InRange.map {α β : Type} {x : Except Halt α} (hx : InRange x) (f : α → β) :
    InRange (x.map f) := by
  cases x with
  | error halt => exact fun h => hx (by cases h; rfl)
  | ok a => exact inRange_ok _

theorem InRange.ite {α : Type} {p : Prop} [Decidable p] {x y : Except Halt α}
    (hx : p → InRange x) (hy : ¬ p → InRange y) : InRange (if p then x else y) := by
  split
  · exact hx ‹_›
  · exact hy ‹_›

theorem index_inRange {a : List Bytes} {i : Nat} (hi : i < a.length) : InRange (index a i) := by
  rw [index, List.getElem?_eq_getElem hi]
  exact inRange_ok _

theorem sliceFrom_inRange {a : List Bytes} {start : Nat} (hstart : start ≤ a.length) :
    InRange (sliceFrom a start) := by
  rw [sliceFrom, if_pos hstart]
  exact inRange_ok _

theorem integerArgument_inRange (value : Bytes) : InRange (integerArgument value) := by
  unfold integerArgument
  split
  · exact inRange_ok _
  · exact inRange_refuse _

theorem secondsToMilliseconds_inRange (name : CommandName) (seconds : I64) :
    InRange (secondsToMilliseconds name seconds) := by
  unfold secondsToMilliseconds
  split
  · exact inRange_ok _
  · exact inRange_refuse _

theorem clientName_inRange (value : Bytes) (limits : ParseLimits) :
    InRange (clientName value limits) :=
  .ite (fun _ => inRange_refuse _) fun _ => inRange_ok _

theorem setDuration_inRange (seconds : Bool) (value : Bytes) :
    InRange (setDuration seconds value) := by
  refine .bind (integerArgument_inRange value) fun amount => .bind ?_ fun duration => ?_
  · exact .ite (fun _ => secondsToMilliseconds_inRange _ _) fun _ => inRange_ok _
  · exact .ite (fun _ => inRange_refuse _) fun _ => inRange_ok _

theorem setOptions_inRange (condition : Condition) (expiry : Expiry) (options : List Bytes) :
    InRange (setOptions condition expiry options) := by
  fun_induction setOptions condition expiry options with
  | case1 => exact inRange_ok _
  | case2 => exact inRange_refuse _
  | case3 _ _ _ _ _ _ _ ih => exact ih
  | case4 _ _ _ _ _ _ _ ih => exact ih
  | case5 => exact inRange_refuse _
  | case6 _ _ _ _ _ _ _ ih => exact ih
  | case7 => exact inRange_refuse _
  | case8 => exact inRange_refuse _
  | case9 _ _ _ _ _ _ value _ _ ih => exact .bind (setDuration_inRange _ value) ih
  | case10 => exact inRange_refuse _

theorem parseSet_inRange {a : List Bytes} (ha : 3 ≤ a.length) : InRange (parseSet a) := by
  refine .bind (setOptions_inRange _ _ _) fun options => ?_
  refine .bind (index_inRange (by omega)) fun key => ?_
  exact .bind (index_inRange (by omega)) fun value => inRange_ok _

theorem helloOptions_inRange (limits : ParseLimits) (auth : Option (Bytes × Bytes))
    (name : Option Bytes) (options : List Bytes) :
    InRange (helloOptions limits auth name options) := by
  fun_induction helloOptions limits auth name options with
  | case1 => exact inRange_ok _
  | case2 => exact inRange_refuse _
  | case3 => exact .bind (clientName_inRange _ _) fun _ => inRange_ok _
  | case4 => exact inRange_refuse _
  | case5 _ _ _ _ _ _ _ ih => exact ih
  | case6 _ _ _ _ _ _ _ _ ih => exact .bind (clientName_inRange _ _) fun _ => ih
  | case7 => exact inRange_refuse _

theorem parseHello_inRange (a : List Bytes) (limits : ParseLimits) :
    InRange (parseHello a limits) := by
  refine .bind ?_ fun protocol => .bind (helloOptions_inRange _ _ _ _) fun _ => inRange_ok _
  cases a[1]? with
  | none => exact inRange_ok _
  | some value => exact (integerArgument_inRange value).map some

theorem parseClient_inRange {a : List Bytes} (ha : 2 ≤ a.length) (limits : ParseLimits) :
    InRange (parseClient a limits) := by
  refine .bind (index_inRange (by omega)) fun subcommand => ?_
  refine .ite (fun _ => inRange_ok _) fun _ => .ite (fun hname => ?_) fun _ =>
    .ite (fun hinfo => ?_) fun _ => inRange_refuse _
  · refine .bind (index_inRange (by omega)) fun name => ?_
    exact .bind (clientName_inRange _ _) fun _ => inRange_ok _
  · refine .bind (index_inRange (by omega)) fun value => .bind (clientName_inRange _ _) fun _ => ?_
    refine .bind (index_inRange (by omega)) fun kind => ?_
    exact .ite (fun _ => inRange_ok _) fun _ => .ite (fun _ => inRange_ok _) fun _ =>
      inRange_refuse _

theorem parseIncrement_inRange {a : List Bytes} (ha : 2 ≤ a.length) (name : CommandName) :
    InRange (parseIncrement name a) := by
  refine .bind (index_inRange (by omega)) fun key => .bind ?_ fun amount => inRange_ok _
  exact .ite (fun _ => .bind (index_inRange (by omega)) integerArgument_inRange) fun _ =>
    inRange_ok _

theorem parseExpire_inRange {a : List Bytes} (ha : 3 ≤ a.length) (name : CommandName) :
    InRange (parseExpire name a) := by
  refine .bind (index_inRange (by omega)) fun text => .bind (integerArgument_inRange _) fun value => ?_
  refine .bind ?_ fun milliseconds => .bind (index_inRange (by omega)) fun key => inRange_ok _
  exact .ite (fun _ => secondsToMilliseconds_inRange _ _) fun _ => inRange_ok _

theorem parseMetadata_inRange {a : List Bytes} (ha : 1 ≤ a.length) : InRange (parseMetadata a) := by
  refine .ite (fun _ => inRange_ok _) fun hlength => ?_
  refine .bind (index_inRange (by omega)) fun subcommand => ?_
  exact .ite (fun _ => inRange_ok _) fun _ => .ite
    (fun _ => .bind (sliceFrom_inRange (by omega)) fun _ => inRange_ok _) fun _ => inRange_refuse _

/-- How many arguments the arity check leaves at least, for each command. -/
def leastArguments : CommandName → Nat
  | .ping | .quit | .hello | .command | .info => 1
  | .echo | .auth | .select | .get | .incr | .decr | .del | .exists | .mget | .ttl | .pttl
  | .persist | .client => 2
  | .set | .incrby | .decrby | .mset | .expire | .pexpire => 3

theorem leastArguments_le {spec : CommandSpec} (hspec : spec ∈ specs) {count : Nat}
    (harity : checkArity spec count = .ok ()) : leastArguments spec.name ≤ count := by
  have hnot : ¬ ((0 < spec.arity ∧ (count : Int) ≠ spec.arity.val) ∨
      (spec.arity < 0 ∧ (count : Int) < -spec.arity.val)) := by
    intro hbad
    rw [checkArity, if_pos hbad] at harity
    cases harity
  have hleast : ∀ entry ∈ specs, (0 < entry.arity ∨ entry.arity < 0) ∧
      (leastArguments entry.name : Int) = entry.arity.val.natAbs := by
    decide
  obtain ⟨hsign, habs⟩ := hleast spec hspec
  push Not at hnot
  rcases hsign with hpos | hneg
  · have hcount := hnot.1 hpos
    rw [I64.lt_iff, I64.zero_val] at hpos
    omega
  · have hcount := hnot.2 hneg
    rw [I64.lt_iff, I64.zero_val] at hneg
    omega

theorem parseNamed_inRange {name : CommandName} {a : List Bytes}
    (ha : leastArguments name ≤ a.length) (limits : ParseLimits) :
    InRange (parseNamed name a limits) := by
  cases name <;> simp only [leastArguments] at ha
  case ping => exact .ite (fun _ => inRange_ok _) fun _ => inRange_refuse _
  case info => exact .ite (fun _ => inRange_ok _) fun _ => inRange_refuse _
  case quit => exact inRange_ok _
  case set => exact (parseSet_inRange ha).map _
  case hello => exact parseHello_inRange _ _
  case client => exact (parseClient_inRange ha _).map _
  case command => exact parseMetadata_inRange ha
  case incr => exact parseIncrement_inRange (by omega) _
  case decr => exact parseIncrement_inRange (by omega) _
  case incrby => exact parseIncrement_inRange (by omega) _
  case decrby => exact parseIncrement_inRange (by omega) _
  case expire => exact parseExpire_inRange ha _
  case pexpire => exact parseExpire_inRange ha _
  case select =>
    exact .bind (index_inRange (by omega)) fun _ =>
      .bind (integerArgument_inRange _) fun _ => inRange_ok _
  case mset =>
    exact .ite (fun _ => (sliceFrom_inRange (by omega)).map _) fun _ => inRange_refuse _
  case auth =>
    refine .ite (fun _ => (index_inRange (by omega)).map _) fun _ =>
      .ite (fun hthree => ?_) fun _ => inRange_refuse _
    exact .bind (index_inRange (by omega)) fun _ =>
      .bind (index_inRange (by omega)) fun _ => inRange_ok _
  all_goals first
    | exact (index_inRange (by omega)).map _
    | exact (sliceFrom_inRange (by omega)).map _

theorem checkSizes_inRange (limits : ParseLimits) (command : Command) :
    InRange (checkSizes limits command) := by
  unfold checkSizes
  split
  · exact .ite (fun _ => inRange_refuse _) fun _ => .ite (fun _ => inRange_refuse _)
      fun _ => inRange_ok _
  · exact inRange_ok _

theorem parseIndexed_inRange (a : List Bytes) (limits : ParseLimits) :
    InRange (parseIndexed a limits) := by
  unfold parseIndexed
  cases a with
  | nil => exact inRange_refuse _
  | cons name rest =>
      cases hspec : findSpec name with
      | none =>
          simp only [hspec]
          exact inRange_refuse _
      | some spec =>
          simp only [hspec]
          rcases harity : checkArity spec (name :: rest).length with halt | _
          · have hhalt : InRange (checkArity spec (name :: rest).length) :=
              .ite (fun _ => inRange_refuse _) fun _ => inRange_ok _
            rw [harity] at hhalt
            exact fun h => hhalt (by cases h; rfl)
          · have hleast := leastArguments_le (List.mem_of_find?_eq_some hspec) harity
            change InRange (parseNamed spec.name (name :: rest) limits >>= checkSizes limits)
            refine .bind (parseNamed_inRange hleast limits) (checkSizes_inRange limits)

/-- The command an argument vector spells. -/
def parse (a : List Bytes) (limits : ParseLimits) : Except CommandError Command :=
  match hparse : parseIndexed a limits with
  | .ok command => .ok command
  | .error (.refuse failure) => .error failure
  | .error .outOfRange => absurd hparse (parseIndexed_inRange a limits)

/-- What a command that was accepted has gone through. -/
theorem parse_spec {a : List Bytes} {limits : ParseLimits} {command : Command}
    (hparse : parse a limits = .ok command) :
    ∃ name rest spec, a = name :: rest ∧ findSpec name = some spec ∧
      checkArity spec a.length = .ok () ∧ parseNamed spec.name a limits = .ok command ∧
      checkSizes limits command = .ok command := by
  have hindexed : parseIndexed a limits = .ok command := by
    unfold parse at hparse
    split at hparse
    · next hindexed =>
        cases hparse
        exact hindexed
    · cases hparse
    · next hrange => exact absurd hrange (parseIndexed_inRange a limits)
  cases a with
  | nil => cases hindexed
  | cons name rest =>
      cases hspec : findSpec name with
      | none =>
          simp only [parseIndexed, hspec] at hindexed
          cases hindexed
      | some spec =>
          simp only [parseIndexed, hspec] at hindexed
          obtain ⟨_, harity, hrest⟩ := bind_eq_ok.mp hindexed
          obtain ⟨parsed, hnamed, hsizes⟩ := bind_eq_ok.mp hrest
          have hsame : command = parsed := by
            unfold checkSizes at hsizes
            split at hsizes
            · split at hsizes
              · cases hsizes
              · split at hsizes
                · cases hsizes
                · exact (Except.ok.inj hsizes).symm
            · exact (Except.ok.inj hsizes).symm
          subst hsame
          exact ⟨name, rest, spec, rfl, hspec, harity, hnamed, hsizes⟩

/-! ### Metadata -/

def specReply (spec : CommandSpec) : Reply :=
  .array
    [.bulk (some (ascii spec.name.text)),
      .integer spec.arity,
      .array (if spec.firstKey = 0 then []
        else [.simple (if spec.write then ascii "write" else ascii "readonly")]),
      .integer spec.firstKey,
      .integer spec.lastKey,
      .integer spec.keyStep]

def metadata : MetadataCommand → Reply
  | .count => .count specs.length
  | .all => .array (specs.map specReply)
  | .info [] => .array (specs.map specReply)
  | .info names =>
      .array (names.map fun name => ((findSpec name).map specReply).getD (.bulk none))

end Recall
