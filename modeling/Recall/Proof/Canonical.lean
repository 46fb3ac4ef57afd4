import Recall.Proof.Options
import Recall.Proof.Metadata
import Recall.Proof.Budgets
import Recall.Proof.Grammar
import Recall.Client

/-!
# Canonical requests

Every command the parser can return has a canonical spelling, and the parser reads it back. So what
the parser accepts is known without it: the commands that are shaped and sized as the server demands.
On the wire the canonical spellings of a sequence of commands, one behind the other and cut anywhere,
are read as that sequence.
-/

namespace Recall

/-! ### Spelling -/

def Operation.name : Operation → CommandName
  | .get _ => .get
  | .set _ _ _ _ => .set
  | .increment _ _ false => .incrby
  | .increment _ _ true => .decrby
  | .delete _ => .del
  | .exists _ => .exists
  | .multiGet _ => .mget
  | .multiSet _ => .mset
  | .expire _ _ => .pexpire
  | .ttl _ false => .ttl
  | .ttl _ true => .pttl
  | .persist _ => .persist

def Condition.words : Condition → List Bytes
  | .always => []
  | .ifAbsent => [ascii "nx"]
  | .ifPresent => [ascii "xx"]

def Expiry.words : Expiry → List Bytes
  | .clear => []
  | .keep => [ascii "keepttl"]
  | .afterMilliseconds duration => [ascii "px", duration.toBytes]

def Operation.operands : Operation → List Bytes
  | .get key | .ttl key _ | .persist key => [key]
  | .set key value condition expiry => key :: value :: (condition.words ++ expiry.words)
  | .increment key amount _ => [key, amount.toBytes]
  | .delete keys | .exists keys | .multiGet keys => keys
  | .multiSet pairs => pairs.flatMap fun pair => [pair.1, pair.2]
  | .expire key milliseconds => [key, milliseconds.toBytes]

namespace Command

def name : Command → CommandName
  | .data operation => operation.name
  | .ping _ => .ping
  | .echo _ => .echo
  | .quit => .quit
  | .auth _ _ => .auth
  | .hello _ _ _ => .hello
  | .select _ => .select
  | .client _ => .client
  | .metadata _ => .command
  | .info _ => .info

def operands : Command → List Bytes
  | .data operation => operation.operands
  | .ping value | .info value => value.toList
  | .echo value => [value]
  | .quit => []
  | .auth username password => username.toList ++ [password]
  | .hello protocol credentials name =>
      (protocol.map I64.toBytes).toList ++
        (credentials.elim [] (fun given => [ascii "auth", given.1, given.2]) ++
          name.elim [] fun value => [ascii "setname", value])
  | .select index => [index.toBytes]
  | .client .getName => [ascii "getname"]
  | .client (.setName name) => [ascii "setname", name]
  | .client (.setInfo true value) => [ascii "setinfo", ascii "lib-name", value]
  | .client (.setInfo false value) => [ascii "setinfo", ascii "lib-ver", value]
  | .metadata .all => []
  | .metadata .count => [ascii "count"]
  | .metadata (.info names) => ascii "info" :: names

/-- The argument vector a client sends. -/
def arguments (command : Command) : List Bytes := ascii command.name.text :: command.operands

end Command

/-! ### What can be accepted -/

def Operation.Shaped : Operation → Prop
  | .set _ _ _ (.afterMilliseconds duration) => 0 < duration.val
  | .delete keys | .exists keys | .multiGet keys => keys ≠ []
  | .multiSet pairs => pairs ≠ []
  | _ => True

def Command.Acceptable (limits : ParseLimits) : Command → Prop
  | .data operation => operation.Shaped ∧
      (∀ key ∈ operation.keys, key.length ≤ limits.maxKeyBytes) ∧
      operation.ValuesWithin limits.maxValueBytes
  | .hello protocol credentials name =>
      (protocol = none → credentials = none ∧ name = none) ∧ ∀ value ∈ name, ValidName limits value
  | .client (.setName value) | .client (.setInfo _ value) => ValidName limits value
  | _ => True

/-! ### Reading a canonical spelling -/

variable {limits : ParseLimits}

theorem parse_of_parseIndexed {a : List Bytes} {command : Command}
    (hindexed : parseIndexed a limits = .ok command) : parse a limits = .ok command := by
  unfold parse
  split
  · next other hother => rw [hother] at hindexed; exact congrArg Except.ok (Except.ok.inj hindexed)
  · next failure hfailure => rw [hfailure] at hindexed; cases hindexed
  · next hrange => exact absurd hrange (parseIndexed_inRange a limits)

theorem parse_of_named {s : CommandSpec} (hs : s ∈ specs) {operands : List Bytes}
    {command : Command} (harity : checkArity s (operands.length + 1) = .ok ())
    (hnamed : parseNamed s.name (ascii s.name.text :: operands) limits = .ok command)
    (hsizes : checkSizes limits command = .ok command) :
    parse (ascii s.name.text :: operands) limits = .ok command := by
  apply parse_of_parseIndexed
  simp only [parseIndexed, findSpec_text s hs]
  refine bind_eq_ok.mpr ⟨(), harity, bind_eq_ok.mpr ⟨command, hnamed, hsizes⟩⟩

theorem checkArity_of_least {s : CommandSpec} (least : Nat) {count : Nat}
    (harity : s.arity.val = -(least : Int)) (hpos : 0 < least) (hle : least ≤ count) :
    checkArity s count = .ok () := by
  refine if_neg ?_
  rw [I64.lt_iff, I64.lt_iff, I64.zero_val]
  omega

theorem checkSizes_of_acceptable {operation : Operation}
    (h : Command.Acceptable limits (.data operation)) :
    checkSizes limits (.data operation) = .ok (.data operation) := by
  obtain ⟨-, hkeys, hvalues⟩ := h
  rw [checkSizes, if_neg, if_neg]
  · intro hlarge
    cases operation with
    | set key value condition expiry =>
        exact absurd (of_decide_eq_true hlarge) (Nat.not_lt.mpr hvalues)
    | multiSet pairs =>
        obtain ⟨pair, hpair, hlong⟩ := List.any_eq_true.mp hlarge
        exact absurd (of_decide_eq_true hlong) (Nat.not_lt.mpr (hvalues pair hpair))
    | _ => cases hlarge
  · intro hlarge
    obtain ⟨key, hkey, hlong⟩ := List.any_eq_true.mp hlarge
    exact absurd (of_decide_eq_true hlong) (Nat.not_lt.mpr (hkeys key hkey))

theorem integerArgument_toBytes (n : I64) : integerArgument n.toBytes = .ok n := by
  rw [integerArgument, integer_toBytes]

theorem conditionOption_words (condition : Condition) : ConditionOption condition.words condition := by
  cases condition with
  | always => exact .absent
  | ifAbsent => exact .nx (show eqIgnoreAsciiCase _ _ = true by decide)
  | ifPresent => exact .xx (show eqIgnoreAsciiCase _ _ = true by decide)

theorem expiryOption_words {key value : Bytes} {condition : Condition} {expiry : Expiry}
    (hshaped : (Operation.set key value condition expiry).Shaped) :
    ExpiryOption expiry.words expiry := by
  cases expiry with
  | clear => exact .absent
  | keep => exact .keepttl (show eqIgnoreAsciiCase _ _ = true by decide)
  | afterMilliseconds duration =>
      exact .px (show eqIgnoreAsciiCase _ _ = true by decide)
        (Decimal.canonical_iff.mpr rfl) hshaped duration.upper

theorem pairs_flatMap (entries : List (Bytes × Bytes)) :
    pairs (entries.flatMap fun pair => [pair.1, pair.2]) = entries := by
  induction entries with
  | nil => rfl
  | cons pair entries ih =>
      rw [List.flatMap_cons]
      exact congrArg (pair :: ·) ih

theorem length_flatMap_pairs (entries : List (Bytes × Bytes)) :
    (entries.flatMap fun pair => [pair.1, pair.2]).length = 2 * entries.length := by
  induction entries with
  | nil => rfl
  | cons pair entries ih =>
      rw [List.flatMap_cons, List.length_append, ih, List.length_cons]
      simp only [List.length_cons, List.length_nil]
      omega

theorem parseIncrement_canonical (name : CommandName) (word key : Bytes) (amount : I64) :
    parseIncrement name [word, key, amount.toBytes] =
      .ok (.data (.increment key amount (name = .decr ∨ name = .decrby))) := by
  refine bind_eq_ok.mpr ⟨key, rfl, bind_eq_ok.mpr ⟨amount, (if_pos rfl).trans ?_, rfl⟩⟩
  exact bind_eq_ok.mpr ⟨amount.toBytes, rfl, integerArgument_toBytes amount⟩

theorem parseExpire_canonical (word key : Bytes) (milliseconds : I64) :
    parseExpire .pexpire [word, key, milliseconds.toBytes] =
      .ok (.data (.expire key milliseconds)) := by
  refine bind_eq_ok.mpr ⟨milliseconds.toBytes, rfl, bind_eq_ok.mpr ⟨milliseconds, ?_, ?_⟩⟩
  · exact integerArgument_toBytes milliseconds
  · exact bind_eq_ok.mpr ⟨milliseconds, rfl, rfl⟩

/-- The commands whose operands are keys. -/
theorem parse_keys {s : CommandSpec} (hs : s ∈ specs) (harity : s.arity.val = -2)
    {make : List Bytes → Operation} {keys : List Bytes} (hkeys : keys ≠ [])
    (hnamed : ∀ a, parseNamed s.name a limits = (sliceFrom a 1).map fun keys => .data (make keys))
    (hsizes : checkSizes limits (.data (make keys)) = .ok (.data (make keys))) :
    parse (ascii s.name.text :: keys) limits = .ok (.data (make keys)) := by
  refine parse_of_named hs (checkArity_of_least 2 harity (by decide) ?_) ?_ hsizes
  · exact Nat.succ_le_succ (List.length_pos_iff.mpr hkeys)
  · rw [hnamed]
    exact map_eq_ok.mpr ⟨keys, sliceFrom_one, rfl⟩

theorem parse_operation {operation : Operation} (h : Command.Acceptable limits (.data operation)) :
    parse (Command.arguments (.data operation)) limits = .ok (.data operation) := by
  have hsizes := checkSizes_of_acceptable h
  have hshaped := h.1
  cases operation with
  | get key => exact parse_of_named (s := spec .get 2 false 1 1 1) (by decide) rfl rfl hsizes
  | set key value condition expiry =>
      refine parse_of_named (s := spec .set (-3) true 1 1 1) (by decide) ?_ ?_ hsizes
      · exact checkArity_of_least 3 rfl (by decide) (Nat.le_add_left 3 _)
      · refine map_eq_ok.mpr ⟨_, parseSet_eq_ok.mpr ⟨condition, expiry, ?_, rfl⟩, rfl⟩
        exact setOptions_eq_ok.mpr ⟨_, _, conditionOption_words condition,
          expiryOption_words hshaped, .inl rfl⟩
  | increment key amount subtract =>
      cases subtract with
      | false =>
          exact parse_of_named (s := spec .incrby 3 true 1 1 1) (by decide) rfl
            (parseIncrement_canonical _ _ key amount) hsizes
      | true =>
          exact parse_of_named (s := spec .decrby 3 true 1 1 1) (by decide) rfl
            (parseIncrement_canonical _ _ key amount) hsizes
  | delete keys =>
      exact parse_keys (s := spec .del (-2) true 1 (-1) 1) (by decide) rfl hshaped (fun _ => rfl) hsizes
  | «exists» keys =>
      exact parse_keys (s := spec .exists (-2) false 1 (-1) 1) (by decide) rfl hshaped (fun _ => rfl)
        hsizes
  | multiGet keys =>
      exact parse_keys (s := spec .mget (-2) false 1 (-1) 1) (by decide) rfl hshaped (fun _ => rfl)
        hsizes
  | multiSet entries =>
      have hlength := length_flatMap_pairs entries
      have hpos : 0 < entries.length := List.length_pos_iff.mpr hshaped
      refine parse_of_named (s := spec .mset (-3) true 1 (-1) 2) (by decide)
        (checkArity_of_least 3 rfl (by decide) ?_) ?_ hsizes
      · change 3 ≤ (entries.flatMap fun pair => [pair.1, pair.2]).length + 1
        omega
      · refine (if_pos ?_).trans (map_eq_ok.mpr ⟨_, sliceFrom_one, ?_⟩)
        · change ((entries.flatMap fun pair => [pair.1, pair.2]).length + 1) % 2 = 1
          omega
        · exact congrArg (fun pairs => Command.data (.multiSet pairs)) (pairs_flatMap entries)
  | expire key milliseconds =>
      exact parse_of_named (s := spec .pexpire 3 true 1 1 1) (by decide) rfl
        (parseExpire_canonical _ key milliseconds) hsizes
  | ttl key milliseconds =>
      cases milliseconds with
      | false => exact parse_of_named (s := spec .ttl 2 false 1 1 1) (by decide) rfl rfl hsizes
      | true => exact parse_of_named (s := spec .pttl 2 false 1 1 1) (by decide) rfl rfl hsizes
  | persist key => exact parse_of_named (s := spec .persist 2 true 1 1 1) (by decide) rfl rfl hsizes

theorem parse_hello {protocol : Option I64} {credentials : Option (Bytes × Bytes)}
    {name : Option Bytes} (h : Command.Acceptable limits (.hello protocol credentials name)) :
    parse (Command.arguments (.hello protocol credentials name)) limits =
      .ok (.hello protocol credentials name) := by
  obtain ⟨halone, hname⟩ := h
  refine parse_of_named (s := spec .hello (-1) false 0 0 0) (by decide)
    (checkArity_of_least 1 rfl (by decide) (Nat.le_add_left 1 _)) ?_ rfl
  cases protocol with
  | none =>
      obtain ⟨rfl, rfl⟩ := halone rfl
      rfl
  | some version =>
      have hauths : AuthOption
          (credentials.elim [] fun given => [ascii "auth", given.1, given.2]) credentials := by
        cases credentials with
        | none => exact .absent
        | some given => exact .auth (show eqIgnoreAsciiCase _ _ = true by decide) given.1 given.2
      have hnames : NameOption limits (name.elim [] fun value => [ascii "setname", value]) name := by
        cases name with
        | none => exact .absent
        | some value =>
            exact .setname (show eqIgnoreAsciiCase _ _ = true by decide) (hname value rfl)
      refine bind_eq_ok.mpr ⟨some version, helloProtocol_eq_ok.mpr ⟨version, ?_, rfl⟩, ?_⟩
      · exact Decimal.canonical_iff.mpr rfl
      · exact bind_eq_ok.mpr ⟨(credentials, name),
          helloOptions_eq_ok.mpr ⟨_, _, hauths, hnames, .inl rfl⟩, rfl⟩

theorem parseClient_setName {name : Bytes} (hname : ValidName limits name) (word : Bytes) :
    parseClient [word, ascii "setname", name] limits = .ok (.setName name) := by
  have hother : ¬ eqIgnoreAsciiCase (ascii "setname") (ascii "getname") = true := by decide
  refine bind_eq_ok.mpr ⟨ascii "setname", rfl, ?_⟩
  rw [if_neg fun h => hother h.1, if_pos ⟨by decide, rfl⟩]
  exact bind_eq_ok.mpr ⟨name, rfl, bind_eq_ok.mpr ⟨(), clientName_eq_ok.mpr hname, rfl⟩⟩

theorem parseClient_setInfo {value : Bytes} (hvalue : ValidName limits value) (word : Bytes)
    (libraryName : Bool) :
    parseClient [word, ascii "setinfo", if libraryName then ascii "lib-name" else ascii "lib-ver",
      value] limits = .ok (.setInfo libraryName value) := by
  have hget : ¬ eqIgnoreAsciiCase (ascii "setinfo") (ascii "getname") = true := by decide
  have hset : ¬ eqIgnoreAsciiCase (ascii "setinfo") (ascii "setname") = true := by decide
  refine bind_eq_ok.mpr ⟨ascii "setinfo", rfl, ?_⟩
  rw [if_neg fun h => hget h.1, if_neg fun h => hset h.1, if_pos ⟨by decide, rfl⟩]
  refine bind_eq_ok.mpr ⟨value, rfl, bind_eq_ok.mpr ⟨(), clientName_eq_ok.mpr hvalue, ?_⟩⟩
  cases libraryName with
  | true => exact bind_eq_ok.mpr ⟨ascii "lib-name", rfl, rfl⟩
  | false => exact bind_eq_ok.mpr ⟨ascii "lib-ver", rfl, rfl⟩

theorem parseMetadata_info (word : Bytes) (names : List Bytes) :
    parseMetadata (word :: ascii "info" :: names) = .ok (.metadata (.info names)) := by
  have hlength : ¬ (word :: ascii "info" :: names).length = 1 := by simp
  have hcount : ¬ eqIgnoreAsciiCase (ascii "info") (ascii "count") = true := by decide
  rw [parseMetadata, if_neg hlength]
  refine bind_eq_ok.mpr ⟨ascii "info", rfl, ?_⟩
  rw [if_neg fun h => hcount h.1, if_pos (by decide)]
  exact bind_eq_ok.mpr ⟨names, if_pos (Nat.le_add_left 2 _), rfl⟩

theorem parse_arguments {command : Command} (h : command.Acceptable limits) :
    parse command.arguments limits = .ok command := by
  cases command with
  | data operation => exact parse_operation h
  | ping value =>
      cases value <;>
        exact parse_of_named (s := spec .ping (-1) false 0 0 0) (by decide) rfl rfl rfl
  | echo value => exact parse_of_named (s := spec .echo 2 false 0 0 0) (by decide) rfl rfl rfl
  | quit => exact parse_of_named (s := spec .quit 1 false 0 0 0) (by decide) rfl rfl rfl
  | auth username password =>
      cases username <;>
        exact parse_of_named (s := spec .auth (-2) false 0 0 0) (by decide) rfl rfl rfl
  | hello protocol credentials name => exact parse_hello h
  | select index =>
      refine parse_of_named (s := spec .select 2 false 0 0 0) (by decide) rfl ?_ rfl
      exact bind_eq_ok.mpr ⟨index.toBytes, rfl,
        bind_eq_ok.mpr ⟨index, integerArgument_toBytes index, rfl⟩⟩
  | client command =>
      cases command with
      | getName => exact parse_of_named (s := spec .client (-2) false 0 0 0) (by decide) rfl rfl rfl
      | setName name =>
          exact parse_of_named (s := spec .client (-2) false 0 0 0) (by decide) rfl
            (map_eq_ok.mpr ⟨_, parseClient_setName h _, rfl⟩) rfl
      | setInfo libraryName value =>
          have hclient := parseClient_setInfo h (ascii "client") libraryName
          cases libraryName <;>
            exact parse_of_named (s := spec .client (-2) false 0 0 0) (by decide) rfl
              (map_eq_ok.mpr ⟨_, hclient, rfl⟩) rfl
  | metadata command =>
      cases command with
      | all | count =>
          exact parse_of_named (s := spec .command (-1) false 0 0 0) (by decide) rfl rfl rfl
      | info names =>
          exact parse_of_named (s := spec .command (-1) false 0 0 0) (by decide)
            (checkArity_of_least 1 rfl (by decide) (Nat.le_add_left 1 _))
            (parseMetadata_info _ names) rfl
  | info section_ =>
      cases section_ <;>
        exact parse_of_named (s := spec .info (-1) false 0 0 0) (by decide) rfl rfl rfl

/-! ### Nothing else is accepted -/

/-- What the arms of the parser leave to be checked. -/
def Command.Sound (limits : ParseLimits) : Command → Prop
  | .data operation => operation.Shaped
  | command => command.Acceptable limits

/-- How many things the command asks about at once. -/
def Command.asked : Command → Nat
  | .data (.multiGet keys) => keys.length
  | .metadata (.info names) => names.length
  | _ => 0

theorem ne_nil_of_sliceFrom {word : Bytes} {rest keys : List Bytes}
    (hleast : 2 ≤ (word :: rest).length) (hslice : sliceFrom (word :: rest) 1 = .ok keys) :
    keys ≠ [] := by
  rw [sliceFrom_one] at hslice
  cases hslice
  rintro rfl
  simp at hleast

theorem sound_of_set {a : List Bytes} {operation : Operation} (hleast : 3 ≤ a.length)
    (hparse : parseSet a = .ok operation) :
    operation.Shaped ∧ (Command.data operation).asked = 0 := by
  match a, hleast with
  | _ :: key :: value :: options, _ =>
      obtain ⟨condition, expiry, hoptions, rfl⟩ := parseSet_eq_ok.mp hparse
      obtain ⟨conditions, expiries, -, hexpiry, -⟩ := setOptions_eq_ok.mp hoptions
      refine ⟨?_, rfl⟩
      cases hexpiry with
      | absent | keepttl => trivial
      | ex hname hoperand hpos hmax =>
          change 0 < _ * 1000
          omega
      | px hname hoperand hpos hmax => exact hpos

theorem sound_of_hello {a : List Bytes} {command : Command}
    (hparse : parseHello a limits = .ok command) : command.Sound limits ∧ command.asked = 0 := by
  obtain ⟨protocol, hprotocol, hrest⟩ := bind_eq_ok.mp hparse
  obtain ⟨⟨credentials, name⟩, hoptions, hcommand⟩ := bind_eq_ok.mp hrest
  cases hcommand
  obtain ⟨auths, names, hauth, hname, horder⟩ := helloOptions_eq_ok.mp hoptions
  refine ⟨⟨?_, ?_⟩, rfl⟩
  · -- Without a version there is nothing behind it either.
    rintro rfl
    have hnone : a[1]? = none := by
      cases hversion : a[1]? with
      | none => rfl
      | some version =>
          rw [hversion] at hprotocol
          obtain ⟨n, -, hsome⟩ := helloProtocol_eq_ok.mp hprotocol
          cases hsome
    have hempty : a.drop 2 = [] := by
      rw [List.drop_eq_nil_iff]
      exact (List.getElem?_eq_none_iff.mp hnone).trans (by decide)
    rw [hempty] at hoptions
    cases hoptions
    exact ⟨rfl, rfl⟩
  · cases hname with
    | absent => exact nofun
    | setname hspells hvalid =>
        rintro value ⟨⟩
        exact hvalid

theorem sound_of_client {a : List Bytes} {command : ClientCommand}
    (hparse : parseClient a limits = .ok command) : (Command.client command).Sound limits := by
  obtain ⟨subcommand, -, hrest⟩ := bind_eq_ok.mp hparse
  split at hrest
  · cases hrest
    trivial
  · split at hrest
    · obtain ⟨name, -, hname⟩ := bind_eq_ok.mp hrest
      obtain ⟨_, hvalid, hcommand⟩ := bind_eq_ok.mp hname
      cases hcommand
      exact clientName_eq_ok.mp hvalid
    · split at hrest
      · obtain ⟨value, -, hvalue⟩ := bind_eq_ok.mp hrest
        obtain ⟨_, hvalid, hkind⟩ := bind_eq_ok.mp hvalue
        obtain ⟨kind, -, hcommand⟩ := bind_eq_ok.mp hkind
        split at hcommand
        · cases hcommand
          exact clientName_eq_ok.mp hvalid
        · split at hcommand
          · cases hcommand
            exact clientName_eq_ok.mp hvalid
          · cases hcommand
      · cases hrest

theorem sound_of_metadata {a : List Bytes} {command : Command}
    (hparse : parseMetadata a = .ok command) : command.Sound limits ∧ command.asked ≤ a.length := by
  unfold parseMetadata at hparse
  split at hparse
  · cases hparse
    exact ⟨trivial, Nat.zero_le _⟩
  · obtain ⟨subcommand, -, hrest⟩ := bind_eq_ok.mp hparse
    split at hrest
    · cases hrest
      exact ⟨trivial, Nat.zero_le _⟩
    · split at hrest
      · obtain ⟨names, hnames, hcommand⟩ := bind_eq_ok.mp hrest
        cases hcommand
        unfold sliceFrom at hnames
        split at hnames
        · cases hnames
          refine ⟨trivial, ?_⟩
          change (a.drop 2).length ≤ a.length
          rw [List.length_drop]
          exact Nat.sub_le _ _
        · cases hnames
      · cases hrest

theorem sound_of_parseNamed {name : CommandName} {word : Bytes} {rest : List Bytes}
    {command : Command} (hleast : leastArguments name ≤ (word :: rest).length)
    (hparse : parseNamed name (word :: rest) limits = .ok command) :
    command.Sound limits ∧ command.asked ≤ (word :: rest).length := by
  cases name with
  | ping | info =>
      simp only [parseNamed] at hparse
      split at hparse
      · cases hparse
        exact ⟨trivial, Nat.zero_le _⟩
      · cases hparse
  | quit =>
      cases hparse
      exact ⟨trivial, Nat.zero_le _⟩
  | echo | get | ttl | pttl | persist =>
      obtain ⟨argument, -, rfl⟩ := map_eq_ok.mp hparse
      exact ⟨trivial, Nat.zero_le _⟩
  | auth =>
      simp only [parseNamed] at hparse
      split at hparse
      · obtain ⟨password, -, rfl⟩ := map_eq_ok.mp hparse
        exact ⟨trivial, Nat.zero_le _⟩
      · split at hparse
        · obtain ⟨username, -, hpassword⟩ := bind_eq_ok.mp hparse
          obtain ⟨password, -, hcommand⟩ := bind_eq_ok.mp hpassword
          cases hcommand
          exact ⟨trivial, Nat.zero_le _⟩
        · cases hparse
  | hello =>
      obtain ⟨hsound, hasked⟩ := sound_of_hello hparse
      exact ⟨hsound, hasked.trans_le (Nat.zero_le _)⟩
  | select =>
      obtain ⟨text, -, hnumber⟩ := bind_eq_ok.mp hparse
      obtain ⟨n, -, hcommand⟩ := bind_eq_ok.mp hnumber
      cases hcommand
      exact ⟨trivial, Nat.zero_le _⟩
  | set =>
      obtain ⟨operation, hset, rfl⟩ := map_eq_ok.mp hparse
      obtain ⟨hshaped, hasked⟩ := sound_of_set hleast hset
      exact ⟨hshaped, hasked.trans_le (Nat.zero_le _)⟩
  | incr | incrby | decr | decrby =>
      obtain ⟨key, -, hamount⟩ := bind_eq_ok.mp hparse
      obtain ⟨amount, -, hcommand⟩ := bind_eq_ok.mp hamount
      cases hcommand
      exact ⟨trivial, Nat.zero_le _⟩
  | del | «exists» =>
      simp only [parseNamed] at hparse
      obtain ⟨keys, hkeys, rfl⟩ := map_eq_ok.mp hparse
      exact ⟨ne_nil_of_sliceFrom hleast hkeys, Nat.zero_le _⟩
  | mget =>
      simp only [parseNamed] at hparse
      obtain ⟨keys, hkeys, rfl⟩ := map_eq_ok.mp hparse
      refine ⟨ne_nil_of_sliceFrom hleast hkeys, ?_⟩
      rw [sliceFrom_one] at hkeys
      cases hkeys
      exact Nat.le_succ _
  | mset =>
      simp only [parseNamed] at hparse
      split at hparse
      · obtain ⟨rest', hslice, rfl⟩ := map_eq_ok.mp hparse
        rw [sliceFrom_one] at hslice
        cases hslice
        cases rest with
        | nil => exact absurd hleast (show ¬ 3 ≤ 1 by decide)
        | cons key rest =>
            cases rest with
            | nil => exact absurd hleast (show ¬ 3 ≤ 2 by decide)
            | cons value rest => exact ⟨List.cons_ne_nil _ _, Nat.zero_le _⟩
      · cases hparse
  | expire | pexpire =>
      obtain ⟨text, -, hvalue⟩ := bind_eq_ok.mp hparse
      obtain ⟨value, -, hmilliseconds⟩ := bind_eq_ok.mp hvalue
      obtain ⟨milliseconds, -, hkey⟩ := bind_eq_ok.mp hmilliseconds
      obtain ⟨key, -, hcommand⟩ := bind_eq_ok.mp hkey
      cases hcommand
      exact ⟨trivial, Nat.zero_le _⟩
  | client =>
      obtain ⟨command, hclient, rfl⟩ := map_eq_ok.mp hparse
      exact ⟨sound_of_client hclient, Nat.zero_le _⟩
  | command => exact sound_of_metadata hparse

theorem sound_of_parse {a : List Bytes} {command : Command}
    (hparse : parse a limits = .ok command) :
    command.Acceptable limits ∧ command.asked ≤ a.length := by
  obtain ⟨name, rest, s, rfl, hspec, harity, hnamed, hsizes⟩ := parse_spec hparse
  have hleast := leastArguments_le (List.mem_of_find?_eq_some hspec) harity
  obtain ⟨hsound, hasked⟩ := sound_of_parseNamed hleast hnamed
  refine ⟨?_, hasked⟩
  cases command with
  | data operation => exact ⟨hsound, sizes_of_checkSizes hsizes⟩
  | _ => exact hsound

/-- The parser returns exactly the acceptable commands, and each of them for its canonical spelling. -/
theorem commands_canonical (limits : ParseLimits) (command : Command) :
    ((∃ a, parse a limits = .ok command) ↔ command.Acceptable limits) ∧
      ∀ a, parse a limits = .ok command → parse command.arguments limits = .ok command := by
  refine ⟨⟨?_, fun h => ⟨_, parse_arguments h⟩⟩, fun a hparse => ?_⟩
  · rintro ⟨a, hparse⟩
    exact (sound_of_parse hparse).1
  · exact parse_arguments ((sound_of_parse hparse).1)

/-! ### On the wire -/

open Incremental

theorem frame_eq (arguments : List Bytes) :
    Client.frame arguments = headerLine 42 (Decimal.ofNat arguments.length) ++
      arguments.flatMap fun argument => block (Decimal.ofNat argument.length) argument := by
  simp [Client.frame, headerLine, block, Reply.crlf]

/-- The request is within the limits of the protocol. -/
structure Transmissible (limits : Limits) (arguments : List Bytes) : Prop where
  count : arguments.length ≤ limits.maxArguments
  counter : (headerLine 42 (Decimal.ofNat arguments.length)).length ≤ limits.maxHeaderBytes
  bulks : ∀ argument ∈ arguments, argument.length ≤ limits.maxBulkBytes
  headers : ∀ argument ∈ arguments,
    (headerLine 36 (Decimal.ofNat argument.length)).length ≤ limits.maxHeaderBytes
  frame : (Client.frame arguments).length ≤ limits.maxFrameBytes

theorem numeral_ofNat (n : Nat) : Numeral (Decimal.ofNat n) n where
  nonempty := Decimal.ofNat_ne_nil n
  isDigit _ hb := Decimal.isDigit_of_mem_ofNat hb
  value := Decimal.value_ofNat n

theorem blocks_encoded {limits : Limits} {arguments : List Bytes}
    (hbulks : ∀ argument ∈ arguments, argument.length ≤ limits.maxBulkBytes)
    (hheaders : ∀ argument ∈ arguments,
      (headerLine 36 (Decimal.ofNat argument.length)).length ≤ limits.maxHeaderBytes) :
    Blocks limits arguments
      (arguments.flatMap fun argument => block (Decimal.ofNat argument.length) argument) := by
  induction arguments with
  | nil => exact .nil
  | cons argument arguments ih =>
      rw [List.flatMap_cons]
      refine .cons (numeral_ofNat _) (hbulks _ List.mem_cons_self) (hheaders _ List.mem_cons_self) ?_
      exact ih (fun other hother => hbulks other (List.mem_cons_of_mem _ hother))
        fun other hother => hheaders other (List.mem_cons_of_mem _ hother)

theorem Transmissible.isFrame {limits : Limits} {arguments : List Bytes}
    (h : Transmissible limits arguments) (hne : arguments ≠ []) :
    Frame limits arguments (Client.frame arguments) :=
  ⟨_, _, frame_eq _, numeral_ofNat _, h.counter, blocks_encoded h.bulks h.headers,
    List.length_pos_iff.mpr hne, h.count, h.frame⟩

/-- A decoder between two frames takes the requests off one by one and is between two frames again. -/
theorem drain_requests {limits : Limits} (hvalid : limits.validate = .ok ())
    {requests : List (List Bytes)}
    (hrequests : ∀ arguments ∈ requests, arguments ≠ [] ∧ Transmissible limits arguments) :
    let drained := Decoder.reader.drain (Decoder.fresh limits) (requests.flatMap Client.frame)
    drained.1.map Request.arguments = requests ∧ drained.2 = .ok (Decoder.fresh limits, []) := by
  induction requests with
  | nil =>
      have hwaits : Decoder.reader.read (Decoder.fresh limits) [] =
          .ok (Decoder.fresh limits, [], none) := Decoder.fresh_waits hvalid
      rw [List.flatMap_nil, Reader.drain_wait hwaits]
      exact ⟨rfl, rfl⟩
  | cons arguments requests ih =>
      obtain ⟨hne, htransmissible⟩ := hrequests arguments List.mem_cons_self
      obtain ⟨harguments, hend⟩ :=
        ih fun other hother => hrequests other (List.mem_cons_of_mem _ hother)
      have hdecode := @Decoder.decode_of_frame limits arguments (Client.frame arguments)
        (requests.flatMap Client.frame) (htransmissible.isFrame hne)
      rw [List.flatMap_cons, Reader.drain_item hdecode]
      exact ⟨congrArg (arguments :: ·) harguments, hend⟩

/-- Commands sent in their canonical spelling, one behind the other and cut anywhere, are read as
they were meant, and nothing is left over. -/
theorem pipelines_understood {limits : Limits} {d : Decoder} (hnew : Decoder.new limits = .ok d)
    {parseLimits : ParseLimits} {commands : List Command}
    (hcommands : ∀ command ∈ commands,
      command.Acceptable parseLimits ∧ Transmissible limits command.arguments)
    {chunks : List Bytes}
    (hchunks : chunks.flatten = commands.flatMap fun command => Client.frame command.arguments) :
    let fed := Decoder.reader.feed d [] chunks
    fed.1.map (fun request => parse request.arguments parseLimits) = commands.map .ok ∧
      fed.2 = .ok (d, []) := by
  obtain ⟨hvalid, rfl⟩ := Decoder.new_ok hnew
  obtain ⟨hitems, halike⟩ := Reader.feed_alike_drain Decoder.resumable chunks
    (Decoder.fresh_fits limits []) (Decoder.fresh_waits hvalid)
  have hdrain := @drain_requests limits hvalid (commands.map Command.arguments) (by
    intro arguments harguments
    obtain ⟨command, hcommand, rfl⟩ := List.mem_map.mp harguments
    exact ⟨List.cons_ne_nil _ _, (hcommands command hcommand).2⟩)
  rw [List.flatMap_map, ← hchunks] at hdrain
  rw [List.nil_append] at hitems halike
  refine ⟨?_, ?_⟩
  · calc (Decoder.reader.feed (Decoder.fresh limits) [] chunks).1.map
          (fun request => parse request.arguments parseLimits)
        = ((Decoder.reader.feed (Decoder.fresh limits) [] chunks).1.map Request.arguments).map
            (parse · parseLimits) := by rw [List.map_map]; rfl
      _ = (commands.map Command.arguments).map (parse · parseLimits) := by rw [hitems, hdrain.1]
      _ = commands.map .ok := by
          rw [List.map_map]
          exact List.map_congr_left fun command hcommand =>
            parse_arguments (hcommands command hcommand).1
  · rw [hdrain.2] at halike
    exact halike.ok_eq

theorem pipelines_understood_sample :
    let commands := [Command.data (.set (ascii "k") (ascii "v") .ifAbsent .keep), .ping none]
    let chunks := [ascii "*5\r", ascii "\n$3\r\nset\r\n$1\r\nk\r\n$1\r\nv\r\n$2\r\nn", [],
      ascii "x\r\n$7\r\nkeepttl\r\n*1\r\n$4\r\nping\r\n"]
    let fed := Decoder.reader.feed (Decoder.fresh Limits.default) [] chunks
    fed.1.map (fun request => parse request.arguments ParseLimits.default) = commands.map .ok ∧
      fed.2 = .ok (Decoder.fresh Limits.default, []) := by
  refine @pipelines_understood Limits.default (Decoder.fresh Limits.default) rfl
    ParseLimits.default _ ?_ _ (by decide +kernel)
  intro command hcommand
  rcases List.mem_cons.mp hcommand with rfl | hrest
  · refine ⟨⟨trivial, by decide, show 1 ≤ 512 * 1024 by decide⟩, ?_⟩
    exact ⟨by decide, by decide, by decide, by decide, by decide +kernel⟩
  · obtain rfl := List.mem_singleton.mp hrest
    exact ⟨trivial, by decide, by decide, by decide, by decide, by decide +kernel⟩

end Recall
