import Recall.Command
import Recall.Proof.Integers

/-!
# The options of SET and HELLO

Both parsers walk an argument vector token by token, with a flag for each group they have seen. What
they accept is a list with at most one group of each kind, in either order, and what they return is
what the groups say. An operand is never read as an option.
-/

namespace Recall

/-- The token is the word in some mixture of upper and lower case. -/
def Spells (token : Bytes) (word : String) : Prop := eqIgnoreAsciiCase token (ascii word) = true

/-- Two groups one after the other, whichever comes first. -/
def InEitherOrder (first second tokens : List Bytes) : Prop :=
  tokens = first ++ second ∨ tokens = second ++ first

/-- At most one of `NX` and `XX`, and the condition it names. -/
inductive ConditionOption : List Bytes → Condition → Prop
  | absent : ConditionOption [] .always
  | nx {token : Bytes} (hname : Spells token "nx") : ConditionOption [token] .ifAbsent
  | xx {token : Bytes} (hname : Spells token "xx") : ConditionOption [token] .ifPresent

/-- At most one of `KEEPTTL`, `EX seconds` and `PX milliseconds`, and the expiry it names. -/
inductive ExpiryOption : List Bytes → Expiry → Prop
  | absent : ExpiryOption [] .clear
  | keepttl {token : Bytes} (hname : Spells token "keepttl") : ExpiryOption [token] .keep
  | ex {token operand : Bytes} {n : Int} (hname : Spells token "ex")
      (hoperand : Decimal.Canonical operand n) (hpos : 0 < n) (hmax : n * 1000 ≤ 2 ^ 63 - 1) :
      ExpiryOption [token, operand] (.afterMilliseconds ⟨n * 1000, by omega, hmax⟩)
  | px {token operand : Bytes} {n : Int} (hname : Spells token "px")
      (hoperand : Decimal.Canonical operand n) (hpos : 0 < n) (hmax : n ≤ 2 ^ 63 - 1) :
      ExpiryOption [token, operand] (.afterMilliseconds ⟨n, by omega, hmax⟩)

/-- At most one `AUTH username password`. -/
inductive AuthOption : List Bytes → Option (Bytes × Bytes) → Prop
  | absent : AuthOption [] none
  | auth {token : Bytes} (hname : Spells token "auth") (username password : Bytes) :
      AuthOption [token, username, password] (some (username, password))

/-- Short enough, and printable ASCII without spaces. -/
def ValidName (limits : ParseLimits) (name : Bytes) : Prop :=
  name.length ≤ limits.maxClientMetadataBytes ∧ ∀ b ∈ name, 33 ≤ b ∧ b ≤ 126

/-- At most one `SETNAME name`. -/
inductive NameOption (limits : ParseLimits) : List Bytes → Option Bytes → Prop
  | absent : NameOption limits [] none
  | setname {token name : Bytes} (hname : Spells token "setname") (hvalid : ValidName limits name) :
      NameOption limits [token, name] (some name)

/-- The protocol version, when there is one, is a canonical 64-bit integer. -/
def ProtocolArgument : Option Bytes → Option I64 → Prop
  | none, protocol => protocol = none
  | some argument, protocol => ∃ n, Decimal.Canonical argument n.val ∧ protocol = some n

/-! ### Words -/

theorem spells_false {token : Bytes} {word other : String} (hname : Spells token word)
    (hne : (ascii word).map toAsciiLowercase ≠ (ascii other).map toAsciiLowercase) :
    eqIgnoreAsciiCase token (ascii other) = false := by
  unfold Spells eqIgnoreAsciiCase at *
  rw [of_decide_eq_true hname]
  exact decide_eq_false hne

theorem integerArgument_eq_ok {value : Bytes} {n : I64} :
    integerArgument value = .ok n ↔ Decimal.Canonical value n.val := by
  have hspelling : Decimal.Canonical value n.val ↔ integer value = some n := by
    rw [Decimal.canonical_iff, integer_eq_some]
    exact Iff.rfl
  rw [hspelling, integerArgument]
  cases integer value with
  | none => simp
  | some parsed => simp

/-! ### Groups of two kinds

A loop that keeps what each kind was set to, and takes a group only while its kind is unset. -/

section Groups

variable {α β : Type} {unset a a' : α} {unset' b b' : β} {first : List Bytes → α → Prop}
  {second : List Bytes → β → Prop} {group rest tokens : List Bytes}

/-- A group that can still follow, given what its kind was set to before. -/
def From (unset : α) (option : List Bytes → α → Prop) (before : α) (tokens : List Bytes)
    (after : α) : Prop :=
  (tokens = [] ∧ after = before) ∨ (before = unset ∧ option tokens after)

theorem From.closed (hfrom : From unset first a tokens a') (hset : a ≠ unset) :
    tokens = [] ∧ a' = a := by
  rcases hfrom with hnone | ⟨hunset, -⟩
  · exact hnone
  · exact absurd hunset hset

theorem From.start (hfrom : From unset first unset tokens a') (hempty : first [] unset) :
    first tokens a' := by
  rcases hfrom with ⟨rfl, rfl⟩ | ⟨-, hoption⟩
  · exact hempty
  · exact hoption

def Groups (unset : α) (unset' : β) (first : List Bytes → α → Prop)
    (second : List Bytes → β → Prop) (a : α) (b : β) (tokens : List Bytes) (a' : α) (b' : β) :
    Prop :=
  ∃ firsts seconds, From unset first a firsts a' ∧ From unset' second b seconds b' ∧
    InEitherOrder firsts seconds tokens

theorem Groups.nil : Groups unset unset' first second a b [] a b :=
  ⟨[], [], .inl ⟨rfl, rfl⟩, .inl ⟨rfl, rfl⟩, .inl rfl⟩

theorem Groups.cons_first (hgroup : first group a) (hset : a ≠ unset)
    (hrest : Groups unset unset' first second a b rest a' b') :
    Groups unset unset' first second unset b (group ++ rest) a' b' := by
  obtain ⟨firsts, seconds, hfirsts, hseconds, horder⟩ := hrest
  obtain ⟨rfl, rfl⟩ := hfirsts.closed hset
  refine ⟨group, seconds, .inr ⟨rfl, hgroup⟩, hseconds, .inl ?_⟩
  rcases horder with rfl | rfl
  · rfl
  · rw [List.append_nil]

theorem Groups.cons_second (hgroup : second group b) (hset : b ≠ unset')
    (hrest : Groups unset unset' first second a b rest a' b') :
    Groups unset unset' first second a unset' (group ++ rest) a' b' := by
  obtain ⟨firsts, seconds, hfirsts, hseconds, horder⟩ := hrest
  obtain ⟨rfl, rfl⟩ := hseconds.closed hset
  refine ⟨firsts, group, hfirsts, .inr ⟨rfl, hgroup⟩, .inr ?_⟩
  rcases horder with rfl | rfl
  · rw [List.append_nil]
  · rfl

theorem Groups.start (hgroups : Groups unset unset' first second unset unset' tokens a' b')
    (hfirst : first [] unset) (hsecond : second [] unset') :
    ∃ firsts seconds, first firsts a' ∧ second seconds b' ∧
      InEitherOrder firsts seconds tokens := by
  obtain ⟨firsts, seconds, hfirsts, hseconds, horder⟩ := hgroups
  exact ⟨firsts, seconds, hfirsts.start hfirst, hseconds.start hsecond, horder⟩

end Groups

/-! ### SET -/

theorem setDuration_seconds {operand : Bytes} {duration : I64} :
    setDuration true operand = .ok duration ↔
      ∃ n, Decimal.Canonical operand n ∧ 0 < n ∧ duration.val = n * 1000 := by
  have hthousand : (I64.wrap 1000).val = 1000 := by decide
  constructor
  · intro hduration
    obtain ⟨amount, hamount, hrest⟩ := bind_eq_ok.mp hduration
    obtain ⟨product, hproduct, hpositive⟩ := bind_eq_ok.mp hrest
    rw [if_pos rfl, secondsToMilliseconds] at hproduct
    split at hproduct
    · next milliseconds hmul =>
        cases hproduct
        rw [I64.checkedMul, I64.ofInt?_eq_some, hthousand] at hmul
        split at hpositive
        · cases hpositive
        · next hle =>
            cases hpositive
            have hpos := I64.not_le_zero.mp hle
            exact ⟨amount.val, integerArgument_eq_ok.mp hamount, by omega, hmul⟩
    · cases hproduct
  · rintro ⟨n, hcanonical, hpos, hvalue⟩
    have hupper := duration.upper
    have hargument : integerArgument operand = .ok ⟨n, by omega, by omega⟩ :=
      integerArgument_eq_ok.mpr hcanonical
    have hmul : I64.checkedMul ⟨n, by omega, by omega⟩ (I64.wrap 1000) = some duration := by
      rw [I64.checkedMul, I64.ofInt?_eq_some, hthousand]
      exact hvalue
    have hpositive : ¬ duration ≤ 0 := I64.not_le_zero.mpr (by omega)
    simp only [setDuration, hargument, secondsToMilliseconds, hmul, bind, Except.bind, ↓reduceIte,
      hpositive]

theorem setDuration_milliseconds {operand : Bytes} {duration : I64} :
    setDuration false operand = .ok duration ↔
      Decimal.Canonical operand duration.val ∧ 0 < duration.val := by
  constructor
  · intro hduration
    obtain ⟨amount, hamount, hrest⟩ := bind_eq_ok.mp hduration
    obtain ⟨same, hsame, hpositive⟩ := bind_eq_ok.mp hrest
    cases hsame
    split at hpositive
    · cases hpositive
    · next hle =>
        cases hpositive
        exact ⟨integerArgument_eq_ok.mp hamount, I64.not_le_zero.mp hle⟩
  · rintro ⟨hcanonical, hpos⟩
    have hpositive : ¬ duration ≤ 0 := I64.not_le_zero.mpr hpos
    simp only [setDuration, integerArgument_eq_ok.mpr hcanonical, bind, Except.bind,
      Bool.false_eq_true, ↓reduceIte, hpositive]

theorem setOptions_condition {tokens : List Bytes} {condition : Condition}
    (hoption : ConditionOption tokens condition) (expiry : Expiry) (rest : List Bytes) :
    setOptions .always expiry (tokens ++ rest) = setOptions condition expiry rest := by
  cases hoption with
  | absent => rfl
  | nx hname =>
      have hnx : eqIgnoreAsciiCase _ _ = true := hname
      rw [List.singleton_append, setOptions.eq_def]
      simp [hnx]
  | xx hname =>
      have hxx : eqIgnoreAsciiCase _ _ = true := hname
      have hnx := @spells_false _ _ "nx" hname (by decide)
      rw [List.singleton_append, setOptions.eq_def]
      simp [hxx, hnx]

theorem setOptions_duration {token operand : Bytes} {duration : I64}
    (hname : Spells token "ex" ∨ Spells token "px")
    (hduration : setDuration (eqIgnoreAsciiCase token (ascii "ex")) operand = .ok duration)
    (condition : Condition) (rest : List Bytes) :
    setOptions condition .clear (token :: operand :: rest) =
      setOptions condition (.afterMilliseconds duration) rest := by
  have hother : ∀ other : String, (ascii "ex").map toAsciiLowercase ≠
      (ascii other).map toAsciiLowercase → (ascii "px").map toAsciiLowercase ≠
      (ascii other).map toAsciiLowercase → eqIgnoreAsciiCase token (ascii other) = false := by
    intro other hex hpx
    rcases hname with hname | hname
    · exact spells_false hname hex
    · exact spells_false hname hpx
  rw [setOptions.eq_def]
  simp only [hother "nx" (by decide) (by decide), hother "xx" (by decide) (by decide),
    hother "keepttl" (by decide) (by decide), Bool.false_eq_true, or_self, ↓reduceIte, ne_eq,
    not_true_eq_false, hduration, bind, Except.bind]
  exact if_pos hname

theorem setOptions_expiry {tokens : List Bytes} {expiry : Expiry}
    (hoption : ExpiryOption tokens expiry) (condition : Condition) (rest : List Bytes) :
    setOptions condition .clear (tokens ++ rest) = setOptions condition expiry rest := by
  cases hoption with
  | absent => rfl
  | keepttl hname =>
      have hkeep : eqIgnoreAsciiCase _ _ = true := hname
      have hnx := @spells_false _ _ "nx" hname (by decide)
      have hxx := @spells_false _ _ "xx" hname (by decide)
      rw [List.singleton_append, setOptions.eq_def]
      simp [hkeep, hnx, hxx]
  | ex hname hoperand hpos hmax =>
      refine setOptions_duration (.inl hname) ?_ condition rest
      rw [show eqIgnoreAsciiCase _ _ = true from hname]
      exact setDuration_seconds.mpr ⟨_, hoperand, hpos, rfl⟩
  | px hname hoperand hpos hmax =>
      refine setOptions_duration (.inr hname) ?_ condition rest
      rw [spells_false hname (by decide)]
      exact setDuration_milliseconds.mpr ⟨hoperand, hpos⟩

theorem groups_of_setOptions {condition condition' : Condition} {expiry expiry' : Expiry}
    {tokens : List Bytes} (hoptions : setOptions condition expiry tokens = .ok (condition', expiry')) :
    Groups .always .clear ConditionOption ExpiryOption condition expiry tokens condition'
      expiry' := by
  fun_induction setOptions condition expiry tokens with
  | case1 condition expiry =>
      cases hoptions
      exact .nil
  | case2 => cases hoptions
  | case3 condition expiry option rest hname hunset hnx ih =>
      obtain rfl := Classical.not_not.mp hunset
      exact .cons_first (ConditionOption.nx hnx) (by simp) (ih hoptions)
  | case4 condition expiry option rest hname hunset hnx ih =>
      obtain rfl := Classical.not_not.mp hunset
      exact .cons_first (ConditionOption.xx (hname.resolve_left hnx)) (by simp) (ih hoptions)
  | case5 => cases hoptions
  | case6 condition expiry option rest hname hkeep hunset ih =>
      obtain rfl := Classical.not_not.mp hunset
      exact .cons_second (ExpiryOption.keepttl hkeep) (by simp) (ih hoptions)
  | case7 => cases hoptions
  | case8 => cases hoptions
  | case9 condition expiry option hcondition hkeep hname operand rest hunset ih =>
      obtain rfl := Classical.not_not.mp hunset
      obtain ⟨duration, hduration, hrest⟩ := bind_eq_ok.mp hoptions
      refine .cons_second (?_ : ExpiryOption [option, operand] (.afterMilliseconds duration))
        (by simp) (ih duration hrest)
      cases hex : eqIgnoreAsciiCase option (ascii "ex") with
      | true =>
          rw [hex] at hduration
          obtain ⟨n, hcanonical, hpos, hvalue⟩ := setDuration_seconds.mp hduration
          have hupper := duration.upper
          have hsame : duration = ⟨n * 1000, by omega, by omega⟩ := I64.val_injective hvalue
          rw [hsame]
          exact .ex hex hcanonical hpos (by omega)
      | false =>
          rw [hex] at hduration
          obtain ⟨hcanonical, hpos⟩ := setDuration_milliseconds.mp hduration
          refine .px (hname.resolve_left ?_) hcanonical hpos duration.upper
          rw [hex]
          exact Bool.false_ne_true
  | case10 => cases hoptions

theorem setOptions_eq_ok {condition : Condition} {expiry : Expiry} {tokens : List Bytes} :
    setOptions .always .clear tokens = .ok (condition, expiry) ↔
      ∃ conditions expiries, ConditionOption conditions condition ∧
        ExpiryOption expiries expiry ∧ InEitherOrder conditions expiries tokens := by
  constructor
  · intro hoptions
    exact (groups_of_setOptions hoptions).start .absent .absent
  · rintro ⟨conditions, expiries, hcondition, hexpiry, rfl | rfl⟩
    · have hlast := setOptions_expiry hexpiry condition []
      rw [List.append_nil] at hlast
      rw [setOptions_condition hcondition, hlast, setOptions]
    · have hlast := setOptions_condition hcondition expiry []
      rw [List.append_nil] at hlast
      rw [setOptions_expiry hexpiry, hlast, setOptions]

/-! ### Upper and lower case -/

/-- The tokens differ at most in the case of their ASCII letters. -/
def SameButCase (tokens tokens' : List Bytes) : Prop :=
  tokens.map (List.map toAsciiLowercase) = tokens'.map (List.map toAsciiLowercase)

theorem Spells.congr {token token' : Bytes} {word : String} (hname : Spells token word)
    (hcase : token.map toAsciiLowercase = token'.map toAsciiLowercase) : Spells token' word := by
  unfold Spells eqIgnoreAsciiCase at *
  rwa [← hcase]

theorem toAsciiLowercase_eq_self {b : UInt8}
    (hb : toAsciiLowercase b = 45 ∨ Decimal.isDigit (toAsciiLowercase b) = true) :
    toAsciiLowercase b = b := by
  unfold toAsciiLowercase at hb ⊢
  split at hb
  · next hupper =>
      exfalso
      have hlower : 65 ≤ b.toNat := UInt8.le_iff_toNat_le.mp hupper.1
      have hlast : b.toNat ≤ 90 := UInt8.le_iff_toNat_le.mp hupper.2
      have hsum : (b + 32).toNat = b.toNat + 32 := by
        rw [UInt8.toNat_add]
        exact Nat.mod_eq_of_lt (by change b.toNat + 32 < 256; omega)
      rcases hb with hminus | hdigit
      · rw [hminus] at hsum
        change 45 = _ at hsum
        omega
      · obtain ⟨-, hnine⟩ := Decimal.isDigit_iff.mp hdigit
        omega
  · next hupper => rw [if_neg hupper]

theorem toAsciiLowercase_of_spelling {b : UInt8} (hb : b = 45 ∨ Decimal.isDigit b = true) :
    toAsciiLowercase b = b := by
  rw [toAsciiLowercase, if_neg]
  rintro ⟨hlower, -⟩
  have hletter : 65 ≤ b.toNat := UInt8.le_iff_toNat_le.mp hlower
  rcases hb with rfl | hdigit
  · exact absurd hletter (by decide)
  · obtain ⟨-, hnine⟩ := Decimal.isDigit_iff.mp hdigit
    omega

theorem map_toAsciiLowercase_eq_self {text : Bytes}
    (htext : ∀ b ∈ text, toAsciiLowercase b = b) : text.map toAsciiLowercase = text :=
  calc
    text.map toAsciiLowercase = text.map id := List.map_congr_left htext
    _ = text := List.map_id text

/-- A canonical integer has no letters. -/
theorem eq_of_canonical {operand operand' : Bytes} {n : Int}
    (hoperand : Decimal.Canonical operand n)
    (hcase : operand.map toAsciiLowercase = operand'.map toAsciiLowercase) : operand' = operand := by
  rw [Decimal.canonical_iff] at hoperand
  have hspelling : ∀ b ∈ operand, b = 45 ∨ Decimal.isDigit b = true := by
    intro b hb
    exact Decimal.mem_ofInt (hoperand ▸ hb)
  have hself : operand.map toAsciiLowercase = operand :=
    map_toAsciiLowercase_eq_self fun b hb => toAsciiLowercase_of_spelling (hspelling b hb)
  rw [hself] at hcase
  have hself' : operand'.map toAsciiLowercase = operand' := by
    refine map_toAsciiLowercase_eq_self fun b hb => toAsciiLowercase_eq_self (hspelling _ ?_)
    rw [hcase]
    exact List.mem_map_of_mem hb
  rw [hcase, hself']

theorem SameButCase.nil {tokens : List Bytes} (hcase : SameButCase [] tokens) : tokens = [] :=
  List.map_eq_nil_iff.mp hcase.symm

theorem SameButCase.cons {token : Bytes} {rest tokens : List Bytes}
    (hcase : SameButCase (token :: rest) tokens) :
    ∃ token' rest', tokens = token' :: rest' ∧
      token.map toAsciiLowercase = token'.map toAsciiLowercase ∧ SameButCase rest rest' := by
  obtain ⟨token', rest', rfl, htoken, hrest⟩ := List.map_eq_cons_iff.mp hcase.symm
  exact ⟨token', rest', rfl, htoken.symm, hrest.symm⟩

theorem ConditionOption.congr {tokens tokens' : List Bytes} {condition : Condition}
    (hoption : ConditionOption tokens condition) (hcase : SameButCase tokens tokens') :
    ConditionOption tokens' condition := by
  cases hoption with
  | absent =>
      obtain rfl := hcase.nil
      exact .absent
  | nx hname =>
      obtain ⟨token, rest, rfl, htoken, hrest⟩ := hcase.cons
      obtain rfl := hrest.nil
      exact .nx (hname.congr htoken)
  | xx hname =>
      obtain ⟨token, rest, rfl, htoken, hrest⟩ := hcase.cons
      obtain rfl := hrest.nil
      exact .xx (hname.congr htoken)

theorem ExpiryOption.congr {tokens tokens' : List Bytes} {expiry : Expiry}
    (hoption : ExpiryOption tokens expiry) (hcase : SameButCase tokens tokens') :
    ExpiryOption tokens' expiry := by
  cases hoption with
  | absent =>
      obtain rfl := hcase.nil
      exact .absent
  | keepttl hname =>
      obtain ⟨token, rest, rfl, htoken, hrest⟩ := hcase.cons
      obtain rfl := hrest.nil
      exact .keepttl (hname.congr htoken)
  | ex hname hoperand hpos hmax =>
      obtain ⟨token, rest, rfl, htoken, hrest⟩ := hcase.cons
      obtain ⟨operand, rest, rfl, hsame, hrest⟩ := hrest.cons
      obtain rfl := hrest.nil
      obtain rfl := eq_of_canonical hoperand hsame
      exact .ex (hname.congr htoken) hoperand hpos hmax
  | px hname hoperand hpos hmax =>
      obtain ⟨token, rest, rfl, htoken, hrest⟩ := hcase.cons
      obtain ⟨operand, rest, rfl, hsame, hrest⟩ := hrest.cons
      obtain rfl := hrest.nil
      obtain rfl := eq_of_canonical hoperand hsame
      exact .px (hname.congr htoken) hoperand hpos hmax

theorem SameButCase.of_append {first second tokens : List Bytes}
    (hcase : SameButCase (first ++ second) tokens) :
    ∃ first' second', tokens = first' ++ second' ∧ SameButCase first first' ∧
      SameButCase second second' := by
  rw [SameButCase, List.map_append] at hcase
  obtain ⟨first', second', rfl, hfirst, hsecond⟩ := List.map_eq_append_iff.mp hcase.symm
  exact ⟨first', second', rfl, hfirst.symm, hsecond.symm⟩

theorem setOptions_congr {condition : Condition} {expiry : Expiry} {tokens tokens' : List Bytes}
    (hcase : SameButCase tokens tokens')
    (hoptions : setOptions .always .clear tokens = .ok (condition, expiry)) :
    setOptions .always .clear tokens' = .ok (condition, expiry) := by
  obtain ⟨conditions, expiries, hcondition, hexpiry, horder⟩ := setOptions_eq_ok.mp hoptions
  rcases horder with rfl | rfl
  · obtain ⟨conditions', expiries', rfl, hfirst, hsecond⟩ := hcase.of_append
    exact setOptions_eq_ok.mpr
      ⟨conditions', expiries', hcondition.congr hfirst, hexpiry.congr hsecond, .inl rfl⟩
  · obtain ⟨expiries', conditions', rfl, hfirst, hsecond⟩ := hcase.of_append
    exact setOptions_eq_ok.mpr
      ⟨conditions', expiries', hcondition.congr hsecond, hexpiry.congr hfirst, .inr rfl⟩

/-! ### HELLO -/

theorem clientName_eq_ok {limits : ParseLimits} {name : Bytes} :
    clientName name limits = .ok () ↔ ValidName limits name := by
  unfold clientName ValidName
  split
  · next hbad =>
      refine ⟨nofun, fun ⟨hlength, hbytes⟩ => ?_⟩
      rcases hbad with hlong | hany
      · omega
      · obtain ⟨b, hb, hout⟩ := List.any_eq_true.mp hany
        exact absurd (hbytes b hb) (of_decide_eq_true hout)
  · next hgood =>
      rw [not_or] at hgood
      refine ⟨fun _ => ⟨Nat.not_lt.mp hgood.1, fun b hb => ?_⟩, fun _ => rfl⟩
      by_contra hout
      exact hgood.2 (List.any_eq_true.mpr ⟨b, hb, decide_eq_true hout⟩)

theorem helloOptions_auth {limits : ParseLimits} {tokens : List Bytes}
    {auth : Option (Bytes × Bytes)} (hoption : AuthOption tokens auth) (name : Option Bytes)
    (rest : List Bytes) :
    helloOptions limits none name (tokens ++ rest) = helloOptions limits auth name rest := by
  cases hoption with
  | absent => rfl
  | auth hname username password =>
      have hauth : eqIgnoreAsciiCase _ _ = true := hname
      simp [helloOptions, hauth]

theorem helloOptions_name {limits : ParseLimits} {tokens : List Bytes} {name : Option Bytes}
    (hoption : NameOption limits tokens name) (auth : Option (Bytes × Bytes)) (rest : List Bytes) :
    helloOptions limits auth none (tokens ++ rest) = helloOptions limits auth name rest := by
  cases hoption with
  | absent => rfl
  | setname hname hvalid =>
      have hsetname : eqIgnoreAsciiCase _ _ = true := hname
      have hauth := @spells_false _ _ "auth" hname (by decide)
      have hclient := clientName_eq_ok.mpr hvalid
      cases rest with
      | nil => simp [helloOptions, hsetname, hclient, bind, Except.bind, pure, Except.pure]
      | cons second rest => simp [helloOptions, hsetname, hauth, hclient, bind, Except.bind]

theorem groups_of_helloOptions {limits : ParseLimits} {auth auth' : Option (Bytes × Bytes)}
    {name name' : Option Bytes} {tokens : List Bytes}
    (hoptions : helloOptions limits auth name tokens = .ok (auth', name')) :
    Groups none none AuthOption (NameOption limits) auth name tokens auth' name' := by
  fun_induction helloOptions limits auth name tokens with
  | case1 =>
      cases hoptions
      exact .nil
  | case2 => cases hoptions
  | case3 auth name option first hname =>
      obtain ⟨hsetname, hunset⟩ := hname
      obtain rfl := Option.isNone_iff_eq_none.mp hunset
      obtain ⟨_, hclient, hrest⟩ := bind_eq_ok.mp hoptions
      cases hrest
      exact .cons_second (NameOption.setname hsetname (clientName_eq_ok.mp hclient)) (by simp) .nil
  | case4 => cases hoptions
  | case5 auth name option first second rest hname ih =>
      obtain ⟨hauth, hunset⟩ := hname
      obtain rfl := Option.isNone_iff_eq_none.mp hunset
      exact .cons_first (AuthOption.auth hauth first second) (by simp) (ih hoptions)
  | case6 auth name option first second rest hauth hname ih =>
      obtain ⟨hsetname, hunset⟩ := hname
      obtain rfl := Option.isNone_iff_eq_none.mp hunset
      obtain ⟨_, hclient, hrest⟩ := bind_eq_ok.mp hoptions
      exact .cons_second (NameOption.setname hsetname (clientName_eq_ok.mp hclient)) (by simp)
        (ih hrest)
  | case7 => cases hoptions

theorem helloOptions_eq_ok {limits : ParseLimits} {auth : Option (Bytes × Bytes)}
    {name : Option Bytes} {tokens : List Bytes} :
    helloOptions limits none none tokens = .ok (auth, name) ↔
      ∃ auths names, AuthOption auths auth ∧ NameOption limits names name ∧
        InEitherOrder auths names tokens := by
  constructor
  · intro hoptions
    exact (groups_of_helloOptions hoptions).start .absent .absent
  · rintro ⟨auths, names, hauth, hname, rfl | rfl⟩
    · have hlast := helloOptions_name hname auth []
      rw [List.append_nil] at hlast
      rw [helloOptions_auth hauth, hlast, helloOptions]
    · have hlast := @helloOptions_auth limits _ _ hauth name []
      rw [List.append_nil] at hlast
      rw [helloOptions_name hname, hlast, helloOptions]

theorem helloProtocol_eq_ok {argument : Option Bytes} {protocol : Option I64} :
    helloProtocol argument = .ok protocol ↔ ProtocolArgument argument protocol := by
  cases argument with
  | none =>
      simp only [helloProtocol, ProtocolArgument, Except.ok.injEq]
      exact eq_comm
  | some argument =>
      constructor
      · intro hprotocol
        obtain ⟨n, hargument, rfl⟩ := map_eq_ok.mp hprotocol
        exact ⟨n, integerArgument_eq_ok.mp hargument, rfl⟩
      · rintro ⟨n, hcanonical, rfl⟩
        exact map_eq_ok.mpr ⟨n, integerArgument_eq_ok.mpr hcanonical, rfl⟩

theorem parseSet_eq_ok {name key value : Bytes} {options : List Bytes} {operation : Operation} :
    parseSet (name :: key :: value :: options) = .ok operation ↔
      ∃ condition expiry, setOptions .always .clear options = .ok (condition, expiry) ∧
        operation = .set key value condition expiry := by
  constructor
  · intro hparse
    obtain ⟨⟨condition, expiry⟩, hoptions, hrest⟩ := bind_eq_ok.mp hparse
    cases hrest
    exact ⟨condition, expiry, hoptions, rfl⟩
  · rintro ⟨condition, expiry, hoptions, rfl⟩
    exact bind_eq_ok.mpr ⟨(condition, expiry), hoptions, rfl⟩

/-- `SET` and `HELLO` accept at most one group of each kind in either order, return what the groups
say, and read option names in any case and operands verbatim. -/
theorem options_exact :
    (∀ (a : List Bytes) (operation : Operation), 3 ≤ a.length →
      (parseSet a = .ok operation ↔ ∃ key value condition expiry conditions expiries,
        a[1]? = some key ∧ a[2]? = some value ∧ ConditionOption conditions condition ∧
        ExpiryOption expiries expiry ∧ InEitherOrder conditions expiries (a.drop 3) ∧
        operation = .set key value condition expiry)) ∧
    (∀ (name key value : Bytes) conditions expiries condition expiry,
      ConditionOption conditions condition → ExpiryOption expiries expiry →
        parseSet (name :: key :: value :: (conditions ++ expiries)) =
            .ok (.set key value condition expiry) ∧
          parseSet (name :: key :: value :: (expiries ++ conditions)) =
            .ok (.set key value condition expiry)) ∧
    (∀ (name key value : Bytes) options options' operation, SameButCase options options' →
      (parseSet (name :: key :: value :: options) = .ok operation ↔
        parseSet (name :: key :: value :: options') = .ok operation)) ∧
    ∀ (a : List Bytes) (limits : ParseLimits) (command : Command),
      parseHello a limits = .ok command ↔ ∃ protocol auth name auths names,
        ProtocolArgument a[1]? protocol ∧ AuthOption auths auth ∧ NameOption limits names name ∧
        InEitherOrder auths names (a.drop 2) ∧ command = .hello protocol auth name := by
  refine ⟨?_, ?_, ?_, ?_⟩
  · intro a operation hlength
    match a, hlength with
    | _ :: key :: value :: options, _ =>
        rw [parseSet_eq_ok]
        constructor
        · rintro ⟨condition, expiry, hoptions, rfl⟩
          obtain ⟨conditions, expiries, hcondition, hexpiry, horder⟩ := setOptions_eq_ok.mp hoptions
          exact ⟨key, value, condition, expiry, conditions, expiries, rfl, rfl, hcondition, hexpiry,
            horder, rfl⟩
        · rintro ⟨_, _, condition, expiry, conditions, expiries, hkey, hvalue, hcondition, hexpiry,
            horder, rfl⟩
          cases hkey
          cases hvalue
          exact ⟨condition, expiry,
            setOptions_eq_ok.mpr ⟨conditions, expiries, hcondition, hexpiry, horder⟩, rfl⟩
  · intro name key value conditions expiries condition expiry hcondition hexpiry
    constructor
    · exact parseSet_eq_ok.mpr ⟨condition, expiry,
        setOptions_eq_ok.mpr ⟨conditions, expiries, hcondition, hexpiry, .inl rfl⟩, rfl⟩
    · exact parseSet_eq_ok.mpr ⟨condition, expiry,
        setOptions_eq_ok.mpr ⟨conditions, expiries, hcondition, hexpiry, .inr rfl⟩, rfl⟩
  · intro name key value options options' operation hcase
    rw [parseSet_eq_ok, parseSet_eq_ok]
    constructor
    · rintro ⟨condition, expiry, hoptions, rfl⟩
      exact ⟨condition, expiry, setOptions_congr hcase hoptions, rfl⟩
    · rintro ⟨condition, expiry, hoptions, rfl⟩
      exact ⟨condition, expiry, setOptions_congr hcase.symm hoptions, rfl⟩
  · intro a limits command
    constructor
    · intro hparse
      obtain ⟨protocol, hprotocol, hrest⟩ := bind_eq_ok.mp hparse
      obtain ⟨⟨auth, name⟩, hoptions, hcommand⟩ := bind_eq_ok.mp hrest
      cases hcommand
      obtain ⟨auths, names, hauth, hname, horder⟩ := helloOptions_eq_ok.mp hoptions
      exact ⟨protocol, auth, name, auths, names, helloProtocol_eq_ok.mp hprotocol, hauth, hname,
        horder, rfl⟩
    · rintro ⟨protocol, auth, name, auths, names, hprotocol, hauth, hname, horder, rfl⟩
      refine bind_eq_ok.mpr ⟨protocol, helloProtocol_eq_ok.mpr hprotocol, ?_⟩
      refine bind_eq_ok.mpr ⟨(auth, name), ?_, rfl⟩
      exact helloOptions_eq_ok.mpr ⟨auths, names, hauth, hname, horder⟩

/-- `HELLO 3 setname AUTH auth SETNAME NX`: three operands spell option names. -/
theorem options_exact_operands :
    parseHello [ascii "HELLO", ascii "3", ascii "setname", ascii "AUTH", ascii "auth",
        ascii "SETNAME", ascii "NX"] .default =
      .ok (.hello (some (I64.saturate 3)) (some (ascii "SETNAME", ascii "NX"))
        (some (ascii "AUTH"))) := by
  refine (options_exact.2.2.2 _ _ _).mpr ⟨_, _, _, [ascii "auth", ascii "SETNAME", ascii "NX"],
    [ascii "setname", ascii "AUTH"], ⟨I64.saturate 3, ?_, rfl⟩, .auth ?_ _ _, .setname ?_ ?_,
    .inr rfl, rfl⟩
  · exact Decimal.canonical_iff.mpr (by decide +kernel)
  · exact show eqIgnoreAsciiCase _ _ = true by decide
  · exact show eqIgnoreAsciiCase _ _ = true by decide
  · refine ⟨by decide, fun byte hbyte => ?_⟩
    have hall : (ascii "AUTH").all (fun byte => 33 ≤ byte && byte ≤ 126) = true := by decide
    simpa using List.all_eq_true.mp hall byte hbyte

end Recall
