import Recall.Operation
import Recall.Proof.Reply

/-!
# Replies on the wire

What `encode` appends, that `encodedLen` is its length, and that a stream of replies can be cut into
replies in one way only. A reply on the wire is a tag, a line without carriage returns, and a body
whose end the line announces.
-/

namespace Recall

theorem length_ofNat (n : Nat) : (Decimal.ofNat n).length = decimalDigits n := by
  induction n using Nat.strong_induction_on with
  | _ n ih =>
      rw [decimalDigits]
      split
      · next hn =>
          rw [Decimal.ofNat_of_lt hn]
          rfl
      · next hn =>
          rw [Decimal.ofNat_of_ge (by omega), List.length_append, ih (n / 10) (by omega)]
          rfl

theorem length_ofInt (n : Int) :
    (Decimal.ofInt n).length = decimalDigits n.natAbs + if n < 0 then 1 else 0 := by
  unfold Decimal.ofInt
  split
  · rw [List.length_cons, length_ofNat]
  · rw [length_ofNat, Nat.add_zero]

theorem length_toBytes_le (value : I64) : value.toBytes.length ≤ 20 := by
  have hlower := value.lower
  have hupper := value.upper
  have hdigits : decimalDigits value.val.natAbs ≤ 19 := decimalDigits_le (by omega) (by omega)
  rw [I64.toBytes, length_ofInt]
  split <;> omega

namespace Reply

/-- The bytes of a reply. -/
def wire (reply : Reply) : Bytes := reply.encode []

mutual

theorem encode_eq (output : Bytes) (reply : Reply) : reply.encode output = output ++ reply.wire := by
  cases reply with
  | simple value => simp [wire, encode]
  | error value => simp [wire, encode]
  | integer value => simp [wire, encode]
  | bulk value => cases value <;> simp [wire, encode]
  | array values =>
      rw [wire, encode, encode, encodeAll_eq, encodeAll_eq]
      simp

theorem encodeAll_eq (output : Bytes) (values : List Reply) :
    encodeAll output values = output ++ values.flatMap wire := by
  cases values with
  | nil => simp [encodeAll]
  | cons value values =>
      rw [encodeAll, encodeAll_eq, encode_eq, List.flatMap_cons, List.append_assoc]

end

/-! ### Tag, line and body -/

def tag : Reply → UInt8
  | .simple _ => 43
  | .error _ => 45
  | .integer _ => 58
  | .bulk _ => 36
  | .array _ => 42

def headline : Reply → Bytes
  | .simple value | .error value => value
  | .integer value => Decimal.ofInt value.val
  | .bulk none => Decimal.ofInt (-1)
  | .bulk (some value) => Decimal.ofNat value.length
  | .array values => Decimal.ofNat values.length

def body : Reply → Bytes
  | .simple _ | .error _ | .integer _ | .bulk none => []
  | .bulk (some value) => value ++ crlf
  | .array values => values.flatMap wire

theorem wire_eq (reply : Reply) :
    reply.wire = reply.tag :: (reply.headline ++ 13 :: 10 :: reply.body) := by
  cases reply with
  | simple value => simp [wire, encode, tag, headline, body, crlf]
  | error value => simp [wire, encode, tag, headline, body, crlf]
  | integer value => simp [wire, encode, tag, headline, body, crlf]
  | bulk value =>
      cases value with
      | none =>
          have hminus : Decimal.ofInt (-1) = [45, 49] := by
            rw [Decimal.ofInt, if_pos (by omega)]
            exact congrArg (List.cons 45) (Decimal.ofNat_of_lt (by decide))
          simp [wire, encode, tag, headline, body, ascii, hminus]
      | some value => simp [wire, encode, tag, headline, body, crlf]
  | array values =>
      rw [wire, encode, encodeAll_eq]
      simp [tag, headline, body, crlf]

mutual

theorem length_wire (reply : Reply) : reply.wire.length = reply.wireLen := by
  cases reply with
  | simple value => simp [wire_eq, headline, body, wireLen]
  | error value => simp [wire_eq, headline, body, wireLen]
  | integer value =>
      simp only [wire_eq, headline, body, wireLen, List.length_cons, List.length_append,
        List.length_nil, length_ofInt]
      omega
  | bulk value =>
      cases value with
      | none => rfl
      | some value =>
          simp only [wire_eq, headline, body, wireLen, List.length_cons, List.length_append,
            List.length_nil, length_ofNat, crlf]
          omega
  | array values =>
      simp only [wire_eq, headline, body, wireLen, List.length_cons, List.length_append,
        length_ofNat, length_flatMap_wire values]
      omega

theorem length_flatMap_wire (values : List Reply) :
    (values.flatMap wire).length = wireLenAll values := by
  cases values with
  | nil => rfl
  | cons value values =>
      rw [List.flatMap_cons, List.length_append, length_wire, length_flatMap_wire, wireLenAll]

end

theorem encodedLen_exact (reply : Reply) (output : Bytes) :
    reply.encode output = output ++ reply.encode [] ∧
      (∀ length, reply.encodedLen = some length ↔
        (reply.encode []).length = length ∧ length ≤ usizeMax) ∧
      (reply.encodedLen = none ↔ usizeMax < (reply.encode []).length) := by
  refine ⟨encode_eq output reply, fun length => ?_, ?_⟩
  · change reply.encodedLen = some length ↔ reply.wire.length = length ∧ length ≤ usizeMax
    rw [encodedLen_eq, length_wire]
    split <;> simp <;> omega
  · change reply.encodedLen = none ↔ usizeMax < reply.wire.length
    rw [encodedLen_eq, length_wire]
    split <;> simp <;> omega

/-! ### One reading only -/

mutual

/-- The simple strings and errors of a reply, at any depth. -/
def texts : Reply → List Bytes
  | .simple value | .error value => [value]
  | .integer _ | .bulk _ => []
  | .array values => textsAll values

def textsAll : List Reply → List Bytes
  | [] => []
  | value :: values => texts value ++ textsAll values

end

/-- No text of the reply breaks a line. -/
def Clean (reply : Reply) : Prop := ∀ text ∈ reply.texts, 13 ∉ text ∧ 10 ∉ text

instance (reply : Reply) : Decidable reply.Clean :=
  inferInstanceAs (Decidable (∀ text ∈ reply.texts, 13 ∉ text ∧ 10 ∉ text))

theorem mem_textsAll {values : List Reply} {text : Bytes} :
    text ∈ textsAll values ↔ ∃ value ∈ values, text ∈ value.texts := by
  induction values with
  | nil => simp [textsAll]
  | cons value values ih => simp [textsAll, ih]

theorem clean_array {values : List Reply} :
    (Reply.array values).Clean ↔ ∀ value ∈ values, value.Clean := by
  constructor
  · intro hclean value hvalue text htext
    exact hclean text (mem_textsAll.mpr ⟨value, hvalue, htext⟩)
  · intro hclean text htext
    obtain ⟨value, hvalue, htext⟩ := mem_textsAll.mp htext
    exact hclean value hvalue text htext

theorem return_notMem_ofNat (n : Nat) : 13 ∉ Decimal.ofNat n := by
  intro hmem
  have hdigit := Decimal.isDigit_of_mem_ofNat hmem
  cases hdigit

theorem return_notMem_ofInt (n : Int) : 13 ∉ Decimal.ofInt n := by
  intro hmem
  rcases Decimal.mem_ofInt hmem with hsign | hdigit
  · cases hsign
  · cases hdigit

theorem Clean.return_notMem {reply : Reply} (hclean : reply.Clean) : 13 ∉ reply.headline := by
  cases reply with
  | simple value => exact (hclean value (List.mem_singleton_self _)).1
  | error value => exact (hclean value (List.mem_singleton_self _)).1
  | integer value => exact return_notMem_ofInt _
  | bulk value =>
      cases value with
      | none => exact return_notMem_ofInt _
      | some value => exact return_notMem_ofNat _
  | array values => exact return_notMem_ofNat _

/-- The first delimiter ends what stands before it. -/
theorem append_cons_inj {α : Type} {a : α} {left right x y : List α} (hleft : a ∉ left)
    (hright : a ∉ right) (heq : left ++ a :: x = right ++ a :: y) : left = right ∧ x = y := by
  induction left generalizing right with
  | nil =>
      cases right with
      | nil => exact ⟨rfl, (List.cons.inj heq).2⟩
      | cons b right =>
          obtain ⟨rfl, -⟩ := List.cons.inj heq
          exact absurd List.mem_cons_self hright
  | cons b left ih =>
      cases right with
      | nil =>
          obtain ⟨rfl, -⟩ := List.cons.inj heq
          exact absurd List.mem_cons_self hleft
      | cons c right =>
          obtain ⟨rfl, htail⟩ := List.cons.inj heq
          obtain ⟨rfl, rfl⟩ := ih (fun h => hleft (List.mem_cons_of_mem _ h))
            (fun h => hright (List.mem_cons_of_mem _ h)) htail
          exact ⟨rfl, rfl⟩

theorem headline_inj {a b : Reply} (ha : a.Clean) (hb : b.Clean) {x y : Bytes}
    (heq : a.wire ++ x = b.wire ++ y) :
    a.tag = b.tag ∧ a.headline = b.headline ∧ a.body ++ x = b.body ++ y := by
  simp only [wire_eq, List.cons_append, List.append_assoc, List.cons.injEq] at heq
  obtain ⟨htag, hrest⟩ := heq
  obtain ⟨hline, htail⟩ := append_cons_inj ha.return_notMem hb.return_notMem hrest
  exact ⟨htag, hline, (List.cons.inj htail).2⟩

mutual

/-- A reply in front of other bytes determines itself and them. -/
theorem wire_append_inj (a b : Reply) (ha : a.Clean) (hb : b.Clean) {x y : Bytes}
    (heq : a.wire ++ x = b.wire ++ y) : a = b ∧ x = y := by
  obtain ⟨htag, hline, hbody⟩ := headline_inj ha hb heq
  cases a with
  | simple value =>
      cases b with
      | simple value' => exact ⟨congrArg simple hline, hbody⟩
      | _ => cases htag
  | error value =>
      cases b with
      | error value' => exact ⟨congrArg error hline, hbody⟩
      | _ => cases htag
  | integer value =>
      cases b with
      | integer value' => exact ⟨congrArg integer (I64.val_injective (Decimal.ofInt_injective hline)), hbody⟩
      | _ => cases htag
  | bulk value =>
      cases b with
      | bulk value' =>
          cases value with
          | none =>
              cases value' with
              | none => exact ⟨rfl, hbody⟩
              | some value' => exact absurd hline (Decimal.ofInt_ne_ofNat (by omega) _)
          | some value =>
              cases value' with
              | none => exact absurd hline.symm (Decimal.ofInt_ne_ofNat (by omega) _)
              | some value' =>
                  have hlength := Decimal.ofNat_injective hline
                  simp only [body, List.append_assoc] at hbody
                  obtain ⟨rfl, hrest⟩ := List.append_inj hbody hlength
                  exact ⟨rfl, List.append_cancel_left hrest⟩
      | _ => cases htag
  | array values =>
      cases b with
      | array values' =>
          obtain ⟨rfl, hrest⟩ := flatMap_wire_append_inj values values' (clean_array.mp ha)
            (clean_array.mp hb) (Decimal.ofNat_injective hline) hbody
          exact ⟨rfl, hrest⟩
      | _ => cases htag

theorem flatMap_wire_append_inj (as bs : List Reply) (ha : ∀ a ∈ as, a.Clean)
    (hb : ∀ b ∈ bs, b.Clean) (hlength : as.length = bs.length) {x y : Bytes}
    (heq : as.flatMap wire ++ x = bs.flatMap wire ++ y) : as = bs ∧ x = y := by
  cases as with
  | nil =>
      obtain rfl := List.eq_nil_of_length_eq_zero hlength.symm
      exact ⟨rfl, heq⟩
  | cons a as =>
      obtain ⟨b, bs, rfl⟩ := List.exists_cons_of_length_eq_add_one hlength.symm
      simp only [List.flatMap_cons, List.append_assoc] at heq
      obtain ⟨rfl, hrest⟩ := wire_append_inj a b (ha a List.mem_cons_self)
        (hb b List.mem_cons_self) heq
      obtain ⟨rfl, htail⟩ := flatMap_wire_append_inj as bs
        (fun c hc => ha c (List.mem_cons_of_mem _ hc))
        (fun c hc => hb c (List.mem_cons_of_mem _ hc)) (Nat.succ.inj hlength) hrest
      exact ⟨rfl, htail⟩

end

theorem wire_ne_nil (reply : Reply) : reply.wire ≠ [] := by
  rw [wire_eq]
  exact List.cons_ne_nil _ _

/-- A stream of replies can be cut into replies in one way only. -/
theorem flatMap_wire_inj {as bs : List Reply} (ha : ∀ a ∈ as, a.Clean) (hb : ∀ b ∈ bs, b.Clean)
    (heq : as.flatMap wire = bs.flatMap wire) : as = bs := by
  induction as generalizing bs with
  | nil =>
      cases bs with
      | nil => rfl
      | cons b bs =>
          have hnil := (List.append_eq_nil_iff.mp heq.symm).1
          exact absurd hnil b.wire_ne_nil
  | cons a as ih =>
      cases bs with
      | nil =>
          have hnil := (List.append_eq_nil_iff.mp heq).1
          exact absurd hnil a.wire_ne_nil
      | cons b bs =>
          obtain ⟨rfl, hrest⟩ := wire_append_inj a b (ha a List.mem_cons_self)
            (hb b List.mem_cons_self) heq
          rw [ih (fun c hc => ha c (List.mem_cons_of_mem _ hc))
            (fun c hc => hb c (List.mem_cons_of_mem _ hc)) hrest]

end Reply

end Recall
