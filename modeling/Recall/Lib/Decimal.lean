import Mathlib.Data.List.Induction
import Mathlib.Data.Nat.Digits.Defs
import Mathlib.Tactic.Common

/-!
# ASCII decimals

The decimal spelling of a number as bytes, and the number a string of digits denotes.
-/

namespace Decimal

def digit (d : Nat) : UInt8 := UInt8.ofNat (48 + d)

/-- The shortest spelling, most significant digit first. -/
def ofNat (n : Nat) : List UInt8 :=
  if n = 0 then [48] else (Nat.digits 10 n).reverse.map digit

/-- A leading `-` for negative numbers, no sign otherwise. -/
def ofInt (n : Int) : List UInt8 :=
  if n < 0 then 45 :: ofNat n.natAbs else ofNat n.natAbs

def isDigit (b : UInt8) : Bool := 48 ≤ b && b ≤ 57

def digitValue (b : UInt8) : Nat := b.toNat - 48

/-- Appends digits to a number. -/
def valueFrom (total : Nat) (digits : List UInt8) : Nat :=
  digits.foldl (fun total b => total * 10 + digitValue b) total

/-- The number a string of digits denotes, leading zeros allowed. -/
def value (digits : List UInt8) : Nat := valueFrom 0 digits

theorem le_valueFrom (digits : List UInt8) (total : Nat) : total ≤ valueFrom total digits := by
  induction digits generalizing total with
  | nil => exact le_refl _
  | cons b digits ih =>
      calc
        total ≤ total * 10 + digitValue b := by omega
        _ ≤ valueFrom (total * 10 + digitValue b) digits := ih _

theorem isDigit_iff {b : UInt8} : isDigit b = true ↔ 48 ≤ b.toNat ∧ b.toNat ≤ 57 := by
  rw [isDigit, Bool.and_eq_true, decide_eq_true_eq, decide_eq_true_eq, UInt8.le_iff_toNat_le,
    UInt8.le_iff_toNat_le]
  exact Iff.rfl

theorem isDigit_ne {b c : UInt8} (hdigit : isDigit b = true) (hc : isDigit c = false) : b ≠ c := by
  rintro rfl
  rw [hdigit] at hc
  cases hc

/-! ### The spelling of a number -/

theorem ofNat_of_lt {n : Nat} (hn : n < 10) : ofNat n = [digit n] := by
  unfold ofNat
  split
  · next hzero =>
      rw [hzero]
      rfl
  · next hzero =>
      rw [Nat.digits_of_lt 10 n hzero hn]
      rfl

theorem ofNat_of_ge {n : Nat} (hn : 10 ≤ n) : ofNat n = ofNat (n / 10) ++ [digit (n % 10)] := by
  have hzero : n ≠ 0 := by omega
  have hdiv : n / 10 ≠ 0 := by omega
  rw [ofNat, ofNat, if_neg hzero, if_neg hdiv, Nat.digits_def' (by omega) (by omega)]
  simp

theorem digit_toNat {d : Nat} (hd : d < 10) : (digit d).toNat = 48 + d := by
  rw [digit, UInt8.toNat_ofNat']
  omega

theorem isDigit_digit {d : Nat} (hd : d < 10) : isDigit (digit d) = true := by
  rw [isDigit_iff, digit_toNat hd]
  omega

theorem isDigit_of_mem_ofNat {n : Nat} {b : UInt8} (hb : b ∈ ofNat n) : isDigit b = true := by
  induction n using Nat.strong_induction_on with
  | _ n ih =>
      rcases Nat.lt_or_ge n 10 with hn | hn
      · rw [ofNat_of_lt hn, List.mem_singleton] at hb
        rw [hb]
        exact isDigit_digit hn
      · rw [ofNat_of_ge hn, List.mem_append, List.mem_singleton] at hb
        rcases hb with hb | rfl
        · exact ih (n / 10) (by omega) hb
        · exact isDigit_digit (Nat.mod_lt n (by omega))

theorem valueFrom_append (total : Nat) (first second : List UInt8) :
    valueFrom total (first ++ second) = valueFrom (valueFrom total first) second :=
  List.foldl_append

theorem value_ofNat (n : Nat) : value (ofNat n) = n := by
  induction n using Nat.strong_induction_on with
  | _ n ih =>
      rcases Nat.lt_or_ge n 10 with hn | hn
      · rw [ofNat_of_lt hn]
        change 0 * 10 + ((digit n).toNat - 48) = n
        rw [digit_toNat hn]
        omega
      · rw [ofNat_of_ge hn, value, valueFrom_append]
        change value (ofNat (n / 10)) * 10 + ((digit (n % 10)).toNat - 48) = n
        rw [ih (n / 10) (by omega), digit_toNat (Nat.mod_lt n (by omega))]
        omega

theorem ofNat_injective : Function.Injective ofNat := by
  intro m n hmn
  rw [← value_ofNat m, hmn, value_ofNat]

theorem minus_notMem_ofNat (n : Nat) : 45 ∉ ofNat n := by
  intro hmem
  have hdigit := isDigit_of_mem_ofNat hmem
  cases hdigit

theorem ofInt_ne_ofNat {m : Int} (hm : m < 0) (n : Nat) : ofInt m ≠ ofNat n := by
  intro heq
  rw [ofInt, if_pos hm] at heq
  exact minus_notMem_ofNat n (heq ▸ List.mem_cons_self)

theorem ofInt_injective : Function.Injective ofInt := by
  intro m n hmn
  unfold ofInt at hmn
  split at hmn <;> split at hmn
  · have habs := ofNat_injective (List.cons.inj hmn).2
    omega
  · exact absurd (hmn ▸ List.mem_cons_self) (minus_notMem_ofNat _)
  · exact absurd (hmn ▸ List.mem_cons_self) (minus_notMem_ofNat _)
  · have habs := ofNat_injective hmn
    omega

theorem mem_ofInt {n : Int} {b : UInt8} (hb : b ∈ ofInt n) : b = 45 ∨ isDigit b = true := by
  unfold ofInt at hb
  split at hb
  · rcases List.mem_cons.mp hb with rfl | hb
    · exact .inl rfl
    · exact .inr (isDigit_of_mem_ofNat hb)
  · exact .inr (isDigit_of_mem_ofNat hb)

/-! ### Canonical spellings -/

/-- At least one digit, nothing but digits, and no zero in front of another digit. -/
structure Plain (digits : List UInt8) : Prop where
  nonempty : digits ≠ []
  all_digits : ∀ b ∈ digits, isDigit b = true
  leading : digits.head? = some 48 → digits = [48]

/-- The text spells the number: plain digits, with a `-` in front for a negative number only. -/
def Canonical (text : List UInt8) (n : Int) : Prop :=
  (Plain text ∧ n = value text) ∨
    ∃ digits, text = 45 :: digits ∧ Plain digits ∧ digits ≠ [48] ∧ n = -(value digits : Int)

theorem value_append_singleton (digits : List UInt8) (b : UInt8) :
    value (digits ++ [b]) = value digits * 10 + digitValue b :=
  valueFrom_append 0 digits [b]

theorem digitValue_lt {b : UInt8} (hdigit : isDigit b = true) : digitValue b < 10 := by
  obtain ⟨-, hupper⟩ := isDigit_iff.mp hdigit
  rw [digitValue]
  omega

theorem digit_digitValue {b : UInt8} (hdigit : isDigit b = true) : digit (digitValue b) = b := by
  obtain ⟨hlower, -⟩ := isDigit_iff.mp hdigit
  rw [digit, digitValue, Nat.add_sub_cancel' hlower]
  exact UInt8.ofNat_toNat

theorem ofNat_zero : ofNat 0 = [48] := rfl

/-- Digits without a leading zero are the shortest spelling of their value. -/
theorem ofNat_value {digits : List UInt8} (hplain : Plain digits) :
    ofNat (value digits) = digits := by
  induction digits using List.reverseRecOn with
  | nil => exact absurd rfl hplain.nonempty
  | append_singleton front b ih =>
      have hb := hplain.all_digits b (List.mem_append_right front List.mem_cons_self)
      rw [value_append_singleton]
      cases front with
      | nil =>
          rw [List.nil_append, show value [] = 0 from rfl, Nat.zero_mul, Nat.zero_add,
            ofNat_of_lt (digitValue_lt hb), digit_digitValue hb]
      | cons first front =>
          have hfirst : first ≠ 48 := by
            rintro rfl
            have hsingle := hplain.leading rfl
            simp at hsingle
          have hfront : Plain (first :: front) := by
            refine ⟨nofun, fun c hc => hplain.all_digits c (List.mem_append_left _ hc), ?_⟩
            intro hhead
            exact absurd (Option.some.inj hhead) hfirst
          have hvalue := ih hfront
          have hpos : value (first :: front) ≠ 0 := by
            intro hzero
            rw [hzero, ofNat_zero] at hvalue
            exact hfirst (List.cons.inj hvalue).1.symm
          have hlast := digitValue_lt hb
          have hdiv : (value (first :: front) * 10 + digitValue b) / 10 = value (first :: front) := by
            omega
          have hmod : (value (first :: front) * 10 + digitValue b) % 10 = digitValue b := by omega
          rw [ofNat_of_ge (by omega), hdiv, hmod, hvalue, digit_digitValue hb]

theorem ofNat_ne_nil (n : Nat) : ofNat n ≠ [] := by
  intro hnil
  have hvalue := value_ofNat n
  rw [hnil] at hvalue
  rw [← hvalue] at hnil
  cases hnil

theorem plain_ofNat (n : Nat) : Plain (ofNat n) := by
  refine ⟨ofNat_ne_nil n, fun b hb => isDigit_of_mem_ofNat hb, ?_⟩
  intro hhead
  induction n using Nat.strong_induction_on with
  | _ n ih =>
      rcases Nat.lt_or_ge n 10 with hn | hn
      · rw [ofNat_of_lt hn] at hhead ⊢
        rw [Option.some.inj hhead]
      · obtain ⟨first, front, hfront⟩ := List.exists_cons_of_ne_nil (ofNat_ne_nil (n / 10))
        have hfirst : (ofNat (n / 10)).head? = some 48 := by
          rw [ofNat_of_ge hn, hfront] at hhead
          rw [hfront]
          exact hhead
        have hzero := ofNat_injective ((ih (n / 10) (by omega) hfirst).trans ofNat_zero.symm)
        omega

theorem canonical_iff {text : List UInt8} {n : Int} : Canonical text n ↔ text = ofInt n := by
  constructor
  · rintro (⟨hplain, rfl⟩ | ⟨digits, rfl, hplain, hzero, rfl⟩)
    · rw [ofInt, if_neg (by omega), Int.natAbs_natCast, ofNat_value hplain]
    · have hpos : value digits ≠ 0 := by
        intro hvalue
        refine hzero ?_
        rw [← ofNat_value hplain, hvalue, ofNat_zero]
      rw [ofInt, if_pos (by omega), Int.natAbs_neg, Int.natAbs_natCast, ofNat_value hplain]
  · rintro rfl
    unfold ofInt
    split
    · next hneg =>
        refine .inr ⟨_, rfl, plain_ofNat _, ?_, ?_⟩
        · intro hzero
          have habs := ofNat_injective (hzero.trans ofNat_zero.symm)
          omega
        · rw [value_ofNat]
          omega
    · next hneg =>
        refine .inl ⟨plain_ofNat _, ?_⟩
        rw [value_ofNat]
        omega

end Decimal
