import Recall.Reply

/-!
# The length of a reply

`encodedLen` with its overflow checks taken out: the length in unbounded arithmetic, and how replies
compare by it.
-/

namespace Recall

theorem decimalDigits_le {k n : Nat} (hk : 0 < k) (hn : n < 10 ^ k) : decimalDigits n ≤ k := by
  induction k generalizing n with
  | zero => exact absurd hk (lt_irrefl 0)
  | succ k ih =>
      rw [decimalDigits]
      split
      · omega
      · have hpos : 0 < k := by
          apply Nat.pos_of_ne_zero
          rintro rfl
          omega
        have hdiv : n / 10 < 10 ^ k := by
          apply Nat.div_lt_of_lt_mul
          rwa [mul_comm, ← pow_succ]
        exact Nat.succ_le_succ (ih hpos hdiv)

theorem decimalDigits_mono {m n : Nat} (hmn : m ≤ n) : decimalDigits m ≤ decimalDigits n := by
  induction n using Nat.strong_induction_on generalizing m with
  | _ n ih =>
      rw [decimalDigits, decimalDigits.eq_def n]
      by_cases hm : m < 10
      · rw [if_pos hm]
        split <;> omega
      · rw [if_neg hm, if_neg (by omega)]
        exact Nat.succ_le_succ (ih (n / 10) (by omega) (by omega))

namespace Reply

mutual

/-- The length of the encoding, however long. -/
def wireLen : Reply → Nat
  | .simple value => value.length + 3
  | .error value => value.length + 3
  | .integer value => decimalDigits value.val.natAbs + (3 + if value.val < 0 then 1 else 0)
  | .bulk none => 5
  | .bulk (some value) => decimalDigits value.length + 5 + value.length
  | .array values => decimalDigits values.length + 3 + wireLenAll values

def wireLenAll : List Reply → Nat
  | [] => 0
  | value :: values => wireLen value + wireLenAll values

end

mutual

theorem encodedLen_eq (reply : Reply) :
    reply.encodedLen = if reply.wireLen ≤ usizeMax then some reply.wireLen else none := by
  cases reply with
  | simple value => rfl
  | error value => rfl
  | integer value => rfl
  | bulk value =>
      cases value with
      | none => rfl
      | some value =>
          rw [encodedLen, wireLen]
          unfold usizeCheckedAdd
          by_cases hheader : decimalDigits value.length + 5 ≤ usizeMax
          · rw [if_pos hheader]
            rfl
          · rw [if_neg hheader, if_neg (by omega)]
            rfl
  | array values =>
      rw [encodedLen, wireLen]
      by_cases hheader : decimalDigits values.length + 3 ≤ usizeMax
      · rw [usizeCheckedAdd, if_pos hheader]
        exact encodedLenFrom_eq values hheader
      · rw [usizeCheckedAdd, if_neg hheader, if_neg (by omega)]
        rfl

theorem encodedLenFrom_eq (values : List Reply) {total : Nat} (htotal : total ≤ usizeMax) :
    encodedLenFrom total values =
      if total + wireLenAll values ≤ usizeMax then some (total + wireLenAll values) else none := by
  cases values with
  | nil => rw [encodedLenFrom, wireLenAll, if_pos (by omega), Nat.add_zero]
  | cons value values =>
      rw [encodedLenFrom, wireLenAll, encodedLen_eq value]
      by_cases hvalue : value.wireLen ≤ usizeMax
      · rw [if_pos hvalue, Option.bind_some, usizeCheckedAdd]
        by_cases hnext : total + value.wireLen ≤ usizeMax
        · rw [if_pos hnext, Option.bind_some, encodedLenFrom_eq values hnext, Nat.add_assoc]
        · rw [if_neg hnext, Option.bind_none, if_neg (by omega)]
      · rw [if_neg hvalue, Option.bind_none, if_neg (by omega)]

end

theorem exceeds_iff {reply : Reply} {limit : Nat} :
    reply.exceeds limit = true ↔ min limit usizeMax < reply.wireLen := by
  rw [exceeds, encodedLen_eq]
  by_cases hfits : reply.wireLen ≤ usizeMax
  · rw [if_pos hfits]
    simp only [decide_eq_true_eq]
    omega
  · rw [if_neg hfits]
    simp only [true_iff]
    omega

theorem exceeds_mono {small large : Reply} (hle : small.wireLen ≤ large.wireLen) {limit : Nat}
    (hexceeds : small.exceeds limit = true) : large.exceeds limit = true := by
  rw [exceeds_iff] at hexceeds ⊢
  exact lt_of_lt_of_le hexceeds hle

theorem wireLenAll_sublist {small large : List Reply} (hsub : small.Sublist large) :
    wireLenAll small ≤ wireLenAll large := by
  induction hsub with
  | slnil => exact le_refl _
  | cons value _ ih =>
      rw [wireLenAll]
      exact le_trans ih (Nat.le_add_left _ _)
  | cons_cons value _ ih =>
      rw [wireLenAll, wireLenAll]
      exact Nat.add_le_add_left ih _

theorem wireLen_array_sublist {small large : List Reply} (hsub : small.Sublist large) :
    (Reply.array small).wireLen ≤ (Reply.array large).wireLen := by
  rw [wireLen, wireLen]
  exact Nat.add_le_add (Nat.add_le_add_right (decimalDigits_mono hsub.length_le) 3)
    (wireLenAll_sublist hsub)

/-- Integers and `OK` fit the smallest reply limit a shard accepts. -/
theorem not_exceeds_integer (value : I64) {limit : Nat} (hlimit : 64 ≤ limit) :
    (Reply.integer value).exceeds limit = false := by
  apply Bool.eq_false_of_not_eq_true
  intro hexceeds
  rw [exceeds_iff, wireLen] at hexceeds
  have hlower := value.lower
  have hupper := value.upper
  have hdigits : decimalDigits value.val.natAbs ≤ 19 := decimalDigits_le (by omega) (by omega)
  have hmax : 64 ≤ min limit usizeMax := le_min hlimit (by decide)
  split at hexceeds <;> omega

theorem not_exceeds_ok {limit : Nat} (hlimit : 64 ≤ limit) : Reply.ok.exceeds limit = false := by
  apply Bool.eq_false_of_not_eq_true
  intro hexceeds
  rw [exceeds_iff] at hexceeds
  have hlen : Reply.ok.wireLen = 5 := rfl
  have hmax : 64 ≤ min limit usizeMax := le_min hlimit (by decide)
  omega

end Reply

end Recall
