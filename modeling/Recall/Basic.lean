import Mathlib.Order.Basic
import Mathlib.Order.Lattice
import Mathlib.Data.Int.Order.Basic
import Mathlib.Tactic.Common

/-!
# Machine values

Byte strings and the fixed-width integers the program computes with. A `usize` is a `Nat` whose
checked operations compare with `usizeMax`; an `i64` carries its range, so an operation that leaves
the range has to say what it does instead.
-/

namespace Recall

abbrev Bytes := List UInt8

/-- The bytes of a server message. Every message of the program is ASCII. -/
def ascii (text : String) : Bytes :=
  text.toList.map fun c => UInt8.ofNat c.toNat

/-- The computation succeeded with a result that passes the test. -/
def okAnd {ε α : Type} (p : α → Bool) : Except ε α → Bool
  | .ok a => p a
  | .error _ => false

theorem exists_of_okAnd {ε α : Type} {result : Except ε α} {p : α → Bool}
    (hok : okAnd p result = true) : ∃ a, result = .ok a ∧ p a = true := by
  cases result with
  | error failure => cases hok
  | ok a => exact ⟨a, rfl, hok⟩

theorem bind_eq_ok {ε α β : Type} {x : Except ε α} {f : α → Except ε β} {b : β} :
    (x >>= f) = .ok b ↔ ∃ a, x = .ok a ∧ f a = .ok b := by
  cases x with
  | error failure => simp [bind, Except.bind]
  | ok a => simp [bind, Except.bind]

theorem map_eq_ok {ε α β : Type} {x : Except ε α} {f : α → β} {b : β} :
    x.map f = .ok b ↔ ∃ a, x = .ok a ∧ f a = b := by
  cases x with
  | error failure => simp [Except.map]
  | ok a => simp [Except.map]

/-- `usize::MAX` and `u64::MAX` on the 64-bit targets the server runs on. -/
def usizeMax : Nat := 18446744073709551615

def usizeCheckedAdd (a b : Nat) : Option Nat :=
  if a + b ≤ usizeMax then some (a + b) else none

def usizeCheckedMul (a b : Nat) : Option Nat :=
  if a * b ≤ usizeMax then some (a * b) else none

def saturate (a : Nat) : Nat := min a usizeMax

theorem usizeCheckedAdd_eq_some {a b c : Nat} :
    usizeCheckedAdd a b = some c ↔ a + b ≤ usizeMax ∧ c = a + b := by
  unfold usizeCheckedAdd
  split <;> simp_all [eq_comm]

theorem usizeCheckedMul_eq_some {a b c : Nat} :
    usizeCheckedMul a b = some c ↔ a * b ≤ usizeMax ∧ c = a * b := by
  unfold usizeCheckedMul
  split <;> simp_all [eq_comm]

/-- A signed 64-bit integer together with its range. -/
structure I64 where
  val : Int
  lower : -9223372036854775808 ≤ val
  upper : val ≤ 9223372036854775807
deriving DecidableEq, Repr

namespace I64

theorem val_injective : Function.Injective I64.val := by
  intro a b hval
  cases a
  cases b
  simp_all

instance : LinearOrder I64 := LinearOrder.lift' I64.val val_injective

theorem le_iff {a b : I64} : a ≤ b ↔ a.val ≤ b.val := Iff.rfl

theorem lt_iff {a b : I64} : a < b ↔ a.val < b.val := Iff.rfl

/-- The value of a mathematical integer that fits. -/
def ofInt? (n : Int) : Option I64 :=
  if h : -9223372036854775808 ≤ n ∧ n ≤ 9223372036854775807 then some ⟨n, h.1, h.2⟩ else none

theorem ofInt?_eq_some {n : Int} {a : I64} : ofInt? n = some a ↔ a.val = n := by
  unfold ofInt?
  constructor
  · intro h
    split at h
    · cases h
      rfl
    · cases h
  · intro h
    subst h
    simp [a.lower, a.upper]

theorem ofInt?_eq_none {n : Int} :
    ofInt? n = none ↔ n < -9223372036854775808 ∨ 9223372036854775807 < n := by
  unfold ofInt?
  split <;> simp <;> omega

/-- `as i64`: two's complement truncation. -/
def wrap (n : Int) : I64 :=
  ⟨n.bmod 18446744073709551616, by
    have := Int.le_bmod (x := n) (m := 18446744073709551616) (by decide)
    omega, by
    have := Int.bmod_lt (x := n) (m := 18446744073709551616) (by decide)
    omega⟩

/-- The nearest representable value. -/
def saturate (n : Int) : I64 :=
  ⟨max (-9223372036854775808) (min n 9223372036854775807), by omega, by omega⟩

instance : Zero I64 := ⟨⟨0, by decide, by decide⟩⟩

instance : One I64 := ⟨⟨1, by decide, by decide⟩⟩

@[simp] theorem zero_val : (0 : I64).val = 0 := rfl

theorem not_le_zero {n : I64} : ¬ n ≤ 0 ↔ 0 < n.val := by
  rw [le_iff, zero_val]
  exact Int.not_le

def minValue : I64 := ⟨-9223372036854775808, by decide, by decide⟩

def checkedAdd (a b : I64) : Option I64 := ofInt? (a.val + b.val)

def checkedSub (a b : I64) : Option I64 := ofInt? (a.val - b.val)

def checkedMul (a b : I64) : Option I64 := ofInt? (a.val * b.val)

def saturatingSub (a b : I64) : I64 := saturate (a.val - b.val)

end I64

end Recall
