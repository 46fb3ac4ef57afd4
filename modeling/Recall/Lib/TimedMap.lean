import Mathlib.Order.Basic
import Mathlib.Order.Lattice
import Mathlib.Tactic.Common

/-!
# Maps whose entries expire

A map from keys to values with optional deadlines. An entry is there until its deadline; dropping the
expired entries later drops those an earlier drop would have, so drops at nondecreasing times collapse
into the last one.
-/

universe u v w

/-- A key holds a value and possibly the time from which it no longer does. -/
def TimedMap (K : Type u) (V : Type v) (T : Type w) := K → Option (V × Option T)

namespace TimedMap

variable {K : Type u} {V : Type v} {T : Type w} [LinearOrder T]

def alive (now : T) (entry : V × Option T) : Bool := entry.2.all fun deadline => now < deadline

def dropExpired (map : TimedMap K V T) (now : T) : TimedMap K V T :=
  fun key => (map key).filter (alive now)

theorem alive_of_le {earlier now : T} (hle : earlier ≤ now) {entry : V × Option T}
    (halive : alive now entry = true) : alive earlier entry = true := by
  obtain ⟨value, deadline⟩ := entry
  cases deadline with
  | none => rfl
  | some deadline =>
      simp only [alive, Option.all_some, decide_eq_true_eq] at halive ⊢
      exact hle.trans_lt halive

theorem filter_alive_filter_alive {earlier now : T} (hle : earlier ≤ now)
    (entry : Option (V × Option T)) :
    (entry.filter (alive earlier)).filter (alive now) = entry.filter (alive now) := by
  cases entry with
  | none => rfl
  | some entry =>
      cases hnow : alive now entry with
      | true => simp [Option.filter, hnow, alive_of_le hle hnow]
      | false => cases hearlier : alive earlier entry <;> simp [Option.filter, hnow, hearlier]

theorem dropExpired_dropExpired {earlier now : T} (hle : earlier ≤ now) (map : TimedMap K V T) :
    (map.dropExpired earlier).dropExpired now = map.dropExpired now := by
  funext key
  exact filter_alive_filter_alive hle (map key)

variable [DecidableEq K]

/-- The map with one key rebound or removed. -/
def put (map : TimedMap K V T) (key : K) (entry : Option (V × Option T)) : TimedMap K V T :=
  fun other => if other = key then entry else map other

theorem dropExpired_put (map : TimedMap K V T) (now : T) (key : K)
    (entry : Option (V × Option T)) :
    (map.put key entry).dropExpired now =
      (map.dropExpired now).put key (entry.filter (alive now)) := by
  funext other
  by_cases hother : other = key <;> simp [dropExpired, put, hother]

end TimedMap
