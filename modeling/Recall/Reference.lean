import Recall.Store
import Recall.Lib.TimedMap

/-!
# The reference keyspace

What single-key commands mean, stated on a timed map with mathematical integers for times. The
expired entries are dropped before a command looks at the map; there are no revisions, timers,
budgets or reply limits here, and active expiration has no meaning of its own.
-/

namespace Recall.Reference

abbrev Keyspace := TimedMap Bytes Bytes Int

def i64Max : Int := 9223372036854775807

/-- The deadline `SET` stores; a duration must be positive and must not lead past the last
representable time. -/
def deadline (old : Option (Bytes × Option Int)) (now : Int) :
    Expiry → Except EngineError (Option Int)
  | .clear => .ok none
  | .keep => .ok (old.bind Prod.snd)
  | .afterMilliseconds duration =>
      if duration.val ≤ 0 ∨ i64Max < now + duration.val then .error .setExpireTime
      else .ok (some (now + duration.val))

def holds (old : Option (Bytes × Option Int)) : Condition → Bool
  | .always => true
  | .ifAbsent => old.isNone
  | .ifPresent => old.isSome

/-- The counter an absent key starts from is zero; a value that is not a canonical integer is no
counter. -/
def counter : Option (Bytes × Option Int) → Option Int
  | none => some 0
  | some (value, _) => (integer value).map I64.val

/-- Whole seconds, halves rounding up. -/
def seconds (milliseconds : Int) : Int := (milliseconds + 500) / 1000

def remaining (deadline now : Int) : Int := min (deadline - now) i64Max

/-- The reply of a command and the entry it leaves under its key, given the live entry there. -/
def command (old : Option (Bytes × Option Int)) (now : Int) (operation : Operation) :
    Except EngineError (Reply × Option (Bytes × Option Int)) :=
  match operation with
  | .get _ => .ok (.bulk (old.map Prod.fst), old)
  | .set _ value condition expiry =>
      match deadline old now expiry with
      | .error failure => .error failure
      | .ok deadline =>
          if holds old condition then .ok (.ok, some (value, deadline)) else .ok (.bulk none, old)
  | .increment _ amount subtract =>
      if subtract ∧ amount = .minValue then .error .overflow
      else
        match counter old with
        | none => .error .notInteger
        | some current =>
            match I64.ofInt? (if subtract then current - amount.val else current + amount.val) with
            | none => .error .overflow
            | some next => .ok (.integer next, some (next.toBytes, old.bind Prod.snd))
  | .delete _ => .ok (.count old.toList.length, none)
  | .exists _ => .ok (.count old.toList.length, old)
  | .multiGet _ => .ok (.array [.bulk (old.map Prod.fst)], old)
  | .multiSet pairs => .ok (.ok, (pairs.head?.map fun pair => (pair.2, none)))
  | .expire _ milliseconds =>
      match old with
      | none => .ok (.count 0, none)
      | some (value, _) =>
          if milliseconds.val ≤ 0 then .ok (.count 1, none)
          else if i64Max < now + milliseconds.val then .error .expireExpireTime
          else .ok (.count 1, some (value, some (now + milliseconds.val)))
  | .ttl _ milliseconds =>
      match old with
      | none => .ok (.integer (I64.saturate (-2)), old)
      | some (_, none) => .ok (.integer (I64.saturate (-1)), old)
      | some (_, some deadline) =>
          let left := remaining deadline now
          .ok (.integer (I64.saturate (if milliseconds then left else seconds left)), old)
  | .persist _ =>
      match old with
      | some (value, some _) => .ok (.count 1, some (value, none))
      | _ => .ok (.count 0, old)

/-- The reply to a command at `key` and the keyspace after it. -/
def step (keyspace : Keyspace) (key : Bytes) (operation : Operation) (now : Int) :
    Keyspace × Except EngineError Reply :=
  let current := keyspace.dropExpired now
  match command (current key) now operation with
  | .error failure => (current, .error failure)
  | .ok (reply, entry) => (current.put key entry, .ok reply)

end Recall.Reference
