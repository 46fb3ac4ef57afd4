import Recall.Proof.Store

/-!
# What an operation asks for

The reply and the effects of `evaluate` in terms of the live entries: the table with the due entries
left out. A due entry is never read; at most it is recorded for removal.
-/

namespace Recall.Shard

/-- The entry a command sees under a key. -/
def live (shard : Shard) (nowMs : I64) (key : Bytes) : Option Entry :=
  (shard.entries.lookup key).filter fun entry => !entry.due nowMs

/-- An entry is stored under the key but is due. -/
def stale (shard : Shard) (nowMs : I64) (key : Bytes) : Bool :=
  (shard.entries.lookup key).any fun entry => entry.due nowMs

def sweep (shard : Shard) (nowMs : I64) (key : Bytes) (effects : Effects) : Effects :=
  if shard.stale nowMs key then effects.insert key none else effects

variable {shard : Shard} {nowMs : I64}

theorem observe_eq (key : Bytes) (effects : Effects) :
    shard.observe key nowMs effects = (shard.live nowMs key, shard.sweep nowMs key effects) := by
  unfold observe live sweep stale
  cases hlookup : shard.entries.lookup key with
  | none => rfl
  | some entry => cases hdue : entry.due nowMs <;> simp [hdue, Option.filter]

theorem lookup_of_live {key : Bytes} {entry : Entry} (hlive : shard.live nowMs key = some entry) :
    shard.entries.lookup key = some entry ∧ entry.due nowMs = false := by
  obtain ⟨hlookup, hdue⟩ := Option.filter_eq_some_iff.mp hlive
  exact ⟨hlookup, by simpa using hdue⟩

theorem lookup_sweep (key other : Bytes) (effects : Effects) :
    (shard.sweep nowMs key effects).lookup other =
      if other = key ∧ shard.stale nowMs key then some none else effects.lookup other := by
  unfold sweep
  by_cases hstale : shard.stale nowMs key
  · by_cases hother : other = key
    · subst hother
      simp [hstale]
    · simp [hstale, hother, AList.lookup_insert_ne hother]
  · simp [hstale]

theorem observeAll_fst (keys : List Bytes) (effects : Effects) :
    (shard.observeAll nowMs keys effects).1 = keys.map (shard.live nowMs) := by
  induction keys generalizing effects with
  | nil => rfl
  | cons key keys ih => simp [observeAll, observe_eq, ih]

theorem lookup_observeAll (keys : List Bytes) (effects : Effects) (other : Bytes) :
    (shard.observeAll nowMs keys effects).2.lookup other =
      if other ∈ keys ∧ shard.stale nowMs other then some none else effects.lookup other := by
  induction keys generalizing effects with
  | nil => simp [observeAll]
  | cons key keys ih =>
      simp only [observeAll, observe_eq, ih, lookup_sweep, List.mem_cons]
      by_cases hother : other = key
      · subst hother
        by_cases hstale : shard.stale nowMs other <;> simp [hstale]
      · simp [hother]

theorem lookup_deleteAll (keys : List Bytes) (removed : Nat) (effects : Effects)
    (htombstones : ∀ key entry, effects.lookup key = some entry → entry = none) (other : Bytes) :
    (shard.deleteAll nowMs keys removed effects).2.lookup other =
      if other ∈ keys then some none else effects.lookup other := by
  induction keys generalizing removed effects with
  | nil => simp [deleteAll]
  | cons key keys ih =>
      unfold deleteAll
      by_cases hmem : key ∈ effects
      · rw [if_pos hmem, ih _ _ htombstones]
        by_cases hother : other = key
        · subst hother
          obtain ⟨entry, hentry⟩ := Option.isSome_iff_exists.mp (AList.lookup_isSome.mpr hmem)
          simp [hentry, htombstones _ _ hentry]
        · simp [hother]
      · rw [if_neg hmem, observe_eq]
        have hnext : ∀ x entry,
            ((shard.sweep nowMs key effects).insert key none).lookup x = some entry →
              entry = none := by
          intro x entry hentry
          by_cases hx : x = key
          · subst hx
            rw [AList.lookup_insert] at hentry
            exact (Option.some.inj hentry).symm
          · rw [AList.lookup_insert_ne hx, lookup_sweep, if_neg (by simp [hx])] at hentry
            exact htombstones x entry hentry
        simp only [ih _ _ hnext]
        by_cases hother : other = key
        · subst hother
          simp
        · simp [hother, AList.lookup_insert_ne hother, lookup_sweep]

theorem lookup_assignAll (pairs : List (Bytes × Bytes)) (effects : Effects) (other : Bytes) :
    (assignAll pairs effects).lookup other =
      match (pairs.reverse.find? fun pair => pair.1 = other) with
      | some pair => some (some ⟨pair.2, none⟩)
      | none => effects.lookup other := by
  induction pairs generalizing effects with
  | nil => simp [assignAll]
  | cons pair pairs ih =>
      obtain ⟨key, value⟩ := pair
      simp only [assignAll, ih, List.reverse_cons, List.find?_append]
      cases hfind : (pairs.reverse.find? fun pair => pair.1 = other) with
      | some pair => simp
      | none =>
          by_cases hother : other = key
          · subst hother
            simp
          · simp [AList.lookup_insert_ne hother, Ne.symm hother]

/-! ### The shape of the effects -/

def OnlyRemoves (effects : Effects) : Prop :=
  ∀ key entry, effects.lookup key = some entry → entry = none

def OnlyWrites (effects : Effects) : Prop :=
  ∀ key entry, effects.lookup key = some entry → entry.isSome

theorem onlyRemoves_sweep (key : Bytes) : OnlyRemoves (shard.sweep nowMs key ∅) := by
  intro other entry hentry
  rw [lookup_sweep] at hentry
  split at hentry
  · exact (Option.some.inj hentry).symm
  · simp at hentry

theorem lookup_insert_sweep (key other : Bytes) (entry : Option Entry) :
    ((shard.sweep nowMs key ∅).insert key entry).lookup other =
      if other = key then some entry else none := by
  by_cases hother : other = key
  · subst hother
    simp
  · simp [hother, AList.lookup_insert_ne hother, lookup_sweep]

theorem onlyWrites_insert_sweep (key : Bytes) (entry : Entry) :
    OnlyWrites ((shard.sweep nowMs key ∅).insert key (some entry)) := by
  intro other stored hstored
  rw [lookup_insert_sweep] at hstored
  split at hstored
  · rw [← Option.some.inj hstored]
    rfl
  · cases hstored

theorem onlyRemoves_insert_sweep (key : Bytes) :
    OnlyRemoves ((shard.sweep nowMs key ∅).insert key none) := by
  intro other stored hstored
  rw [lookup_insert_sweep] at hstored
  split at hstored
  · exact (Option.some.inj hstored).symm
  · cases hstored

theorem onlyRemoves_observeAll (keys : List Bytes) :
    OnlyRemoves (shard.observeAll nowMs keys ∅).2 := by
  intro other stored hstored
  rw [lookup_observeAll] at hstored
  split at hstored
  · exact (Option.some.inj hstored).symm
  · simp at hstored

theorem onlyRemoves_deleteAll (keys : List Bytes) :
    OnlyRemoves (shard.deleteAll nowMs keys 0 ∅).2 := by
  intro other stored hstored
  rw [lookup_deleteAll _ _ _ (by simp)] at hstored
  split at hstored
  · exact (Option.some.inj hstored).symm
  · simp at hstored

theorem onlyWrites_assignAll (pairs : List (Bytes × Bytes)) : OnlyWrites (assignAll pairs ∅) := by
  intro other stored hstored
  rw [lookup_assignAll] at hstored
  split at hstored
  · rw [← Option.some.inj hstored]
    rfl
  · simp at hstored

/-! ### Single-key operations

All of them, the multi-key operations with one argument included, read the live entry under their key
and then leave it alone, write it or remove it. -/

inductive Change where
  | keep
  | put (entry : Option Entry)

def Change.effects (change : Change) (shard : Shard) (nowMs : I64) (key : Bytes) : Effects :=
  match change with
  | .keep => shard.sweep nowMs key ∅
  | .put entry => (shard.sweep nowMs key ∅).insert key entry

def singleKey : Operation → Option Bytes
  | .get key | .set key _ _ _ | .increment key _ _ | .expire key _ | .ttl key _ | .persist key
  | .delete [key] | .exists [key] | .multiGet [key] | .multiSet [(key, _)] => some key
  | .delete _ | .exists _ | .multiGet _ | .multiSet _ => none

theorem keys_of_singleKey {operation : Operation} {key : Bytes}
    (hsingle : singleKey operation = some key) : operation.keys = [key] := by
  cases operation with
  | delete keys | «exists» keys | multiGet keys =>
      rcases keys with - | ⟨first, - | ⟨second, rest⟩⟩
      · cases hsingle
      · cases hsingle
        rfl
      · cases hsingle
  | multiSet pairs =>
      rcases pairs with - | ⟨⟨first, value⟩, - | ⟨second, rest⟩⟩
      · cases hsingle
      · cases hsingle
        rfl
      · cases hsingle
  | get _ | set _ _ _ _ | increment _ _ _ | expire _ _ | ttl _ _ | persist _ =>
      cases hsingle
      rfl

theorem singleKey_of_length {operation : Operation} (hlength : operation.keys.length = 1) :
    ∃ key, singleKey operation = some key ∧ operation.keys = [key] := by
  cases operation with
  | delete keys | «exists» keys | multiGet keys =>
      obtain ⟨key, rfl⟩ := List.length_eq_one_iff.mp hlength
      exact ⟨key, rfl, rfl⟩
  | multiSet pairs =>
      rw [Operation.keys, List.length_map] at hlength
      obtain ⟨⟨key, value⟩, rfl⟩ := List.length_eq_one_iff.mp hlength
      exact ⟨key, rfl, rfl⟩
  | get key | set key _ _ _ | increment key _ _ | expire key _ | ttl key _ | persist key =>
      exact ⟨key, rfl, rfl⟩

def answer (nowMs : I64) (old : Option Entry) : Operation → Except EngineError (Reply × Change)
  | .get _ => .ok (bulkOf old, .keep)
  | .set _ value condition expiry =>
      match assignedDeadline old nowMs expiry with
      | .error failure => .error failure
      | .ok deadline =>
          if (condition = .ifAbsent ∧ old.isSome) ∨ (condition = .ifPresent ∧ old.isNone) then
            .ok (.bulk none, .keep)
          else
            .ok (.ok, .put (some ⟨value, deadline⟩))
  | .increment _ amount subtract =>
      if subtract ∧ amount = .minValue then
        .error .overflow
      else
        match incremented old amount subtract with
        | .error failure => .error failure
        | .ok next =>
            .ok (.integer next, .put (some ⟨next.toBytes, old.bind Entry.expiresAtMs⟩))
  | .expire _ milliseconds =>
      match old with
      | none => .ok (.count 0, .keep)
      | some entry =>
          if milliseconds ≤ 0 then
            .ok (.count 1, .put none)
          else
            match nowMs.checkedAdd milliseconds with
            | none => .error .expireExpireTime
            | some deadline =>
                .ok (.count 1, .put (some { entry with expiresAtMs := some deadline }))
  | .ttl _ milliseconds =>
      .ok (.integer (I64.wrap (remainingTtl nowMs milliseconds old)), .keep)
  | .persist _ =>
      match old with
      | none => .ok (.count 0, .keep)
      | some entry =>
          if entry.expiresAtMs.isSome then
            .ok (.count 1, .put (some { entry with expiresAtMs := none }))
          else
            .ok (.count 0, .keep)
  | .delete _ => .ok (.count (if old.isSome then 1 else 0), .put none)
  | .exists _ => .ok (.count (if old.isSome then 1 else 0), .keep)
  | .multiGet _ => .ok (.array [bulkOf old], .keep)
  | .multiSet [(_, value)] => .ok (.ok, .put (some ⟨value, none⟩))
  | .multiSet _ => .ok (.ok, .keep)

theorem insert_sweep (key : Bytes) (entry : Option Entry) :
    (shard.sweep nowMs key ∅).insert key entry = (∅ : Effects).insert key entry := by
  unfold sweep
  split
  · exact AList.insert_insert ∅
  · rfl

theorem evaluate_single {operation : Operation} {key : Bytes}
    (hsingle : singleKey operation = some key) :
    shard.evaluate operation nowMs =
      match answer nowMs (shard.live nowMs key) operation with
      | .error failure => .error failure
      | .ok (response, change) => .ok (response, change.effects shard nowMs key) := by
  cases operation with
  | get _ | ttl _ _ =>
      cases hsingle
      simp [evaluate, observe_eq, answer, Change.effects]
  | set _ value condition expiry =>
      cases hsingle
      simp only [evaluate, observe_eq, answer]
      cases assignedDeadline (shard.live nowMs key) nowMs expiry with
      | error failure => rfl
      | ok deadline =>
          simp only [bind, Except.bind, pure, Except.pure]
          split <;> rfl
  | increment _ amount subtract =>
      cases hsingle
      simp only [evaluate, observe_eq, answer]
      split
      · rfl
      · cases incremented (shard.live nowMs key) amount subtract <;> rfl
  | expire _ milliseconds =>
      cases hsingle
      simp only [evaluate, observe_eq, answer]
      cases shard.live nowMs key with
      | none => rfl
      | some old =>
          simp only
          split
          · rfl
          · cases nowMs.checkedAdd milliseconds <;> rfl
  | persist _ =>
      cases hsingle
      simp only [evaluate, observe_eq, answer]
      cases shard.live nowMs key with
      | none => rfl
      | some old =>
          simp only
          split <;> rfl
  | delete keys =>
      obtain rfl : keys = [key] := keys_of_singleKey hsingle
      simp only [evaluate, deleteAll, AList.notMem_empty, ↓reduceIte, observe_eq, answer,
        Change.effects]
  | «exists» keys =>
      obtain rfl : keys = [key] := keys_of_singleKey hsingle
      simp only [evaluate, observeAll, observe_eq, answer, Change.effects]
      cases shard.live nowMs key <;> rfl
  | multiGet keys =>
      obtain rfl : keys = [key] := keys_of_singleKey hsingle
      simp [evaluate, observeAll, observe_eq, answer, Change.effects]
  | multiSet pairs =>
      obtain ⟨⟨key, value⟩, rfl, rfl⟩ := List.map_eq_singleton_iff.mp (keys_of_singleKey hsingle)
      simp [evaluate, assignAll, answer, Change.effects, insert_sweep]

/-- The change behind the effects of a single-key operation. -/
theorem evaluate_single_ok {operation : Operation} {key : Bytes}
    (hsingle : singleKey operation = some key) {response : Reply} {effects : Effects}
    (heval : shard.evaluate operation nowMs = .ok (response, effects)) :
    ∃ change, answer nowMs (shard.live nowMs key) operation = .ok (response, change) ∧
      effects = change.effects shard nowMs key := by
  rw [evaluate_single hsingle] at heval
  split at heval
  · cases heval
  · next response change hanswer =>
      cases heval
      exact ⟨change, hanswer, rfl⟩

/-- What an evaluation can come to. -/
theorem evaluate_cases {operation : Operation} {response : Reply} {effects : Effects}
    (heval : shard.evaluate operation nowMs = .ok (response, effects)) :
    (∃ key change, singleKey operation = some key ∧
        answer nowMs (shard.live nowMs key) operation = .ok (response, change) ∧
        effects = change.effects shard nowMs key) ∨
      (∃ keys, operation = .delete keys ∧ effects = (shard.deleteAll nowMs keys 0 ∅).2) ∨
      (∃ keys, (operation = .exists keys ∨ operation = .multiGet keys) ∧
        effects = (shard.observeAll nowMs keys ∅).2) ∨
      ∃ pairs, operation = .multiSet pairs ∧ effects = assignAll pairs ∅ := by
  cases operation with
  | delete keys =>
      cases heval
      exact .inr (.inl ⟨keys, rfl, rfl⟩)
  | «exists» keys =>
      cases heval
      exact .inr (.inr (.inl ⟨keys, .inl rfl, rfl⟩))
  | multiGet keys =>
      cases heval
      exact .inr (.inr (.inl ⟨keys, .inr rfl, rfl⟩))
  | multiSet pairs =>
      cases heval
      exact .inr (.inr (.inr ⟨pairs, rfl, rfl⟩))
  | get key | set key _ _ _ | increment key _ _ | expire key _ | ttl key _ | persist key =>
      obtain ⟨change, hanswer, heffects⟩ := evaluate_single_ok rfl heval
      exact .inl ⟨key, change, rfl, hanswer, heffects⟩

/-- The errors an operation can raise itself, before its reply and its table are measured. -/
def ownError : EngineError → Bool
  | .notInteger | .overflow | .setExpireTime | .expireExpireTime => true
  | .invalidLimits | .responseLimit | .budget => false

theorem assignedDeadline_error {old : Option Entry} {expiry : Expiry} {failure : EngineError}
    (herror : assignedDeadline old nowMs expiry = .error failure) : failure = .setExpireTime := by
  unfold assignedDeadline at herror
  split at herror
  · cases herror
  · cases herror
  · split at herror
    · cases herror
    · cases herror
      rfl

theorem incremented_error {old : Option Entry} {amount : I64} {subtract : Bool}
    {failure : EngineError} (herror : incremented old amount subtract = .error failure) :
    ownError failure = true := by
  have hadd : ∀ current, incremented.add amount subtract current = .error failure →
      ownError failure = true := by
    intro current hcurrent
    unfold incremented.add at hcurrent
    split at hcurrent
    · cases hcurrent
      rfl
    · cases hcurrent
  unfold incremented at herror
  split at herror
  · exact hadd 0 herror
  · split at herror
    · cases herror
      rfl
    · exact hadd _ herror

theorem answer_error {operation : Operation} {old : Option Entry} {failure : EngineError}
    (herror : answer nowMs old operation = .error failure) : ownError failure = true := by
  cases operation with
  | set _ value condition expiry =>
      simp only [answer] at herror
      split at herror
      · next hdeadline =>
          cases herror
          rw [assignedDeadline_error hdeadline]
          rfl
      · split at herror <;> cases herror
  | increment _ amount subtract =>
      simp only [answer] at herror
      split at herror
      · cases herror
        rfl
      · split at herror
        · next hnext =>
            cases herror
            exact incremented_error hnext
        · cases herror
  | expire _ milliseconds =>
      simp only [answer] at herror
      split at herror
      · cases herror
      · split at herror
        · cases herror
        · split at herror
          · cases herror
            rfl
          · cases herror
  | persist _ =>
      simp only [answer] at herror
      split at herror
      · cases herror
      · split at herror <;> cases herror
  | multiSet pairs => match pairs with
      | [] | [_] | _ :: _ :: _ => cases herror
  | get _ | ttl _ _ | delete _ | «exists» _ | multiGet _ => cases herror

theorem evaluate_error {operation : Operation} {failure : EngineError}
    (herror : shard.evaluate operation nowMs = .error failure) : ownError failure = true := by
  cases hsingle : singleKey operation with
  | some key =>
      rw [evaluate_single hsingle] at herror
      split at herror
      · next hanswer =>
          cases herror
          exact answer_error hanswer
      · cases herror
  | none =>
      cases operation with
      | delete _ | «exists» _ | multiGet _ | multiSet _ => cases herror
      | get _ | set _ _ _ _ | increment _ _ _ | expire _ _ | ttl _ _ | persist _ => cases hsingle

/-- A command either only writes or only removes, so its effects can be installed in any order
without overshooting the result. -/
theorem evaluate_uniform {operation : Operation} {response : Reply} {effects : Effects}
    (heval : shard.evaluate operation nowMs = .ok (response, effects)) :
    OnlyRemoves effects ∨ OnlyWrites effects := by
  rcases evaluate_cases heval with
    ⟨key, change, -, -, rfl⟩ | ⟨keys, -, rfl⟩ | ⟨keys, -, rfl⟩ | ⟨pairs, -, rfl⟩
  · cases change with
    | keep => exact Or.inl (onlyRemoves_sweep key)
    | put entry =>
        cases entry with
        | none => exact Or.inl (onlyRemoves_insert_sweep key)
        | some entry => exact Or.inr (onlyWrites_insert_sweep key entry)
  · exact Or.inl (onlyRemoves_deleteAll keys)
  · exact Or.inl (onlyRemoves_observeAll keys)
  · exact Or.inr (onlyWrites_assignAll pairs)

/-- Operations that can store more than they found. -/
def grows : Operation → Bool
  | .set _ _ _ _ | .increment _ _ _ | .multiSet _ => true
  | .get _ | .delete _ | .exists _ | .multiGet _ | .expire _ _ | .ttl _ _ | .persist _ => false

theorem answer_keeps_value {operation : Operation} {old : Option Entry} {response : Reply}
    {entry : Entry} (hgrows : grows operation = false)
    (hanswer : answer nowMs old operation = .ok (response, .put (some entry))) :
    ∃ before, old = some before ∧ entry.value = before.value := by
  cases operation with
  | expire _ milliseconds =>
      cases old with
      | none => cases hanswer
      | some before =>
          simp only [answer] at hanswer
          split at hanswer
          · cases hanswer
          · split at hanswer
            · cases hanswer
            · cases hanswer
              exact ⟨before, rfl, rfl⟩
  | persist _ =>
      cases old with
      | none => cases hanswer
      | some before =>
          simp only [answer] at hanswer
          split at hanswer
          · cases hanswer
            exact ⟨before, rfl, rfl⟩
          · cases hanswer
  | get _ | delete _ | «exists» _ | multiGet _ | ttl _ _ => cases hanswer
  | set _ _ _ _ | increment _ _ _ | multiSet _ => cases hgrows

/-- An operation that does not grow only removes entries or rewrites them with the same value. -/
theorem evaluate_of_not_grows {operation : Operation} {response : Reply} {effects : Effects}
    (hgrows : grows operation = false)
    (heval : shard.evaluate operation nowMs = .ok (response, effects)) {key : Bytes} {entry : Entry}
    (heffect : effects.lookup key = some (some entry)) :
    ∃ before, shard.entries.lookup key = some before ∧ entry.value = before.value := by
  rcases evaluate_cases heval with
    ⟨key', change, -, hanswer, rfl⟩ | ⟨keys, -, rfl⟩ | ⟨keys, -, rfl⟩ | ⟨pairs, rfl, -⟩
  · cases change with
    | keep => cases onlyRemoves_sweep key' key _ heffect
    | put stored =>
        rw [Change.effects, lookup_insert_sweep] at heffect
        split at heffect
        · next hkey =>
            cases heffect
            obtain ⟨before, hlive, hvalue⟩ := answer_keeps_value hgrows hanswer
            exact ⟨before, hkey ▸ (lookup_of_live hlive).1, hvalue⟩
        · cases heffect
  · cases onlyRemoves_deleteAll keys key _ heffect
  · cases onlyRemoves_observeAll keys key _ heffect
  · cases hgrows

end Recall.Shard
