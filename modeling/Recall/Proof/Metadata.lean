import Recall.Command
import Recall.Proof.Accounting
import Recall.Proof.Budgets

/-!
# The command table is truthful

The table `COMMAND` advertises, the arms of the parser, `Operation.keys` and the store describe the
same commands independently of one another. For every argument vector the parser accepts they agree:
on the number of arguments, on where the keys stand and on who writes.
-/

namespace Recall

namespace CommandSpec

/-- A positive arity is the exact number of arguments, a negative one the least. -/
def Admits (s : CommandSpec) (count : Nat) : Prop :=
  (0 < s.arity.val ∧ (count : Int) = s.arity.val) ∨
    (s.arity.val < 0 ∧ -s.arity.val ≤ (count : Int))

/-- The position of the last key; a negative one counts from the end. -/
def lastPosition (s : CommandSpec) (count : Nat) : Int :=
  if s.lastKey.val < 0 then count + s.lastKey.val else s.lastKey.val

/-- The positions the table advertises for the keys of a vector of this many arguments. -/
def keyPositions (s : CommandSpec) (count : Nat) : List Nat :=
  (List.range ((s.lastPosition count - s.firstKey.val) / s.keyStep.val + 1).toNat).map fun i =>
    s.firstKey.val.toNat + i * s.keyStep.val.toNat

end CommandSpec

/-! ### Finding the entry -/

theorem findSpec_text : ∀ s ∈ specs, findSpec (ascii s.name.text) = some s := by
  decide +kernel

theorem findSpec_of_mem {name : Bytes} {s : CommandSpec} (hs : s ∈ specs)
    (hname : eqIgnoreAsciiCase name (ascii s.name.text) = true) : findSpec name = some s := by
  rw [← findSpec_text s hs]
  unfold findSpec eqIgnoreAsciiCase
  rw [of_decide_eq_true hname]

theorem admits_of_checkArity {s : CommandSpec} (hs : s ∈ specs) {count : Nat}
    (harity : checkArity s count = .ok ()) : s.Admits count := by
  have hsign : ∀ s ∈ specs, 0 < s.arity.val ∨ s.arity.val < 0 := by decide
  unfold checkArity at harity
  split at harity
  · cases harity
  · next hbad =>
      simp only [I64.lt_iff, I64.zero_val, not_or, not_and, not_not, not_lt] at hbad
      rcases hsign s hs with hpos | hneg
      · exact .inl ⟨hpos, hbad.1 hpos⟩
      · exact .inr ⟨hneg, hbad.2 hneg⟩

/-! ### Where the keys stand -/

theorem index_eq_ok {a : List Bytes} {i : Nat} {argument : Bytes} :
    index a i = .ok argument ↔ a[i]? = some argument := by
  unfold index
  cases a[i]? <;> simp

theorem keyPositions_one (name : CommandName) (arity : Int) (write : Bool) (count : Nat) :
    (spec name arity write 1 1 1).keyPositions count = [1] := rfl

theorem keyPositions_all (name : CommandName) (arity : Int) (write : Bool) (count : Nat) :
    (spec name arity write 1 (-1) 1).keyPositions count =
      (List.range (count - 1)).map fun i => 1 + i := by
  have hlast : ((spec name arity write 1 (-1) 1).lastPosition count - 1) / 1 + 1 =
      (count : Int) - 1 := by
    change ((count : Int) + -1 - 1) / 1 + 1 = _
    omega
  change (List.range (((spec name arity write 1 (-1) 1).lastPosition count - 1) / 1 + 1).toNat).map
    (fun i => 1 + i * 1) = _
  rw [hlast, show ((count : Int) - 1).toNat = count - 1 by omega]
  simp

theorem keyPositions_pairs (name : CommandName) (arity : Int) (write : Bool) (k : Nat) :
    (spec name arity write 1 (-1) 2).keyPositions (2 * k + 1) =
      (List.range k).map fun i => 1 + i * 2 := by
  have hlast : (((2 * k + 1 : Nat) : Int) + -1 - 1) / 2 + 1 = k := by omega
  change (List.range ((((2 * k + 1 : Nat) : Int) + -1 - 1) / 2 + 1).toNat).map
    (fun i => 1 + i * 2) = _
  rw [hlast, Int.toNat_natCast]

theorem map_some_eq (rest : List Bytes) :
    rest.map some = (List.range rest.length).map fun i => rest[i]? := by
  induction rest with
  | nil => rfl
  | cons argument rest ih =>
      rw [List.map_cons, ih, List.length_cons, List.range_succ_eq_map, List.map_cons, List.map_map]
      rfl

theorem map_some_pairs (k : Nat) {rest : List Bytes} (hlength : rest.length = 2 * k) :
    ((pairs rest).map Prod.fst).map some = (List.range k).map fun i => rest[i * 2]? := by
  induction k generalizing rest with
  | zero =>
      obtain rfl := List.length_eq_zero_iff.mp hlength
      rfl
  | succ k ih =>
      match rest, hlength with
      | key :: value :: rest, hlength =>
          have hrest : rest.length = 2 * k := by
            simp only [List.length_cons] at hlength
            omega
          rw [pairs, List.map_cons, List.map_cons, ih hrest, List.range_succ_eq_map, List.map_cons,
            List.map_map]
          refine congrArg _ (List.map_congr_left fun i _ => ?_)
          simp [Nat.succ_mul]

/-! ### The arms of the parser -/

/-- Operations that leave a value, a deadline and a key as they are. -/
def Operation.reads : Operation → Bool
  | .get _ | .exists _ | .multiGet _ | .ttl _ _ => true
  | _ => false

/-- The operation is what the table says of it. -/
structure Described (s : CommandSpec) (a : List Bytes) (operation : Operation) : Prop where
  firstKey : 0 < s.firstKey.val
  keys : operation.keys.map some = (s.keyPositions a.length).map fun p => a[p]?
  reads : s.write = false → operation.reads = true

section

variable {name : CommandName} {arity : Int} {write : Bool} {word : Bytes} {rest : List Bytes}
  {operation : Operation}

theorem firstKey_spec (last step : Int) : 0 < (spec name arity write 1 last step).firstKey.val := by
  change 0 < (I64.wrap 1).val
  decide

theorem sliceFrom_one : sliceFrom (word :: rest) 1 = .ok rest := by
  simp [sliceFrom]

theorem described_one {key : Bytes} (hkeys : operation.keys = [key])
    (hkey : index (word :: rest) 1 = .ok key) (hreads : write = false → operation.reads = true) :
    Described (spec name arity write 1 1 1) (word :: rest) operation := by
  refine ⟨firstKey_spec _ _, ?_, hreads⟩
  rw [hkeys, keyPositions_one, List.map_singleton, List.map_singleton, index_eq_ok.mp hkey]

theorem described_all (hkeys : sliceFrom (word :: rest) 1 = .ok operation.keys)
    (hreads : write = false → operation.reads = true) :
    Described (spec name arity write 1 (-1) 1) (word :: rest) operation := by
  refine ⟨firstKey_spec _ _, ?_, hreads⟩
  rw [sliceFrom_one] at hkeys
  rw [← Except.ok.inj hkeys, map_some_eq, keyPositions_all, List.map_map, List.length_cons,
    Nat.add_sub_cancel]
  refine List.map_congr_left fun i _ => ?_
  rw [Function.comp_apply, Nat.add_comm 1 i, List.getElem?_cons_succ]

theorem described_pairs (hodd : (word :: rest).length % 2 = 1)
    (hkeys : operation.keys = (pairs rest).map Prod.fst)
    (hreads : write = false → operation.reads = true) :
    Described (spec name arity write 1 (-1) 2) (word :: rest) operation := by
  obtain ⟨k, hk⟩ : ∃ k, rest.length = 2 * k := by
    rw [List.length_cons] at hodd
    exact ⟨rest.length / 2, by omega⟩
  refine ⟨firstKey_spec _ _, ?_, hreads⟩
  rw [hkeys, map_some_pairs k hk, List.length_cons, hk, keyPositions_pairs, List.map_map]
  refine List.map_congr_left fun i _ => ?_
  rw [Function.comp_apply, Nat.add_comm 1, List.getElem?_cons_succ]

end

theorem parseHello_ne_data (a : List Bytes) (limits : ParseLimits) (operation : Operation) :
    parseHello a limits ≠ .ok (.data operation) := by
  intro hparse
  obtain ⟨protocol, -, hrest⟩ := bind_eq_ok.mp hparse
  obtain ⟨options, -, hcommand⟩ := bind_eq_ok.mp hrest
  cases hcommand

theorem parseMetadata_ne_data (a : List Bytes) (operation : Operation) :
    parseMetadata a ≠ .ok (.data operation) := by
  intro hparse
  unfold parseMetadata at hparse
  split at hparse
  · cases hparse
  · obtain ⟨subcommand, -, hrest⟩ := bind_eq_ok.mp hparse
    split at hrest
    · cases hrest
    · split at hrest
      · obtain ⟨names, -, hcommand⟩ := bind_eq_ok.mp hrest
        cases hcommand
      · cases hrest

/-- The arms of the parser that make no data command. -/
theorem parseNamed_ne_data {s : CommandSpec} (hs : s ∈ specs) (hfirst : s.firstKey.val = 0)
    {a : List Bytes} {limits : ParseLimits} {operation : Operation} :
    parseNamed s.name a limits ≠ .ok (.data operation) := by
  have hnames : ∀ s ∈ specs, s.firstKey.val = 0 → s.name ∈ [CommandName.ping, .echo, .quit, .auth,
      .hello, .select, .command, .client, .info] := by
    decide
  have hname := hnames s hs hfirst
  intro hparse
  generalize s.name = name at hname hparse
  simp only [List.mem_cons, List.not_mem_nil, or_false] at hname
  rcases hname with rfl | rfl | rfl | rfl | rfl | rfl | rfl | rfl | rfl <;>
    simp only [parseNamed] at hparse
  · split at hparse <;> cases hparse
  · obtain ⟨value, -, hcommand⟩ := map_eq_ok.mp hparse
    cases hcommand
  · cases hparse
  · split at hparse
    · obtain ⟨password, -, hcommand⟩ := map_eq_ok.mp hparse
      cases hcommand
    · split at hparse
      · obtain ⟨username, -, hrest⟩ := bind_eq_ok.mp hparse
        obtain ⟨password, -, hcommand⟩ := bind_eq_ok.mp hrest
        cases hcommand
      · cases hparse
  · exact parseHello_ne_data a limits operation hparse
  · obtain ⟨argument, -, hrest⟩ := bind_eq_ok.mp hparse
    obtain ⟨n, -, hcommand⟩ := bind_eq_ok.mp hrest
    cases hcommand
  · exact parseMetadata_ne_data a operation hparse
  · obtain ⟨client, -, hcommand⟩ := map_eq_ok.mp hparse
    cases hcommand
  · split at hparse <;> cases hparse

section

variable {name : CommandName} {arity : Int} {write : Bool} {word : Bytes} {rest : List Bytes}
  {command : Command}

theorem described_of_index {make : Bytes → Operation} (hkeys : ∀ key, (make key).keys = [key])
    (hreads : write = false → ∀ key, (make key).reads = true)
    (hparse : (index (word :: rest) 1).map (fun key => .data (make key)) = .ok command) :
    ∃ operation, command = .data operation ∧
      Described (spec name arity write 1 1 1) (word :: rest) operation := by
  obtain ⟨key, hkey, rfl⟩ := map_eq_ok.mp hparse
  exact ⟨make key, rfl, described_one (hkeys key) hkey fun hwrite => hreads hwrite key⟩

theorem described_of_slice {make : List Bytes → Operation} (hkeys : ∀ keys, (make keys).keys = keys)
    (hreads : write = false → ∀ keys, (make keys).reads = true)
    (hparse : (sliceFrom (word :: rest) 1).map (fun keys => .data (make keys)) = .ok command) :
    ∃ operation, command = .data operation ∧
      Described (spec name arity write 1 (-1) 1) (word :: rest) operation := by
  obtain ⟨keys, hslice, rfl⟩ := map_eq_ok.mp hparse
  refine ⟨make keys, rfl, described_all ?_ fun hwrite => hreads hwrite keys⟩
  rw [hkeys, hslice]

theorem described_of_set {limits : ParseLimits}
    (hparse : parseNamed .set (word :: rest) limits = .ok command) :
    ∃ operation, command = .data operation ∧
      Described (spec name arity true 1 1 1) (word :: rest) operation := by
  obtain ⟨operation, hset, rfl⟩ := map_eq_ok.mp hparse
  obtain ⟨options, -, hkeyed⟩ := bind_eq_ok.mp hset
  obtain ⟨key, hkey, hvalued⟩ := bind_eq_ok.mp hkeyed
  obtain ⟨value, -, hoperation⟩ := bind_eq_ok.mp hvalued
  cases hoperation
  exact ⟨_, rfl, described_one rfl hkey nofun⟩

theorem described_of_mset {limits : ParseLimits}
    (hparse : parseNamed .mset (word :: rest) limits = .ok command) :
    ∃ operation, command = .data operation ∧
      Described (spec name arity true 1 (-1) 2) (word :: rest) operation := by
  simp only [parseNamed] at hparse
  split at hparse
  · next hodd =>
      rw [sliceFrom_one] at hparse
      cases hparse
      exact ⟨_, rfl, described_pairs hodd rfl nofun⟩
  · cases hparse

theorem described_of_increment (hparse : parseIncrement name (word :: rest) = .ok command) :
    ∃ operation, command = .data operation ∧
      Described (spec name arity true 1 1 1) (word :: rest) operation := by
  obtain ⟨key, hkey, hrest⟩ := bind_eq_ok.mp hparse
  obtain ⟨amount, -, hcommand⟩ := bind_eq_ok.mp hrest
  cases hcommand
  exact ⟨_, rfl, described_one rfl hkey nofun⟩

theorem described_of_expire (hparse : parseExpire name (word :: rest) = .ok command) :
    ∃ operation, command = .data operation ∧
      Described (spec name arity true 1 1 1) (word :: rest) operation := by
  obtain ⟨argument, -, hargument⟩ := bind_eq_ok.mp hparse
  obtain ⟨value, -, hvalue⟩ := bind_eq_ok.mp hargument
  obtain ⟨milliseconds, -, hmilliseconds⟩ := bind_eq_ok.mp hvalue
  obtain ⟨key, hkey, hcommand⟩ := bind_eq_ok.mp hmilliseconds
  cases hcommand
  exact ⟨_, rfl, described_one rfl hkey nofun⟩

end

/-- The arms that do: one key, all arguments, or every second one. -/
theorem described_of_parseNamed {s : CommandSpec} (hs : s ∈ specs) (hfirst : s.firstKey.val ≠ 0)
    {word : Bytes} {rest : List Bytes} {limits : ParseLimits} {command : Command}
    (hparse : parseNamed s.name (word :: rest) limits = .ok command) :
    ∃ operation, command = .data operation ∧ Described s (word :: rest) operation := by
  simp only [specs, List.mem_cons, List.not_mem_nil, or_false] at hs
  rcases hs with rfl | rfl | rfl | rfl | rfl | rfl | rfl | rfl | rfl | rfl | rfl | rfl | rfl | rfl |
    rfl | rfl | rfl | rfl | rfl | rfl | rfl | rfl | rfl | rfl
  all_goals first
    | exact absurd rfl hfirst
    | exact described_of_increment hparse
    | exact described_of_expire hparse
    | exact described_of_set hparse
    | exact described_of_mset hparse
    | exact described_of_index (fun _ => rfl) (fun _ _ => rfl) hparse
    | exact described_of_index (fun _ => rfl) nofun hparse
    | exact described_of_slice (fun _ => rfl) (fun _ _ => rfl) hparse
    | exact described_of_slice (fun _ => rfl) nofun hparse

/-! ### Reading changes nothing that is alive -/

namespace Shard

variable {shard after : Shard} {nowMs : I64} {operation : Operation}

theorem stale_of_reads (hreads : operation.reads = true) {response : Reply} {effects : Effects}
    (heval : shard.evaluate operation nowMs = .ok (response, effects)) {key : Bytes}
    {entry : Option Entry} (heffect : effects.lookup key = some entry) :
    shard.stale nowMs key = true := by
  have hsweep : ∀ read, effects = shard.sweep nowMs read ∅ → shard.stale nowMs key = true := by
    rintro read rfl
    rw [lookup_sweep] at heffect
    split at heffect
    · next hswept => exact hswept.1 ▸ hswept.2
    · cases heffect
  have hobserve : ∀ keys, effects = (shard.observeAll nowMs keys ∅).2 →
      shard.stale nowMs key = true := by
    rintro keys rfl
    rw [lookup_observeAll] at heffect
    split at heffect
    · next hswept => exact hswept.2
    · cases heffect
  cases operation with
  | get read =>
      simp only [evaluate, observe_eq] at heval
      cases heval
      exact hsweep read rfl
  | ttl read milliseconds =>
      simp only [evaluate, observe_eq] at heval
      cases heval
      exact hsweep read rfl
  | «exists» keys =>
      cases heval
      exact hobserve keys rfl
  | multiGet keys =>
      cases heval
      exact hobserve keys rfl
  | _ => cases hreads

theorem lookup_of_reads (hwf : shard.WellFormed) (hreads : operation.reads = true)
    {seed : HashSeed} {result : Except EngineError Reply}
    (hexecute : shard.execute seed operation nowMs = .ok (after, result)) {key : Bytes}
    {entry : Entry} (hentry : shard.entries.lookup key = some entry)
    (halive : entry.due nowMs = false) : after.entries.lookup key = some entry := by
  rcases execute_spec hwf hexecute with
    ⟨failure, -, rfl, -⟩ | ⟨response, effects, -, heval, -, hinstalled⟩
  · exact hentry
  · rw [hinstalled.entries, Finmap.lookup_overlay]
    cases heffect : effects.lookup key with
    | none => exact hentry
    | some next =>
        have hstale := stale_of_reads hreads heval heffect
        simp [stale, hentry, halive] at hstale

end Shard

end Recall
