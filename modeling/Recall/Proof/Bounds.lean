import Recall.Connection
import Recall.Proof.Decoder

/-!
# The decoder stays in bounds

The offsets a decoder keeps between calls stay ordered and within the buffer and the frame limit,
however the stream is cut. So no subtraction of the source underflows and no index or range is out
of bounds, and a connection, which reads no more than the frame limit leaves room for, always has
room for another byte.
-/

namespace Recall

namespace Decoder

/-- What holds of a decoder and the buffer in front of it. -/
structure InBounds (d : Decoder) (input : Bytes) : Prop where
  cursor_le_scan : d.cursor ≤ d.scan
  scan_le_length : d.scan ≤ input.length
  cursor_le_frame : d.cursor ≤ d.limits.maxFrameBytes
  increasing : d.spans.Pairwise fun first second => first.2 < second.1
  before_cursor : ∀ span ∈ d.spans, span.1 ≤ span.2 ∧ span.2 < d.cursor
  counted : ∀ count, d.argumentCount = some count → 0 < d.cursor ∧ d.spans.length ≤ count
  unstarted : d.argumentCount = none → d.cursor = 0 ∧ d.bulkLength = none ∧ d.spans = []

/-- The declared number of arguments has not been read yet. -/
def Unfinished (d : Decoder) : Prop := some d.spans.length ≠ d.argumentCount

variable {d d' : Decoder} {input rest : Bytes}

theorem fresh_inBounds (limits : Limits) : (fresh limits).InBounds [] where
  cursor_le_scan := le_refl _
  scan_le_length := le_refl _
  cursor_le_frame := Nat.zero_le _
  increasing := .nil
  before_cursor := nofun
  counted := nofun
  unstarted _ := ⟨rfl, rfl, rfl⟩

theorem InBounds.append (hbounds : d.InBounds input) (more : Bytes) : d.InBounds (input ++ more) where
  cursor_le_scan := hbounds.cursor_le_scan
  scan_le_length := by
    rw [List.length_append]
    exact hbounds.scan_le_length.trans (Nat.le_add_right _ _)
  cursor_le_frame := hbounds.cursor_le_frame
  increasing := hbounds.increasing
  before_cursor := hbounds.before_cursor
  counted := hbounds.counted
  unstarted := hbounds.unstarted

theorem InBounds.cursor_le_length (hbounds : d.InBounds input) : d.cursor ≤ input.length :=
  hbounds.cursor_le_scan.trans hbounds.scan_le_length

/-- With an empty buffer there is nothing a decoder could have read of a frame. -/
theorem InBounds.eq_fresh (hbounds : d.InBounds []) : d = fresh d.limits := by
  have hscan : d.scan = 0 := Nat.le_zero.mp hbounds.scan_le_length
  have hcursor : d.cursor = 0 := Nat.le_zero.mp hbounds.cursor_le_length
  have hcount : d.argumentCount = none := by
    by_contra hsome
    obtain ⟨count, hcount⟩ := Option.ne_none_iff_exists'.mp hsome
    have hpos := (hbounds.counted count hcount).1
    omega
  obtain ⟨-, hbulk, hspans⟩ := hbounds.unstarted hcount
  cases d
  simp only at hscan hcursor hcount hbulk hspans
  subst hscan hcursor hcount hbulk hspans
  rfl

/-! ### One pass -/

theorem headerEnd_waiting (hend : d.headerEnd input = .ok (d', none)) :
    ∃ scan, d' = { d with scan } ∧ d.scan ≤ scan ∧ (d.scan ≤ input.length → scan ≤ input.length) ∧
      input.length < d.limits.maxFrameBytes := by
  induction hend using headerEnd_ok_induction with
  | found d _ _ _ _ _ _ _ hstop => cases hstop
  | next d _ _ _ hlt ih =>
      obtain ⟨scan, hstate, hscan, hlength, hframe⟩ := ih
      simp only at hscan hlength
      exact ⟨scan, hstate, by omega, fun _ => hlength (by omega), hframe⟩
  | wait d _ hframe hstate => exact ⟨_, hstate, le_refl _, id, hframe⟩

/-- A stage that waits for its line only moves the scan, and the buffer is not full. -/
theorem readHeader_waiting {marker : UInt8} (hbounds : d.InBounds input)
    (hread : d.readHeader input marker = .ok (d', none)) :
    ∃ scan, d' = { d with scan } ∧ d'.InBounds input ∧ input.length < d.limits.maxFrameBytes := by
  obtain ⟨-, hend⟩ | ⟨_, _, hline, -⟩ := readHeader_ok hread
  · obtain ⟨scan, rfl, hscan, hlength, hframe⟩ := headerEnd_waiting hend
    refine ⟨scan, rfl, ?_, hframe⟩
    exact { hbounds with
      cursor_le_scan := hbounds.cursor_le_scan.trans hscan
      scan_le_length := hlength hbounds.scan_le_length }
  · cases hline

/-- A line that was read ends within the buffer and the frame. -/
theorem readHeader_found {marker : UInt8} {stop length : Nat}
    (hread : d.readHeader input marker = .ok (d', some (stop, length))) :
    d' = { d with scan := stop } ∧ d.cursor + 1 < stop ∧ stop + 2 ≤ input.length ∧
      stop + 2 ≤ d.limits.maxFrameBytes := by
  have hcursor := readHeader_stop hread
  obtain ⟨hnone, -⟩ | ⟨_, _, hline, hend, -⟩ := readHeader_ok hread
  · cases hnone
  · cases hline
    obtain ⟨rfl, -, hstop, -, -, -, hframe, -⟩ := headerEnd_found hend
    exact ⟨rfl, hcursor, by omega, hframe⟩

theorem countStage_inBounds {complete : Bool} (hbounds : d.InBounds input)
    (hunfinished : d.Unfinished) (hstage : d.countStage input = .ok (d', complete)) :
    d'.InBounds input ∧ d'.Unfinished ∧ d'.limits = d.limits ∧
      (complete = false → input.length < d.limits.maxFrameBytes) ∧
      (complete = true → d'.argumentCount.isSome) := by
  obtain ⟨hsome, rfl, rfl⟩ | ⟨hnone, hread, rfl⟩ | ⟨e, stop, count, hnone, hread, hpos, -, rfl, rfl⟩ :=
    countStage_ok hstage
  · exact ⟨hbounds, hunfinished, rfl, nofun, fun _ => hsome⟩
  · obtain ⟨scan, rfl, hwaiting, hframe⟩ := readHeader_waiting hbounds hread
    exact ⟨hwaiting, hunfinished, rfl, fun _ => hframe, nofun⟩
  · obtain ⟨rfl, -, hlength, hframe⟩ := readHeader_found hread
    obtain ⟨-, -, hspans⟩ := hbounds.unstarted hnone
    refine ⟨?_, ?_, rfl, nofun, fun _ => rfl⟩
    · refine ⟨le_refl _, hlength, hframe, hbounds.increasing, ?_, ?_, nofun⟩
      · simp [hspans]
      · rintro declared hdeclared
        cases hdeclared
        simp [hspans]
    · simp only [Unfinished, hspans, List.length_nil, ne_eq, Option.some.injEq]
      omega

theorem bulkStage_inBounds {line : Option Nat} (hbounds : d.InBounds input)
    (hsome : d.argumentCount.isSome) (hstage : d.bulkStage input = .ok (d', line)) :
    d'.InBounds input ∧ (d.Unfinished → d'.Unfinished) ∧ d'.limits = d.limits ∧
      d'.argumentCount.isSome ∧ (line = none → input.length < d.limits.maxFrameBytes) := by
  obtain ⟨hknown, rfl, rfl⟩ | ⟨hnone, hread, rfl⟩ | ⟨e, stop, length, hnone, hread, -, rfl, rfl⟩ :=
    bulkStage_ok hstage
  · refine ⟨hbounds, id, rfl, hsome, fun hnone => ?_⟩
    rw [hnone] at hknown
    cases hknown
  · obtain ⟨scan, rfl, hwaiting, hframe⟩ := readHeader_waiting hbounds hread
    exact ⟨hwaiting, id, rfl, hsome, fun _ => hframe⟩
  · obtain ⟨rfl, hcursor, hlength, hframe⟩ := readHeader_found hread
    refine ⟨⟨le_refl _, hlength, hframe, hbounds.increasing, ?_, ?_, ?_⟩, id, rfl, hsome, nofun⟩
    · intro span hspan
      obtain ⟨hordered, hbefore⟩ := hbounds.before_cursor span hspan
      exact ⟨hordered, by simp only; omega⟩
    · intro count hcount
      exact ⟨Nat.succ_pos _, (hbounds.counted count hcount).2⟩
    · intro hcount
      rw [hcount] at hsome
      cases hsome

theorem argumentStage_inBounds {length : Nat} {complete : Bool} (hbounds : d.InBounds input)
    (hunfinished : d.Unfinished) (hsome : d.argumentCount.isSome)
    (hstage : d.argumentStage input length = .ok (d', complete)) :
    d'.InBounds input ∧ d'.limits = d.limits ∧
      (complete = false → d'.Unfinished ∧ input.length < d.limits.maxFrameBytes) ∧
      (complete = true → d'.bulkLength = none) := by
  obtain ⟨hframe, ⟨rfl, rfl, hshort⟩ | ⟨rfl, hlong, -, rfl⟩⟩ := argumentStage_ok hstage
  · exact ⟨hbounds, rfl, fun _ => ⟨hunfinished, by omega⟩, nofun⟩
  · refine ⟨⟨le_refl _, hlong, hframe, ?_, ?_, ?_, ?_⟩, rfl, nofun, fun _ => rfl⟩
    · refine List.pairwise_append.mpr ⟨hbounds.increasing, List.pairwise_singleton _ _, ?_⟩
      intro span hspan new hnew
      rw [List.mem_singleton.mp hnew]
      exact (hbounds.before_cursor span hspan).2
    · intro span hspan
      rcases List.mem_append.mp hspan with hold | hnew
      · obtain ⟨hordered, hbefore⟩ := hbounds.before_cursor span hold
        exact ⟨hordered, by simp only; omega⟩
      · rw [List.mem_singleton.mp hnew]
        simp only
        omega
    · intro count hcount
      have hle := (hbounds.counted count hcount).2
      have hne : d.spans.length ≠ count := fun heq => hunfinished (heq ▸ hcount.symm)
      rw [List.length_append, List.length_singleton]
      exact ⟨Nat.succ_pos _, by omega⟩
    · intro hcount
      simp only at hcount
      rw [hcount] at hsome
      cases hsome

theorem pass_inBounds {complete : Bool} (hbounds : d.InBounds input) (hunfinished : d.Unfinished)
    (hpass : d.pass input = .ok (d', complete)) :
    d'.InBounds input ∧ d'.limits = d.limits ∧
      (complete = false → d'.Unfinished ∧ input.length < d.limits.maxFrameBytes) ∧
      (complete = true → d'.bulkLength = none) := by
  obtain ⟨rfl, hcount⟩ | ⟨d₁, hcount, hrest⟩ := pass_ok hpass
  · obtain ⟨hbounds', hunfinished', hlimits, hframe, -⟩ :=
      countStage_inBounds hbounds hunfinished hcount
    exact ⟨hbounds', hlimits, fun _ => ⟨hunfinished', hframe rfl⟩, nofun⟩
  · obtain ⟨hbounds₁, hunfinished₁, hlimits₁, -, hsome⟩ :=
      countStage_inBounds hbounds hunfinished hcount
    obtain ⟨rfl, hbulk⟩ | ⟨d₂, length, hbulk, hargument⟩ := hrest
    · obtain ⟨hbounds', hunfinished', hlimits, -, hframe⟩ :=
        bulkStage_inBounds hbounds₁ (hsome rfl) hbulk
      refine ⟨hbounds', hlimits.trans hlimits₁, fun _ => ⟨hunfinished' hunfinished₁, ?_⟩, nofun⟩
      rw [← hlimits₁]
      exact hframe rfl
    · obtain ⟨hbounds₂, hunfinished₂, hlimits₂, hsome₂, -⟩ :=
        bulkStage_inBounds hbounds₁ (hsome rfl) hbulk
      obtain ⟨hbounds', hlimits, hwait, hdone⟩ :=
        argumentStage_inBounds hbounds₂ (hunfinished₂ hunfinished₁) hsome₂ hargument
      rw [hlimits₂, hlimits₁] at hlimits hwait
      exact ⟨hbounds', hlimits, hwait, hdone⟩

/-! ### One call -/

/-- The states at the head of the loop in a call. -/
inductive LoopHead (d : Decoder) (input : Bytes) : Decoder → Prop
  | entry : LoopHead d input d
  | again {e e' : Decoder} (hhead : LoopHead d input e) (hpass : e.pass input = .ok (e', true))
      (hmore : e'.Unfinished) : LoopHead d input e'

theorem LoopHead.inBounds {e : Decoder} (hhead : LoopHead d input e) (hbounds : d.InBounds input)
    (hunfinished : d.Unfinished) : e.InBounds input ∧ e.Unfinished ∧ e.limits = d.limits := by
  induction hhead with
  | entry => exact ⟨hbounds, hunfinished, rfl⟩
  | again hhead hpass hmore ih =>
      obtain ⟨hbounds', hunfinished', hlimits⟩ := ih
      obtain ⟨hnext, hlimits', -⟩ := pass_inBounds hbounds' hunfinished' hpass
      exact ⟨hnext, hmore, hlimits'.trans hlimits⟩

theorem decode_inBounds {request : Option Request} (hbounds : d.InBounds input)
    (hunfinished : d.Unfinished) (hdecode : d.decode input = .ok (d', rest, request)) :
    d'.InBounds rest ∧ d'.Unfinished ∧ d'.limits = d.limits ∧
      (request = none → rest = input ∧ input.length < d.limits.maxFrameBytes) := by
  induction hdecode using decode_ok_induction with
  | wait d _ hpass hrest _ =>
      obtain ⟨hbounds', hlimits, hwait, -⟩ := pass_inBounds hbounds hunfinished hpass
      obtain ⟨hunfinished', hframe⟩ := hwait rfl
      exact ⟨hrest ▸ hbounds', hunfinished', hlimits, fun _ => ⟨hrest, hframe⟩⟩
  | last d _ e hpass _ hfinish =>
      obtain ⟨-, hlimits, -, hdone⟩ := pass_inBounds hbounds hunfinished hpass
      cases hfinish
      refine ⟨?_, Option.some_ne_none _, hlimits, fun hnone => by cases hnone⟩
      refine ⟨le_refl _, Nat.zero_le _, Nat.zero_le _, .nil, fun span hspan => ?_,
        fun count hcount => ?_, fun _ => ⟨rfl, hdone rfl, rfl⟩⟩
      · cases hspan
      · cases hcount
  | next d _ e _ hpass hmore ih =>
      obtain ⟨hbounds', hlimits, -⟩ := pass_inBounds hbounds hunfinished hpass
      rw [← hlimits]
      exact ih hbounds' hmore

/-! ### The panics of the source

The same functions with the checks the language makes: a subtraction that underflows and an index or
a range outside the buffer end the program. -/

inductive Fault where
  | underflow
  | outOfRange
  | refuse (failure : ProtocolError)

def subtract (a b : Nat) : Except Fault Nat := if b ≤ a then .ok (a - b) else .error .underflow

def byteAt (input : Bytes) (i : Nat) : Except Fault UInt8 :=
  match input[i]? with
  | some b => .ok b
  | none => .error .outOfRange

def bytesAt (input : Bytes) (start stop : Nat) : Except Fault Bytes :=
  if start ≤ stop ∧ stop ≤ input.length then .ok (slice input start stop) else .error .outOfRange

def headerEndChecked (d : Decoder) (input : Bytes) : Except Fault (Decoder × Option Nat) :=
  if h : d.scan + 1 < input.length then do
    let width ← subtract d.scan d.cursor
    if d.limits.maxHeaderBytes < width + 2 ∨ d.limits.maxFrameBytes < d.scan + 2 then
      .error (.refuse .headerLimit)
    else do
      let current ← byteAt input d.scan
      let next ← byteAt input (d.scan + 1)
      if current = 13 ∧ next = 10 then
        .ok (d, some d.scan)
      else if current = 10 then
        .error (.refuse .lineEnding)
      else
        headerEndChecked { d with scan := d.scan + 1 } input
  else if d.limits.maxHeaderBytes ≤ input.length - d.cursor ∨
      d.limits.maxFrameBytes ≤ input.length then
    .error (.refuse .headerUnterminated)
  else
    .ok (d, none)
termination_by input.length - d.scan

def lengthFromChecked (length : Nat) : Bytes → Except Fault Nat
  | [] => .ok length
  | digit :: digits =>
      if ¬ Decimal.isDigit digit then
        .error (.refuse .lengthDigit)
      else do
        let value ← subtract digit.toNat 48
        match (usizeCheckedMul length 10).bind fun scaled => usizeCheckedAdd scaled value with
        | none => .error (.refuse .lengthOverflow)
        | some length => lengthFromChecked length digits

def lengthHeaderChecked (d : Decoder) (input : Bytes) (stop : Nat) (marker : UInt8) :
    Except Fault Nat :=
  if stop ≤ d.cursor + 1 then
    .error (.refuse .lengthExpected)
  else do
    let first ← byteAt input d.cursor
    if first ≠ marker then
      .error (.refuse .lengthExpected)
    else do
      let digits ← bytesAt input (d.cursor + 1) stop
      lengthFromChecked 0 digits

def readHeaderChecked (d : Decoder) (input : Bytes) (marker : UInt8) :
    Except Fault (Decoder × Option (Nat × Nat)) := do
  match ← d.headerEndChecked input with
  | (d, none) => return (d, none)
  | (d, some stop) =>
      let length ← d.lengthHeaderChecked input stop marker
      return (d, some (stop, length))

def countStageChecked (d : Decoder) (input : Bytes) : Except Fault (Decoder × Bool) :=
  match d.argumentCount with
  | some _ => .ok (d, true)
  | none => do
      match ← d.readHeaderChecked input 42 with
      | (d, none) => .ok (d, false)
      | (d, some (stop, count)) =>
          if count = 0 ∨ d.limits.maxArguments < count then
            .error (.refuse .argumentCount)
          else
            .ok (({ d with argumentCount := some count }).advanceHeader stop, true)

def bulkStageChecked (d : Decoder) (input : Bytes) : Except Fault (Decoder × Option Nat) :=
  match d.bulkLength with
  | some length => .ok (d, some length)
  | none => do
      match ← d.readHeaderChecked input 36 with
      | (d, none) => .ok (d, none)
      | (d, some (stop, length)) =>
          if d.limits.maxBulkBytes < length then
            .error (.refuse .bulkLimit)
          else
            .ok ({ d.advanceHeader stop with bulkLength := some length }, some length)

def argumentStageChecked (d : Decoder) (input : Bytes) (length : Nat) :
    Except Fault (Decoder × Bool) :=
  match (usizeCheckedAdd d.cursor length).bind fun stop => usizeCheckedAdd stop 2 with
  | none => .error (.refuse .frameOverflow)
  | some stop =>
      if d.limits.maxFrameBytes < stop then
        .error (.refuse .frameLimit)
      else if input.length < stop then
        .ok (d, false)
      else do
        let last ← subtract stop 2
        let terminator ← bytesAt input last stop
        if terminator ≠ [13, 10] then
          .error (.refuse .bulkTerminator)
        else
          .ok ({ d with
            spans := d.spans ++ [(d.cursor, last)]
            cursor := stop
            scan := stop
            bulkLength := none }, true)

def passChecked (d : Decoder) (input : Bytes) : Except Fault (Decoder × Bool) := do
  match ← d.countStageChecked input with
  | (d, false) => return (d, false)
  | (d, true) =>
      match ← d.bulkStageChecked input with
      | (d, none) => return (d, false)
      | (d, some length) => d.argumentStageChecked input length

/-- `advance` asserts that the buffer is long enough. -/
def finishChecked (d : Decoder) (input : Bytes) :
    Except Fault (Decoder × Bytes × Option Request) := do
  let arguments ← d.spans.mapM fun span => bytesAt input span.1 span.2
  if d.cursor ≤ input.length then
    return ({ d with cursor := 0, scan := 0, argumentCount := none, spans := [] },
      input.drop d.cursor, some { arguments, wireBytes := d.cursor })
  else
    .error .outOfRange

theorem subtract_of_le {a b : Nat} (hle : b ≤ a) : subtract a b = .ok (a - b) := if_pos hle

theorem byteAt_of_lt {i : Nat} (hi : i < input.length) : byteAt input i = .ok input[i] := by
  rw [byteAt, List.getElem?_eq_getElem hi]

theorem bytesAt_of_le {start stop : Nat} (hstart : start ≤ stop) (hstop : stop ≤ input.length) :
    bytesAt input start stop = .ok (slice input start stop) := if_pos ⟨hstart, hstop⟩

theorem headerEndChecked_eq (hscan : d.cursor ≤ d.scan) :
    d.headerEndChecked input = (d.headerEnd input).mapError .refuse := by
  induction d using headerEnd.induct input with
  | case1 d hlt hlimit =>
      rw [headerEndChecked, headerEnd, dif_pos hlt, dif_pos hlt, if_pos hlimit,
        subtract_of_le hscan]
      exact if_pos hlimit
  | case2 d hlt hlimit hcrlf =>
      rw [headerEndChecked, headerEnd, dif_pos hlt, dif_pos hlt, if_neg hlimit, if_pos hcrlf,
        subtract_of_le hscan, byteAt_of_lt hlt, byteAt_of_lt (by omega)]
      exact (if_neg hlimit).trans (if_pos hcrlf)
  | case3 d hlt hlimit hcrlf hlf =>
      rw [headerEndChecked, headerEnd, dif_pos hlt, dif_pos hlt, if_neg hlimit, if_neg hcrlf,
        if_pos hlf, subtract_of_le hscan, byteAt_of_lt hlt, byteAt_of_lt (by omega)]
      exact (if_neg hlimit).trans ((if_neg hcrlf).trans (if_pos hlf))
  | case4 d hlt hlimit hcrlf hlf ih =>
      have hnext := ih (hscan.trans (Nat.le_succ _))
      rw [headerEndChecked, headerEnd, dif_pos hlt, dif_pos hlt, if_neg hlimit, if_neg hcrlf,
        if_neg hlf, subtract_of_le hscan, byteAt_of_lt hlt, byteAt_of_lt (by omega), ← hnext]
      exact (if_neg hlimit).trans ((if_neg hcrlf).trans (if_neg hlf))
  | case5 d hlt hlimit =>
      rw [headerEndChecked, headerEnd, dif_neg hlt, dif_neg hlt, if_pos hlimit, if_pos hlimit]
      rfl
  | case6 d hlt hlimit =>
      rw [headerEndChecked, headerEnd, dif_neg hlt, dif_neg hlt, if_neg hlimit, if_neg hlimit]
      rfl

theorem lengthFromChecked_eq (digits : Bytes) (length : Nat) :
    lengthFromChecked length digits = (lengthFrom length digits).mapError .refuse := by
  induction digits generalizing length with
  | nil => rfl
  | cons digit digits ih =>
      rw [lengthFromChecked, lengthFrom]
      by_cases hdigit : Decimal.isDigit digit = true
      · obtain ⟨hlower, -⟩ := Decimal.isDigit_iff.mp hdigit
        rw [if_neg (not_not.mpr hdigit), if_neg (not_not.mpr hdigit), subtract_of_le hlower]
        simp only [bind, Except.bind, show digit.toNat - 48 = Decimal.digitValue digit from rfl]
        cases (usizeCheckedMul length 10).bind fun scaled =>
            usizeCheckedAdd scaled (Decimal.digitValue digit) with
        | none => rfl
        | some next => exact ih next
      · rw [if_pos hdigit, if_pos hdigit]
        rfl

theorem lengthHeaderChecked_eq {stop : Nat} (hstop : stop ≤ input.length) (marker : UInt8) :
    d.lengthHeaderChecked input stop marker = (d.lengthHeader input stop marker).mapError .refuse := by
  rw [lengthHeaderChecked, lengthHeader]
  by_cases hshort : stop ≤ d.cursor + 1
  · rw [if_pos hshort, if_pos (.inl hshort)]
    rfl
  · have hcursor : d.cursor < input.length := by omega
    rw [if_neg hshort, byteAt_of_lt hcursor, List.getElem?_eq_getElem hcursor]
    by_cases hmarker : input[d.cursor] = marker
    · rw [if_neg, bytesAt_of_le (by omega) hstop, ← lengthFromChecked_eq]
      · exact if_neg (not_not.mpr hmarker)
      · rintro (hle | hne)
        · exact hshort hle
        · exact hne (congrArg some hmarker)
    · rw [if_pos (.inr fun hsome => hmarker (Option.some.inj hsome))]
      exact if_pos hmarker

theorem readHeaderChecked_eq (hscan : d.cursor ≤ d.scan) (marker : UInt8) :
    d.readHeaderChecked input marker = (d.readHeader input marker).mapError .refuse := by
  rw [readHeaderChecked, readHeader, headerEndChecked_eq hscan]
  rcases hend : d.headerEnd input with failure | ⟨e, _ | stop⟩
  · rfl
  · rfl
  · have hstop : stop ≤ input.length := by
      have hfound := (headerEnd_found hend).2.2.1
      omega
    change (e.lengthHeaderChecked input stop marker >>= _) = _
    rw [lengthHeaderChecked_eq hstop]
    change _ = Except.mapError _ (e.lengthHeader input stop marker >>= _)
    cases e.lengthHeader input stop marker <;> rfl

theorem countStageChecked_eq (hscan : d.cursor ≤ d.scan) :
    d.countStageChecked input = (d.countStage input).mapError .refuse := by
  rw [countStageChecked, countStage]
  cases d.argumentCount with
  | some count => rfl
  | none =>
      simp only [readHeaderChecked_eq hscan]
      rcases d.readHeader input 42 with failure | ⟨e, _ | ⟨stop, count⟩⟩
      · rfl
      · rfl
      · simp only [Except.mapError, bind, Except.bind]
        split <;> rfl

theorem bulkStageChecked_eq (hscan : d.cursor ≤ d.scan) :
    d.bulkStageChecked input = (d.bulkStage input).mapError .refuse := by
  rw [bulkStageChecked, bulkStage]
  cases d.bulkLength with
  | some length => rfl
  | none =>
      simp only [readHeaderChecked_eq hscan]
      rcases d.readHeader input 36 with failure | ⟨e, _ | ⟨stop, length⟩⟩
      · rfl
      · rfl
      · simp only [Except.mapError, bind, Except.bind]
        split <;> rfl

theorem argumentStageChecked_eq (length : Nat) :
    d.argumentStageChecked input length = (d.argumentStage input length).mapError .refuse := by
  rw [argumentStageChecked, argumentStage]
  rcases hstop : (usizeCheckedAdd d.cursor length).bind fun stop => usizeCheckedAdd stop 2 with
    _ | stop
  · rfl
  · obtain ⟨sum, -, hadd⟩ := Option.bind_eq_some_iff.mp hstop
    obtain ⟨-, rfl⟩ := usizeCheckedAdd_eq_some.mp hadd
    by_cases hframe : d.limits.maxFrameBytes < sum + 2
    · simp only [hframe, ↓reduceIte, Except.mapError]
    · by_cases hshort : input.length < sum + 2
      · simp only [hframe, hshort, ↓reduceIte, Except.mapError]
      · have hlast : subtract (sum + 2) 2 = .ok sum := subtract_of_le (Nat.le_add_left 2 sum)
        simp only [hframe, hshort, ↓reduceIte, hlast, Nat.add_sub_cancel,
          bytesAt_of_le (Nat.le_add_right sum 2) (Nat.not_lt.mp hshort), bind, Except.bind]
        split <;> rfl

/-- In bounds, the checks of a pass change nothing. -/
theorem passChecked_eq (hbounds : d.InBounds input) (hunfinished : d.Unfinished) :
    d.passChecked input = (d.pass input).mapError .refuse := by
  rw [passChecked, pass, countStageChecked_eq hbounds.cursor_le_scan]
  rcases hcount : d.countStage input with failure | ⟨d₁, _ | _⟩
  · rfl
  · rfl
  · obtain ⟨hbounds₁, -⟩ := countStage_inBounds hbounds hunfinished hcount
    simp only [Except.mapError, bind, Except.bind, bulkStageChecked_eq hbounds₁.cursor_le_scan]
    rcases d₁.bulkStage input with failure | ⟨d₂, _ | length⟩
    · rfl
    · rfl
    · exact argumentStageChecked_eq length

theorem mapM_bytesAt {spans : List (Nat × Nat)}
    (hwithin : ∀ span ∈ spans, span.1 ≤ span.2 ∧ span.2 ≤ input.length) :
    spans.mapM (fun span => bytesAt input span.1 span.2) =
      .ok (spans.map fun span => slice input span.1 span.2) := by
  induction spans with
  | nil => rfl
  | cons span spans ih =>
      obtain ⟨hordered, hlength⟩ := hwithin span List.mem_cons_self
      rw [List.mapM_cons, bytesAt_of_le hordered hlength,
        ih fun other hother => hwithin other (List.mem_cons_of_mem _ hother)]
      rfl

theorem finishChecked_eq (hbounds : d.InBounds input) :
    d.finishChecked input = .ok (d.finish input) := by
  have hwithin : ∀ span ∈ d.spans, span.1 ≤ span.2 ∧ span.2 ≤ input.length := by
    intro span hspan
    obtain ⟨hordered, hbefore⟩ := hbounds.before_cursor span hspan
    have hlength := hbounds.cursor_le_length
    exact ⟨hordered, by omega⟩
  rw [finishChecked, mapM_bytesAt hwithin]
  exact if_pos hbounds.cursor_le_length

/-! ### Any chunks, any calls -/

/-- A decoder and its buffer after some chunks and some calls, none of which failed. -/
inductive Decoding (limits : Limits) : Decoder → Bytes → Prop
  | start {d : Decoder} (hnew : new limits = .ok d) : Decoding limits d []
  | append {d : Decoder} {input : Bytes} (hdecoding : Decoding limits d input) (chunk : Bytes) :
      Decoding limits d (input ++ chunk)
  | call {d d' : Decoder} {input rest : Bytes} {request : Option Request}
      (hdecoding : Decoding limits d input)
      (hdecode : d.decode input = .ok (d', rest, request)) : Decoding limits d' rest

theorem Decoding.inBounds {limits : Limits} (hdecoding : Decoding limits d input) :
    d.InBounds input ∧ d.Unfinished ∧ d.limits = limits := by
  induction hdecoding with
  | start hnew =>
      obtain ⟨-, rfl⟩ := new_ok hnew
      exact ⟨fresh_inBounds limits, nofun, rfl⟩
  | append hdecoding chunk ih => exact ⟨ih.1.append chunk, ih.2⟩
  | call hdecoding hdecode ih =>
      obtain ⟨hbounds, hunfinished, hlimits⟩ := ih
      obtain ⟨hbounds', hunfinished', hlimits', -⟩ := decode_inBounds hbounds hunfinished hdecode
      exact ⟨hbounds', hunfinished', hlimits'.trans hlimits⟩

theorem Decoding.waiting {limits : Limits} (hdecoding : Decoding limits d input)
    (hdecode : d.decode input = .ok (d', rest, none)) :
    rest = input ∧ input.length < limits.maxFrameBytes := by
  obtain ⟨hbounds, hunfinished, rfl⟩ := hdecoding.inBounds
  obtain ⟨-, -, -, hwait⟩ := decode_inBounds hbounds hunfinished hdecode
  exact hwait rfl

end Decoder

namespace Reader

open Decoder

/-- The states at the head of the loop of `next_request`, from the first to the last request of a
connection. -/
inductive Reading (config : Config) : Reader → Prop
  | start {decoder : Decoder} (hnew : Decoder.new config.protocol = .ok decoder) (stream : Bytes) :
      Reading config ⟨decoder, [], stream⟩
  | request {reader : Reader} {decoder : Decoder} {input : Bytes} {request : Request}
      (hreading : Reading config reader)
      (hdecode : reader.decoder.decode reader.input = .ok (decoder, input, some request)) :
      Reading config { reader with decoder, input }
  | received {reader : Reader} {decoder : Decoder} {input : Bytes} (hreading : Reading config reader)
      (hdecode : reader.decoder.decode reader.input = .ok (decoder, input, none)) {received : Bytes}
      (hlength : received.length ≤ remaining config input) (stream : Bytes) :
      Reading config ⟨decoder, input ++ received, stream⟩

variable {config : Config} {reader : Reader}

theorem Reading.decoding (hreading : Reading config reader) :
    Decoding config.protocol reader.decoder reader.input := by
  induction hreading with
  | start hnew stream => exact .start hnew
  | request hreading hdecode ih => exact .call ih hdecode
  | received hreading hdecode hlength stream ih => exact (Decoding.call ih hdecode).append _

theorem Reading.length_le (hreading : Reading config reader) :
    reader.input.length ≤ config.protocol.maxFrameBytes := by
  induction hreading with
  | start hnew stream => exact Nat.zero_le _
  | request hreading hdecode ih => exact (decode_shrinks hdecode).le.trans ih
  | received hreading hdecode hlength stream ih =>
      obtain ⟨rfl, hframe⟩ := hreading.decoding.waiting hdecode
      rw [remaining] at hlength
      simp only [List.length_append]
      omega

/-- Where a read is made there is room for a byte, and an empty buffer means no frame was begun. -/
theorem Reading.waiting (hreading : Reading config reader) {decoder : Decoder} {input : Bytes}
    (hdecode : reader.decoder.decode reader.input = .ok (decoder, input, none)) :
    0 < remaining config input ∧
      input.length + remaining config input ≤ config.protocol.maxFrameBytes ∧
      (input = [] → decoder = fresh config.protocol) := by
  obtain ⟨rfl, hframe⟩ := hreading.decoding.waiting hdecode
  obtain ⟨hbounds, -, hlimits⟩ := (Decoding.call hreading.decoding hdecode).inBounds
  refine ⟨?_, ?_, fun hempty => ?_⟩
  · rw [remaining, chunkBytes]
    omega
  · rw [remaining]
    omega
  · rw [hempty] at hbounds
    rw [← hlimits]
    exact hbounds.eq_fresh

/-- What `next_request` comes back with: the frame limit it tests itself is never the reason. -/
structure Bounded (config : Config) (outcome : NextRequest) (after : Reader) : Prop where
  length_le : after.input.length ≤ config.protocol.maxFrameBytes
  request : ∀ arguments, outcome = .request arguments → Reading config after
  finished : outcome = .finished → after.input = [] → after.decoder = fresh config.protocol
  failure : ∀ message, outcome = .failure (.protocol message) →
    (after.input ≠ [] ∧ message = "truncated request") ∨
      ∃ failure, after.decoder.decode after.input = .error failure ∧ message = failure.message

theorem Reading.bounded_of_error (hreading : Reading config reader) {failure : ProtocolError}
    (hdecode : reader.decoder.decode reader.input = .error failure) :
    Bounded config (.failure (.protocol failure.message)) reader := by
  refine ⟨hreading.length_le, nofun, nofun, fun message hmessage => ?_⟩
  cases hmessage
  exact .inr ⟨failure, hdecode, rfl⟩

theorem Reading.bounded_of_request (hreading : Reading config reader) {decoder : Decoder}
    {input : Bytes} {request : Request}
    (hdecode : reader.decoder.decode reader.input = .ok (decoder, input, some request))
    (arguments : List Bytes) :
    Bounded config (.request arguments) { reader with decoder, input } := by
  have hnext := hreading.request hdecode
  exact ⟨hnext.length_le, fun _ _ => hnext, nofun, nofun⟩

/-- Whatever ends the wait for more bytes, the buffer has room left. -/
theorem Reading.bounded_of_waiting (hreading : Reading config reader) {decoder : Decoder}
    {input : Bytes} (hdecode : reader.decoder.decode reader.input = .ok (decoder, input, none))
    {outcome : NextRequest} (hrequest : ∀ arguments, outcome ≠ .request arguments)
    (hfailure : ∀ message, outcome = .failure (.protocol message) →
      input ≠ [] ∧ message = "truncated request") :
    Bounded config outcome { reader with decoder, input } := by
  obtain ⟨-, hlength, hfresh⟩ := hreading.waiting hdecode
  refine ⟨?_, ?_, fun _ => hfresh, fun message hmessage => .inl (hfailure message hmessage)⟩
  · exact (Nat.le_add_right _ _).trans hlength
  · exact fun arguments houtcome => absurd houtcome (hrequest arguments)

theorem nextRequest_bounded (arrivals : List Arrival) (hreading : Reading config reader) :
    Bounded config (reader.nextRequest config arrivals).1 (reader.nextRequest config arrivals).2 := by
  fun_induction nextRequest config arrivals reader with
  | case1 _ _ failure hdecode => exact hreading.bounded_of_error hdecode
  | case2 _ _ decoder input request hdecode => exact hreading.bounded_of_request hdecode _
  | case3 _ _ decoder input hdecode hfull => exact absurd hfull (hreading.waiting hdecode).1.ne'
  -- Nothing arrives, the server stops, or the read fails.
  | case4 _ decoder input hdecode _ => exact hreading.bounded_of_waiting hdecode nofun nofun
  | case5 _ decoder input hdecode _ => exact hreading.bounded_of_waiting hdecode nofun nofun
  | case6 _ decoder input hdecode _ => exact hreading.bounded_of_waiting hdecode nofun nofun
  -- The stream ends, between two requests or within one.
  | case7 _ decoder _ _ hdecode => exact hreading.bounded_of_waiting hdecode nofun nofun
  | case8 _ decoder input hdecode _ _ _ _ _ hunfinished =>
      refine hreading.bounded_of_waiting hdecode nofun fun message hmessage => ?_
      cases hmessage
      exact ⟨hunfinished, rfl⟩
  | case9 _ decoder input hdecode _ most arrivals received _ ih =>
      refine ih (.received hreading hdecode ?_ _)
      rw [List.length_take]
      omega

end Reader

/-- However the stream is cut, a decoder stays within its buffer and its frame limit at every point
of every call, waits only while the buffer is shorter than that limit, and so a connection always
asks for at least one byte and never outgrows the limit. -/
theorem decoding_bounded (limits : Limits) :
    (∀ d input, Decoder.Decoding limits d input →
      d.InBounds input ∧ d.limits = limits ∧
      (∀ e, d.LoopHead input e → e.InBounds input ∧ e.limits = limits ∧
        e.passChecked input = (e.pass input).mapError .refuse ∧
        ∀ e' complete, e.pass input = .ok (e', complete) →
          e'.InBounds input ∧ e'.finishChecked input = .ok (e'.finish input)) ∧
      ∀ d' rest, d.decode input = .ok (d', rest, none) →
        rest = input ∧ rest.length < limits.maxFrameBytes) ∧
    ∀ config : Config, config.protocol = limits → ∀ reader, Reader.Reading config reader →
      Decoder.Decoding limits reader.decoder reader.input ∧
      reader.input.length ≤ limits.maxFrameBytes ∧
      (∀ decoder input, reader.decoder.decode reader.input = .ok (decoder, input, none) →
        0 < Reader.remaining config input ∧
        input.length + Reader.remaining config input ≤ limits.maxFrameBytes ∧
        (input = [] → decoder = Decoder.fresh limits)) ∧
      ∀ arrivals, Reader.Bounded config (reader.nextRequest config arrivals).1
        (reader.nextRequest config arrivals).2 := by
  constructor
  · intro d input hdecoding
    obtain ⟨hbounds, hunfinished, hlimits⟩ := hdecoding.inBounds
    refine ⟨hbounds, hlimits, fun e hhead => ?_, fun d' rest hdecode => ?_⟩
    · obtain ⟨hbounds', hunfinished', hlimits'⟩ := hhead.inBounds hbounds hunfinished
      refine ⟨hbounds', hlimits'.trans hlimits, Decoder.passChecked_eq hbounds' hunfinished', ?_⟩
      intro e' complete hpass
      obtain ⟨hnext, -⟩ := Decoder.pass_inBounds hbounds' hunfinished' hpass
      exact ⟨hnext, Decoder.finishChecked_eq hnext⟩
    · obtain ⟨rfl, hframe⟩ := hdecoding.waiting hdecode
      exact ⟨rfl, hframe⟩
  · rintro config rfl reader hreading
    exact ⟨hreading.decoding, hreading.length_le, fun decoder input => hreading.waiting,
      fun arrivals => Reader.nextRequest_bounded arrivals hreading⟩

/-- Two headers and half of an argument: the cursor waits behind the second header. -/
theorem decoding_bounded_partial : ∃ d,
    Decoder.Decoding .default d (ascii "*1\r\n$4\r\nPI") ∧ d.cursor = 8 ∧ d.argumentCount = some 1 ∧
      d.InBounds (ascii "*1\r\n$4\r\nPI") ∧ 10 < Limits.default.maxFrameBytes := by
  obtain ⟨⟨d, rest, request⟩, hdecode, hstate⟩ := @exists_of_okAnd _ _
    ((Decoder.fresh .default).decode ([] ++ ascii "*1\r\n$4\r\nPI"))
    (fun outcome => outcome.1.cursor = 8 ∧ outcome.1.argumentCount = some 1 ∧
      outcome.2.1 = ascii "*1\r\n$4\r\nPI" ∧ outcome.2.2 = none) (by decide +kernel)
  obtain ⟨hcursor, hcount, rfl, rfl⟩ := of_decide_eq_true hstate
  have hstart : Decoder.Decoding .default (Decoder.fresh .default)
      ([] ++ ascii "*1\r\n$4\r\nPI") := (Decoder.Decoding.start rfl).append _
  have hwaiting := Decoder.Decoding.call hstart hdecode
  obtain ⟨hbounded, -⟩ := decoding_bounded .default
  obtain ⟨-, -, -, hframe⟩ := hbounded _ _ hstart
  exact ⟨d, hwaiting, hcursor, hcount, (hbounded _ _ hwaiting).1, (hframe _ _ hdecode).2⟩

end Recall
