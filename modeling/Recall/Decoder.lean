import Recall.Basic
import Recall.Lib.Decimal

/-!
# The request decoder

The bounded, incremental RESP2 decoder of `recall-protocol`. Its state says how far the frame at the
front of the input buffer has been read; the buffer itself belongs to the connection, which appends
what it receives and calls `decode` again. A decoder is not used after an error, so an error carries
no state.
-/

namespace Recall

inductive ProtocolError where
  | invalidLimits
  | argumentCount
  | bulkLimit
  | frameOverflow
  | frameLimit
  | bulkTerminator
  | headerLimit
  | lineEnding
  | headerUnterminated
  | lengthExpected
  | lengthDigit
  | lengthOverflow
deriving DecidableEq

def ProtocolError.message : ProtocolError → String
  | .invalidLimits => "invalid protocol limits"
  | .argumentCount => "invalid or excessive argument count"
  | .bulkLimit => "bulk argument exceeds configured limit"
  | .frameOverflow => "frame length overflow"
  | .frameLimit => "request exceeds configured limit"
  | .bulkTerminator => "bulk argument is not CRLF terminated"
  | .headerLimit => "protocol header exceeds configured limit"
  | .lineEnding => "invalid protocol line ending"
  | .headerUnterminated => "unterminated or excessive protocol header"
  | .lengthExpected => "expected a nonnegative RESP2 length"
  | .lengthDigit => "invalid RESP2 length"
  | .lengthOverflow => "RESP2 length overflow"

/-- The protocol limits, each a `usize`. -/
structure Limits where
  maxFrameBytes : Nat
  maxBulkBytes : Nat
  maxArguments : Nat
  maxHeaderBytes : Nat
  frameUsize : maxFrameBytes ≤ usizeMax
  bulkUsize : maxBulkBytes ≤ usizeMax
  argumentsUsize : maxArguments ≤ usizeMax
  headerUsize : maxHeaderBytes ≤ usizeMax
deriving DecidableEq

namespace Limits

def default : Limits where
  maxFrameBytes := 1024 * 1024
  maxBulkBytes := 1024 * 1024 - 64
  maxArguments := 1024
  maxHeaderBytes := 24
  frameUsize := by decide
  bulkUsize := by decide
  argumentsUsize := by decide
  headerUsize := by decide

def validate (limits : Limits) : Except ProtocolError Unit :=
  if limits.maxFrameBytes < 16 ∨ limits.maxFrameBytes < limits.maxBulkBytes ∨
      limits.maxArguments = 0 ∨ limits.maxHeaderBytes < 4 ∨
      limits.maxFrameBytes < limits.maxHeaderBytes then
    .error .invalidLimits
  else
    .ok ()

end Limits

structure Request where
  arguments : List Bytes
  wireBytes : Nat
deriving DecidableEq

/-- The bytes `input[start..stop]`. -/
def slice (input : Bytes) (start stop : Nat) : Bytes := (input.take stop).drop start

structure Decoder where
  limits : Limits
  cursor : Nat
  scan : Nat
  argumentCount : Option Nat
  bulkLength : Option Nat
  spans : List (Nat × Nat)
deriving DecidableEq

namespace Decoder

def new (limits : Limits) : Except ProtocolError Decoder := do
  limits.validate
  return { limits, cursor := 0, scan := 0, argumentCount := none, bulkLength := none, spans := [] }

/-- Scans for the end of a header line and leaves `scan` where the next call goes on. -/
def headerEnd (d : Decoder) (input : Bytes) : Except ProtocolError (Decoder × Option Nat) :=
  if h : d.scan + 1 < input.length then
    if d.limits.maxHeaderBytes < d.scan - d.cursor + 2 ∨ d.limits.maxFrameBytes < d.scan + 2 then
      .error .headerLimit
    else if input[d.scan] = 13 ∧ input[d.scan + 1] = 10 then
      .ok (d, some d.scan)
    else if input[d.scan] = 10 then
      .error .lineEnding
    else
      headerEnd { d with scan := d.scan + 1 } input
  else if d.limits.maxHeaderBytes ≤ input.length - d.cursor ∨
      d.limits.maxFrameBytes ≤ input.length then
    .error .headerUnterminated
  else
    .ok (d, none)
termination_by input.length - d.scan

/-- The digits of a length, each accumulated with overflow checks. -/
def lengthFrom (length : Nat) : Bytes → Except ProtocolError Nat
  | [] => .ok length
  | digit :: digits =>
      if ¬ Decimal.isDigit digit then
        .error .lengthDigit
      else
        match (usizeCheckedMul length 10).bind
            fun value => usizeCheckedAdd value (Decimal.digitValue digit) with
        | none => .error .lengthOverflow
        | some length => lengthFrom length digits

def lengthHeader (d : Decoder) (input : Bytes) (stop : Nat) (marker : UInt8) :
    Except ProtocolError Nat :=
  if stop ≤ d.cursor + 1 ∨ input[d.cursor]? ≠ some marker then
    .error .lengthExpected
  else
    lengthFrom 0 (slice input (d.cursor + 1) stop)

def advanceHeader (d : Decoder) (stop : Nat) : Decoder :=
  { d with cursor := stop + 2, scan := stop + 2 }

/-- A whole header line: where it stops and the length it carries. -/
def readHeader (d : Decoder) (input : Bytes) (marker : UInt8) :
    Except ProtocolError (Decoder × Option (Nat × Nat)) := do
  match ← d.headerEnd input with
  | (d, none) => return (d, none)
  | (d, some stop) =>
      let length ← d.lengthHeader input stop marker
      return (d, some (stop, length))

/-! ### The loop body

One pass reads the argument count unless it is known, the length of the next argument unless it is
known, and the argument itself. A stage that runs out of input says so. -/

def countStage (d : Decoder) (input : Bytes) : Except ProtocolError (Decoder × Bool) :=
  match d.argumentCount with
  | some _ => .ok (d, true)
  | none => do
      match ← d.readHeader input 42 with
      | (d, none) => .ok (d, false)
      | (d, some (stop, count)) =>
          if count = 0 ∨ d.limits.maxArguments < count then
            .error .argumentCount
          else
            .ok (({ d with argumentCount := some count }).advanceHeader stop, true)

def bulkStage (d : Decoder) (input : Bytes) : Except ProtocolError (Decoder × Option Nat) :=
  match d.bulkLength with
  | some length => .ok (d, some length)
  | none => do
      match ← d.readHeader input 36 with
      | (d, none) => .ok (d, none)
      | (d, some (stop, length)) =>
          if d.limits.maxBulkBytes < length then
            .error .bulkLimit
          else
            .ok ({ d.advanceHeader stop with bulkLength := some length }, some length)

def argumentStage (d : Decoder) (input : Bytes) (length : Nat) :
    Except ProtocolError (Decoder × Bool) :=
  match (usizeCheckedAdd d.cursor length).bind fun stop => usizeCheckedAdd stop 2 with
  | none => .error .frameOverflow
  | some stop =>
      if d.limits.maxFrameBytes < stop then
        .error .frameLimit
      else if input.length < stop then
        .ok (d, false)
      else if slice input (stop - 2) stop ≠ [13, 10] then
        .error .bulkTerminator
      else
        .ok ({ d with
          spans := d.spans ++ [(d.cursor, stop - 2)]
          cursor := stop
          scan := stop
          bulkLength := none }, true)

def pass (d : Decoder) (input : Bytes) : Except ProtocolError (Decoder × Bool) := do
  match ← d.countStage input with
  | (d, false) => return (d, false)
  | (d, true) =>
      match ← d.bulkStage input with
      | (d, none) => return (d, false)
      | (d, some length) => d.argumentStage input length

/-- The request, the rest of the input, and the decoder back at the start of a frame. -/
def finish (d : Decoder) (input : Bytes) : Decoder × Bytes × Option Request :=
  ({ d with cursor := 0, scan := 0, argumentCount := none, spans := [] },
    input.drop d.cursor,
    some
      { arguments := d.spans.map fun span => slice input span.1 span.2
        wireBytes := d.cursor })

/-! ### Progress

What a pass does to the cursor, for the termination of the loop. -/

/-- One position of a scan, with any input behind what was scanned. -/
theorem headerEnd_next {d : Decoder} {input : Bytes} (hlt : d.scan + 1 < input.length)
    (hlimit : ¬ (d.limits.maxHeaderBytes < d.scan - d.cursor + 2 ∨
      d.limits.maxFrameBytes < d.scan + 2))
    (hcrlf : ¬ (input[d.scan] = 13 ∧ input[d.scan + 1] = 10)) (hlf : ¬ input[d.scan] = 10)
    (more : Bytes) :
    d.headerEnd (input ++ more) = ({ d with scan := d.scan + 1 }).headerEnd (input ++ more) := by
  have hlt' : d.scan + 1 < (input ++ more).length := by
    rw [List.length_append]
    omega
  rw [headerEnd, dif_pos hlt', if_neg hlimit, if_neg, if_neg]
  · rwa [List.getElem_append_left (by omega)]
  · rwa [List.getElem_append_left (by omega), List.getElem_append_left hlt]

/-- Induction over a scan for the end of a line that refuses nothing. -/
@[elab_as_elim]
theorem headerEnd_ok_induction {d' : Decoder} {input : Bytes} {stop : Option Nat}
    {motive : ∀ d : Decoder, d.headerEnd input = .ok (d', stop) → Prop}
    (found : ∀ d hend (_ : d.scan + 1 < input.length), input[d.scan] = 13 → input[d.scan + 1] = 10 →
      d.scan - d.cursor + 2 ≤ d.limits.maxHeaderBytes → d.scan + 2 ≤ d.limits.maxFrameBytes →
      d' = d → stop = some d.scan → motive d hend)
    (next : ∀ d hend hrest,
      (∀ more, d.headerEnd (input ++ more) =
        ({ d with scan := d.scan + 1 }).headerEnd (input ++ more)) →
      d.scan + 1 < input.length → motive { d with scan := d.scan + 1 } hrest → motive d hend)
    (wait : ∀ d hend, input.length < d.limits.maxFrameBytes → d' = d → stop = none → motive d hend)
    {d : Decoder} (hend : d.headerEnd input = .ok (d', stop)) : motive d hend := by
  induction d using headerEnd.induct input with
  | case1 d hlt hlimit =>
      rw [headerEnd, dif_pos hlt, if_pos hlimit] at hend
      cases hend
  | case2 d hlt hlimit hcrlf =>
      have hfound := hend
      rw [headerEnd, dif_pos hlt, if_neg hlimit, if_pos hcrlf] at hfound
      simp only [Except.ok.injEq, Prod.mk.injEq] at hfound
      exact found d hend hlt hcrlf.1 hcrlf.2 (by omega) (by omega) hfound.1.symm hfound.2.symm
  | case3 d hlt hlimit hcrlf hlf =>
      rw [headerEnd, dif_pos hlt, if_neg hlimit, if_neg hcrlf, if_pos hlf] at hend
      cases hend
  | case4 d hlt hlimit hcrlf hlf ih =>
      have hmore := headerEnd_next hlt hlimit hcrlf hlf
      have hrest := hend
      rw [← List.append_nil input, hmore, List.append_nil] at hrest
      exact next d hend hrest hmore hlt (ih hrest)
  | case5 d hlt hlimit =>
      rw [headerEnd, dif_neg hlt, if_pos hlimit] at hend
      cases hend
  | case6 d hlt hlimit =>
      have hwait := hend
      rw [headerEnd, dif_neg hlt, if_neg hlimit] at hwait
      simp only [Except.ok.injEq, Prod.mk.injEq] at hwait
      exact wait d hend (by omega) hwait.1.symm hwait.2.symm

theorem headerEnd_ok {d d' : Decoder} {input : Bytes} {stop : Option Nat}
    (hend : d.headerEnd input = .ok (d', stop)) : ∃ scan, d' = { d with scan } := by
  induction hend using headerEnd_ok_induction with
  | found d _ _ _ _ _ _ hstate => exact ⟨_, hstate⟩
  | next d _ _ _ _ ih => exact ih
  | wait d _ _ hstate => exact ⟨_, hstate⟩

theorem lengthHeader_ok {d : Decoder} {input : Bytes} {stop length : Nat} {marker : UInt8}
    (hlength : d.lengthHeader input stop marker = .ok length) :
    d.cursor + 1 < stop ∧ input[d.cursor]? = some marker ∧
      lengthFrom 0 (slice input (d.cursor + 1) stop) = .ok length := by
  unfold lengthHeader at hlength
  split at hlength
  · cases hlength
  · rename_i hstart
    push Not at hstart
    exact ⟨hstart.1, hstart.2, hlength⟩

theorem readHeader_ok {d d' : Decoder} {input : Bytes} {marker : UInt8} {line : Option (Nat × Nat)}
    (hread : d.readHeader input marker = .ok (d', line)) :
    (line = none ∧ d.headerEnd input = .ok (d', none)) ∨
      ∃ stop length, line = some (stop, length) ∧ d.headerEnd input = .ok (d', some stop) ∧
        d'.lengthHeader input stop marker = .ok length := by
  unfold readHeader at hread
  rcases hend : d.headerEnd input with failure | ⟨e, stop | _⟩
  · rw [hend] at hread
    cases hread
  · rw [hend] at hread
    cases hread
    exact .inl ⟨rfl, rfl⟩
  · rename_i stop
    rw [hend] at hread
    rcases hlength : e.lengthHeader input stop marker with failure | length
    · simp [bind, Except.bind, hlength] at hread
    · simp only [bind, Except.bind, hlength, pure, Except.pure, Except.ok.injEq,
        Prod.mk.injEq] at hread
      obtain ⟨rfl, rfl⟩ := hread
      exact .inr ⟨stop, length, rfl, rfl, hlength⟩

theorem readHeader_state {d d' : Decoder} {input : Bytes} {marker : UInt8}
    {line : Option (Nat × Nat)} (hread : d.readHeader input marker = .ok (d', line)) :
    ∃ scan, d' = { d with scan } := by
  obtain ⟨-, hend⟩ | ⟨_, _, -, hend, -⟩ := readHeader_ok hread
  · exact headerEnd_ok hend
  · exact headerEnd_ok hend

theorem readHeader_stop {d d' : Decoder} {input : Bytes} {marker : UInt8} {stop length : Nat}
    (hread : d.readHeader input marker = .ok (d', some (stop, length))) : d.cursor + 1 < stop := by
  obtain ⟨scan, rfl⟩ := readHeader_state hread
  obtain ⟨hnone, -⟩ | ⟨_, _, hline, -, hlength⟩ := readHeader_ok hread
  · cases hnone
  · cases hline
    exact (lengthHeader_ok hlength).1

/-- What the count stage does: nothing, wait for the line, or move past it. -/
theorem countStage_ok {d d' : Decoder} {input : Bytes} {complete : Bool}
    (hstage : d.countStage input = .ok (d', complete)) :
    (d.argumentCount.isSome ∧ d' = d ∧ complete = true) ∨
      (d.argumentCount = none ∧ d.readHeader input 42 = .ok (d', none) ∧ complete = false) ∨
      ∃ e stop count, d.argumentCount = none ∧
        d.readHeader input 42 = .ok (e, some (stop, count)) ∧ 0 < count ∧
        count ≤ e.limits.maxArguments ∧
        d' = { e with argumentCount := some count, cursor := stop + 2, scan := stop + 2 } ∧
        complete = true := by
  unfold countStage at hstage
  cases hcount : d.argumentCount with
  | some count =>
      rw [hcount] at hstage
      cases hstage
      exact .inl ⟨rfl, rfl, rfl⟩
  | none =>
      rw [hcount] at hstage
      rcases hread : d.readHeader input 42 with failure | ⟨e, _ | ⟨stop, count⟩⟩
      · simp [bind, Except.bind, hread] at hstage
      · simp only [bind, Except.bind, hread, Except.ok.injEq, Prod.mk.injEq] at hstage
        obtain ⟨rfl, rfl⟩ := hstage
        exact .inr (.inl ⟨rfl, rfl, rfl⟩)
      · simp only [bind, Except.bind, hread] at hstage
        split at hstage
        · cases hstage
        · rename_i hbad
          push Not at hbad
          cases hstage
          exact .inr (.inr ⟨e, stop, count, rfl, rfl, by omega, hbad.2, rfl, rfl⟩)

theorem bulkStage_ok {d d' : Decoder} {input : Bytes} {line : Option Nat}
    (hstage : d.bulkStage input = .ok (d', line)) :
    (d.bulkLength.isSome ∧ d' = d ∧ line = d.bulkLength) ∨
      (d.bulkLength = none ∧ d.readHeader input 36 = .ok (d', none) ∧ line = none) ∨
      ∃ e stop length, d.bulkLength = none ∧
        d.readHeader input 36 = .ok (e, some (stop, length)) ∧
        length ≤ e.limits.maxBulkBytes ∧
        d' = { e with bulkLength := some length, cursor := stop + 2, scan := stop + 2 } ∧
        line = some length := by
  unfold bulkStage at hstage
  cases hbulk : d.bulkLength with
  | some length =>
      rw [hbulk] at hstage
      cases hstage
      exact .inl ⟨rfl, rfl, rfl⟩
  | none =>
      rw [hbulk] at hstage
      rcases hread : d.readHeader input 36 with failure | ⟨e, _ | ⟨stop, length⟩⟩
      · simp [bind, Except.bind, hread] at hstage
      · simp only [bind, Except.bind, hread, Except.ok.injEq, Prod.mk.injEq] at hstage
        obtain ⟨rfl, rfl⟩ := hstage
        exact .inr (.inl ⟨rfl, rfl, rfl⟩)
      · simp only [bind, Except.bind, hread] at hstage
        split at hstage
        · cases hstage
        · rename_i hbad
          cases hstage
          exact .inr (.inr ⟨e, stop, length, rfl, rfl, by omega, rfl, rfl⟩)

theorem argumentStage_ok {d d' : Decoder} {input : Bytes} {length : Nat} {complete : Bool}
    (hstage : d.argumentStage input length = .ok (d', complete)) :
    d.cursor + length + 2 ≤ d.limits.maxFrameBytes ∧
      ((d' = d ∧ complete = false ∧ input.length < d.cursor + length + 2) ∨
        (complete = true ∧ d.cursor + length + 2 ≤ input.length ∧
          slice input (d.cursor + length) (d.cursor + length + 2) = [13, 10] ∧
          d' = { d with
            spans := d.spans ++ [(d.cursor, d.cursor + length)]
            cursor := d.cursor + length + 2
            scan := d.cursor + length + 2
            bulkLength := none })) := by
  unfold argumentStage at hstage
  rcases hstop : (usizeCheckedAdd d.cursor length).bind fun stop => usizeCheckedAdd stop 2 with
    _ | stop
  · rw [hstop] at hstage
    cases hstage
  · obtain ⟨stop', hstop', hadd⟩ := Option.bind_eq_some_iff.mp hstop
    obtain ⟨-, rfl⟩ := usizeCheckedAdd_eq_some.mp hstop'
    obtain ⟨-, rfl⟩ := usizeCheckedAdd_eq_some.mp hadd
    simp only [hstop] at hstage
    split at hstage
    · cases hstage
    · rename_i hframe
      split at hstage
      · rename_i hshort
        cases hstage
        exact ⟨by omega, .inl ⟨rfl, rfl, hshort⟩⟩
      · rename_i hlong
        split at hstage
        · cases hstage
        · rename_i hcrlf
          cases hstage
          exact ⟨by omega, .inr ⟨rfl, by omega, not_not.mp hcrlf, rfl⟩⟩

/-- What a pass does, stage by stage. -/
theorem pass_ok {d d' : Decoder} {input : Bytes} {complete : Bool}
    (hpass : d.pass input = .ok (d', complete)) :
    (complete = false ∧ d.countStage input = .ok (d', false)) ∨
      ∃ d₁, d.countStage input = .ok (d₁, true) ∧
        ((complete = false ∧ d₁.bulkStage input = .ok (d', none)) ∨
          ∃ d₂ length, d₁.bulkStage input = .ok (d₂, some length) ∧
            d₂.argumentStage input length = .ok (d', complete)) := by
  unfold pass at hpass
  rcases hcount : d.countStage input with failure | ⟨d₁, _ | _⟩
  · simp [bind, Except.bind, hcount] at hpass
  · simp only [bind, Except.bind, hcount, pure, Except.pure, Except.ok.injEq,
      Prod.mk.injEq] at hpass
    obtain ⟨rfl, rfl⟩ := hpass
    exact .inl ⟨rfl, rfl⟩
  · refine .inr ⟨d₁, rfl, ?_⟩
    simp only [bind, Except.bind, hcount] at hpass
    rcases hbulk : d₁.bulkStage input with failure | ⟨d₂, _ | length⟩
    · simp [hbulk] at hpass
    · simp only [hbulk, pure, Except.pure, Except.ok.injEq, Prod.mk.injEq] at hpass
      obtain ⟨rfl, rfl⟩ := hpass
      exact .inl ⟨rfl, rfl⟩
    · simp only [hbulk] at hpass
      exact .inr ⟨d₂, length, rfl, hpass⟩

theorem countStage_cursor {d d' : Decoder} {input : Bytes} {complete : Bool}
    (hstage : d.countStage input = .ok (d', complete)) : d.cursor ≤ d'.cursor := by
  obtain ⟨-, rfl, -⟩ | ⟨-, hread, -⟩ | ⟨e, stop, count, -, hread, -, -, rfl, -⟩ :=
    countStage_ok hstage
  · exact le_refl _
  · obtain ⟨scan, rfl⟩ := readHeader_state hread
    exact le_refl _
  · have hstop := readHeader_stop hread
    simp only
    omega

theorem bulkStage_cursor {d d' : Decoder} {input : Bytes} {line : Option Nat}
    (hstage : d.bulkStage input = .ok (d', line)) : d.cursor ≤ d'.cursor := by
  obtain ⟨-, rfl, -⟩ | ⟨-, hread, -⟩ | ⟨e, stop, length, -, hread, -, rfl, -⟩ :=
    bulkStage_ok hstage
  · exact le_refl _
  · obtain ⟨scan, rfl⟩ := readHeader_state hread
    exact le_refl _
  · have hstop := readHeader_stop hread
    simp only
    omega

theorem pass_cursor {d d' : Decoder} {input : Bytes}
    (hpass : d.pass input = .ok (d', true)) : d.cursor + 2 ≤ d'.cursor ∧ d'.cursor ≤ input.length := by
  obtain ⟨hfalse, -⟩ | ⟨d₁, hcount, hrest⟩ := pass_ok hpass
  · cases hfalse
  obtain ⟨hfalse, -⟩ | ⟨d₂, length, hbulk, hargument⟩ := hrest
  · cases hfalse
  have h₁ := countStage_cursor hcount
  have h₂ := bulkStage_cursor hbulk
  obtain ⟨-, ⟨-, hfalse, -⟩ | ⟨-, hlong, -, rfl⟩⟩ := argumentStage_ok hargument
  · cases hfalse
  · exact ⟨by simp only; omega, hlong⟩

def decode (d : Decoder) (input : Bytes) :
    Except ProtocolError (Decoder × Bytes × Option Request) :=
  match _hpass : d.pass input with
  | .error failure => .error failure
  | .ok (d', false) => .ok (d', input, none)
  | .ok (d', true) =>
      if some d'.spans.length = d'.argumentCount then .ok (d'.finish input)
      else decode d' input
termination_by input.length - d.cursor
decreasing_by
  have := pass_cursor _hpass
  omega

end Decoder

end Recall
