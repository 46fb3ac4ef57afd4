import Recall.Proof.Decoder

/-!
# The request grammar

The frames the decoder is for, written down without reference to it, and the proof that it accepts
exactly these.
-/

namespace Recall

open Incremental

/-! ### Frames -/

/-- A nonempty string of digits and the number it denotes; leading zeros are allowed. -/
structure Numeral (digits : Bytes) (n : Nat) : Prop where
  nonempty : digits ≠ []
  isDigit : ∀ b ∈ digits, Decimal.isDigit b = true
  value : Decimal.value digits = n

/-- A marker, the digits of a length and CRLF. -/
def headerLine (marker : UInt8) (digits : Bytes) : Bytes := marker :: digits ++ [13, 10]

/-- A `$` header, the argument's bytes, whatever they are, and CRLF. -/
def block (digits argument : Bytes) : Bytes := headerLine 36 digits ++ argument ++ [13, 10]

inductive Blocks (limits : Limits) : List Bytes → Bytes → Prop where
  | nil : Blocks limits [] []
  | cons {digits argument wire : Bytes} {arguments : List Bytes}
      (numeral : Numeral digits argument.length)
      (bulk : argument.length ≤ limits.maxBulkBytes)
      (header : (headerLine 36 digits).length ≤ limits.maxHeaderBytes)
      (rest : Blocks limits arguments wire) :
      Blocks limits (argument :: arguments) (block digits argument ++ wire)

/-- The bytes of a request with these arguments, within the limits. -/
def Frame (limits : Limits) (arguments : List Bytes) (wire : Bytes) : Prop :=
  ∃ digits blocks,
    wire = headerLine 42 digits ++ blocks ∧
      Numeral digits arguments.length ∧
      (headerLine 42 digits).length ≤ limits.maxHeaderBytes ∧
      Blocks limits arguments blocks ∧
      0 < arguments.length ∧ arguments.length ≤ limits.maxArguments ∧
      wire.length ≤ limits.maxFrameBytes

theorem headerLine_length (marker : UInt8) (digits : Bytes) :
    (headerLine marker digits).length = digits.length + 3 := by
  simp [headerLine]

theorem block_length (digits argument : Bytes) :
    (block digits argument).length = digits.length + 3 + argument.length + 2 := by
  simp [block, headerLine_length]
  omega

theorem Blocks.snoc {limits : Limits} {arguments : List Bytes} {wire digits argument : Bytes}
    (hblocks : Blocks limits arguments wire) (hnumeral : Numeral digits argument.length)
    (hbulk : argument.length ≤ limits.maxBulkBytes)
    (hheader : (headerLine 36 digits).length ≤ limits.maxHeaderBytes) :
    Blocks limits (arguments ++ [argument]) (wire ++ block digits argument) := by
  induction hblocks with
  | nil =>
      have hone := Blocks.cons hnumeral hbulk hheader .nil
      rwa [List.append_nil] at hone
  | cons numeral bulk header _ ih =>
      rw [List.cons_append, List.append_assoc]
      exact Blocks.cons numeral bulk header ih

theorem slice_middle (before middle after : Bytes) :
    slice (before ++ middle ++ after) before.length (before.length + middle.length) = middle := by
  rw [slice, ← List.length_append, List.take_left, List.drop_left]

theorem take_eq_append_slice {input : Bytes} {start stop : Nat} (hle : start ≤ stop) :
    input.take stop = input.take start ++ slice input start stop := by
  calc
    input.take stop = (input.take stop).take start ++ (input.take stop).drop start :=
      (List.take_append_drop start _).symm
    _ = input.take start ++ slice input start stop := by
      rw [List.take_take, min_eq_left hle]
      rfl

namespace Decoder

/-! ### Lengths -/

theorem lengthFrom_eq_ok {digits : Bytes} {total n : Nat} (htotal : total ≤ usizeMax) :
    lengthFrom total digits = .ok n ↔
      (∀ b ∈ digits, Decimal.isDigit b = true) ∧ Decimal.valueFrom total digits = n ∧
        n ≤ usizeMax := by
  induction digits generalizing total with
  | nil =>
      simp only [lengthFrom, Except.ok.injEq, Decimal.valueFrom, List.foldl_nil]
      constructor
      · rintro rfl
        exact ⟨by simp, rfl, htotal⟩
      · rintro ⟨-, rfl, -⟩
        rfl
  | cons digit digits ih =>
      have hvalue : Decimal.valueFrom total (digit :: digits) =
          Decimal.valueFrom (total * 10 + Decimal.digitValue digit) digits := rfl
      rw [lengthFrom, hvalue, List.forall_mem_cons]
      by_cases hdigit : Decimal.isDigit digit = true
      · rw [if_neg (by simp [hdigit])]
        by_cases hnext : total * 10 + Decimal.digitValue digit ≤ usizeMax
        · have hsome : ((usizeCheckedMul total 10).bind fun value =>
              usizeCheckedAdd value (Decimal.digitValue digit)) =
              some (total * 10 + Decimal.digitValue digit) := by
            rw [Option.bind_eq_some_iff]
            exact ⟨total * 10, usizeCheckedMul_eq_some.mpr ⟨by omega, rfl⟩,
              usizeCheckedAdd_eq_some.mpr ⟨hnext, rfl⟩⟩
          rw [hsome]
          simp only [ih hnext, hdigit, true_and]
        · have hnone : ((usizeCheckedMul total 10).bind fun value =>
              usizeCheckedAdd value (Decimal.digitValue digit)) = none := by
            rw [Option.eq_none_iff_forall_ne_some]
            intro value hvalue
            obtain ⟨product, hproduct, hsum⟩ := Option.bind_eq_some_iff.mp hvalue
            obtain ⟨-, rfl⟩ := usizeCheckedMul_eq_some.mp hproduct
            exact hnext (usizeCheckedAdd_eq_some.mp hsum).1
          rw [hnone]
          constructor
          · intro hfalse
            cases hfalse
          · rintro ⟨-, rfl, hmax⟩
            exact absurd (le_trans (Decimal.le_valueFrom digits _) hmax) hnext
      · rw [if_pos hdigit]
        constructor
        · intro hfalse
          cases hfalse
        · rintro ⟨⟨hfalse, -⟩, -⟩
          exact absurd hfalse hdigit

/-! ### Every frame is accepted -/

/-- The scan passes over bytes that are neither CR nor LF and stops at the CRLF behind them. -/
theorem headerEnd_of_line {d : Decoder} {before line after : Bytes}
    (hscan : d.scan = before.length) (hline : ∀ b ∈ line, b ≠ 13 ∧ b ≠ 10)
    (hheader : before.length + line.length - d.cursor + 2 ≤ d.limits.maxHeaderBytes)
    (hframe : before.length + line.length + 2 ≤ d.limits.maxFrameBytes) :
    d.headerEnd (before ++ line ++ [13, 10] ++ after) =
      .ok ({ d with scan := before.length + line.length },
        some (before.length + line.length)) := by
  induction line generalizing d before with
  | nil =>
      have hlt : d.scan + 1 < (before ++ [] ++ [13, 10] ++ after).length := by
        simp
        omega
      have hcrlf : (before ++ [] ++ [13, 10] ++ after)[d.scan] = 13 ∧
          (before ++ [] ++ [13, 10] ++ after)[d.scan + 1] = 10 := by
        simp [hscan]
      rw [headerEnd, dif_pos hlt, if_neg (by simp only [List.length_nil] at hheader hframe; omega),
        if_pos hcrlf]
      simp [← hscan]
  | cons b line ih =>
      have hb := hline b List.mem_cons_self
      have hlt : d.scan + 1 < (before ++ b :: line ++ [13, 10] ++ after).length := by
        simp
        omega
      have hat : (before ++ b :: line ++ [13, 10] ++ after)[d.scan] = b := by
        simp [hscan]
      simp only [List.length_cons] at hheader hframe
      rw [headerEnd, dif_pos hlt, if_neg (by omega), if_neg (fun h => hb.1 (hat.symm.trans h.1)),
        if_neg (fun h => hb.2 (hat.symm.trans h))]
      have hstep := @ih { d with scan := d.scan + 1 } (before ++ [b]) (by simp [hscan])
        (fun c hc => hline c (List.mem_cons_of_mem _ hc)) (by simp; omega) (by simp; omega)
      simpa [Nat.add_assoc, Nat.add_comm 1] using hstep

theorem readHeader_of_line {d : Decoder} {before digits after : Bytes} {marker : UInt8} {n : Nat}
    (hcursor : d.cursor = before.length) (hscan : d.scan = before.length)
    (hmarker : marker ≠ 13 ∧ marker ≠ 10) (hnumeral : Numeral digits n) (hn : n ≤ usizeMax)
    (hheader : (headerLine marker digits).length ≤ d.limits.maxHeaderBytes)
    (hframe : before.length + (headerLine marker digits).length ≤ d.limits.maxFrameBytes) :
    d.readHeader (before ++ headerLine marker digits ++ after) marker =
      .ok ({ d with scan := before.length + digits.length + 1 },
        some (before.length + digits.length + 1, n)) := by
  rw [headerLine_length] at hheader hframe
  have hline : ∀ b ∈ marker :: digits, b ≠ 13 ∧ b ≠ 10 := by
    intro b hb
    rcases List.mem_cons.mp hb with rfl | hdigit
    · exact hmarker
    · exact ⟨Decimal.isDigit_ne (hnumeral.isDigit b hdigit) rfl,
        Decimal.isDigit_ne (hnumeral.isDigit b hdigit) rfl⟩
  have hend := @headerEnd_of_line d before (marker :: digits) after hscan hline
    (by simp only [List.length_cons]; omega) (by simp only [List.length_cons]; omega)
  have hinput : before ++ headerLine marker digits ++ after =
      before ++ marker :: digits ++ [13, 10] ++ after := by
    simp [headerLine]
  rw [hinput, readHeader, hend]
  have hmark : (before ++ marker :: digits ++ [13, 10] ++ after)[before.length]? = some marker := by
    simp
  have hslice : slice (before ++ marker :: digits ++ [13, 10] ++ after) (before.length + 1)
      (before.length + (marker :: digits).length) = digits := by
    have hmiddle := slice_middle (before ++ [marker]) digits ([13, 10] ++ after)
    simpa [Nat.add_assoc, Nat.add_comm 1] using hmiddle
  have hlength : ({ d with scan := before.length + (marker :: digits).length }).lengthHeader
      (before ++ marker :: digits ++ [13, 10] ++ after) (before.length + (marker :: digits).length)
      marker = .ok n := by
    have hpos := List.length_pos_iff.mpr hnumeral.nonempty
    rw [lengthHeader, if_neg]
    · simp only [hcursor, hslice]
      exact (lengthFrom_eq_ok (Nat.zero_le _)).mpr ⟨hnumeral.isDigit, hnumeral.value, hn⟩
    · simp only [hcursor, hmark, List.length_cons]
      push Not
      exact ⟨by omega, rfl⟩
  simp only [bind, Except.bind, hlength]
  rfl

theorem pass_of_block {d : Decoder} {before digits argument after : Bytes}
    (hcount : d.argumentCount.isSome) (hbulk : d.bulkLength = none)
    (hcursor : d.cursor = before.length) (hscan : d.scan = before.length)
    (hnumeral : Numeral digits argument.length)
    (hlength : argument.length ≤ d.limits.maxBulkBytes)
    (hheader : (headerLine 36 digits).length ≤ d.limits.maxHeaderBytes)
    (hframe : before.length + (block digits argument).length ≤ d.limits.maxFrameBytes) :
    d.pass (before ++ block digits argument ++ after) =
      .ok ({ d with
        spans := d.spans ++ [(before.length + (digits.length + 3),
          before.length + (digits.length + 3) + argument.length)]
        cursor := before.length + (block digits argument).length
        scan := before.length + (block digits argument).length }, true) := by
  have hlen := block_length digits argument
  have hlimits := d.limits.frameUsize
  have hinput : before ++ block digits argument ++ after =
      before ++ headerLine 36 digits ++ (argument ++ [13, 10] ++ after) := by
    simp [block]
  have hread := @readHeader_of_line d before digits (argument ++ [13, 10] ++ after) 36
    argument.length hcursor hscan (by decide) hnumeral (by omega) hheader
    (by rw [headerLine_length]; omega)
  have hstage : d.bulkStage (before ++ block digits argument ++ after) =
      .ok ({ d with
        cursor := before.length + (digits.length + 3)
        scan := before.length + (digits.length + 3)
        bulkLength := some argument.length }, some argument.length) := by
    have hbad : ¬ d.limits.maxBulkBytes < argument.length := by omega
    simp only [bulkStage, hbulk, hinput, hread, bind, Except.bind, if_neg hbad]
    simp [advanceHeader, Nat.add_assoc]
  rw [pass_of_bulk (countStage_known hcount _) hstage, argumentStage]
  have hstop : ((usizeCheckedAdd (before.length + (digits.length + 3)) argument.length).bind
      fun stop => usizeCheckedAdd stop 2) =
      some (before.length + (block digits argument).length) := by
    rw [Option.bind_eq_some_iff]
    exact ⟨_, usizeCheckedAdd_eq_some.mpr ⟨by omega, rfl⟩,
      usizeCheckedAdd_eq_some.mpr ⟨by omega, by omega⟩⟩
  have hcrlf : slice (before ++ block digits argument ++ after)
      (before.length + (block digits argument).length - 2)
      (before.length + (block digits argument).length) = [13, 10] := by
    have hmiddle := slice_middle (before ++ headerLine 36 digits ++ argument) [13, 10] after
    have hstart : (before ++ headerLine 36 digits ++ argument).length =
        before.length + (block digits argument).length - 2 := by
      simp only [List.length_append, headerLine_length]
      omega
    rw [hstart] at hmiddle
    have hsum : before.length + (block digits argument).length - 2 + [(13 : UInt8), 10].length =
        before.length + (block digits argument).length := by
      simp only [List.length_cons, List.length_nil]
      omega
    rw [hsum] at hmiddle
    simpa [block] using hmiddle
  have hspan : before.length + (block digits argument).length - 2 =
      before.length + (digits.length + 3) + argument.length := by
    omega
  simp only [hstop]
  rw [if_neg (by omega), if_neg (by simp), if_neg (not_not.mpr hcrlf), hspan, hbulk]

/-- From the end of the count header on, the decoder takes the blocks one by one. -/
theorem decode_of_blocks {limits : Limits} {arguments : List Bytes} {wire : Bytes}
    (hblocks : Blocks limits arguments wire) {d : Decoder} {input before after : Bytes}
    (hinput : input = before ++ wire ++ after) (hlimits : d.limits = limits)
    (hcount : d.argumentCount = some (d.spans.length + arguments.length))
    (hbulk : d.bulkLength = none) (hcursor : d.cursor = before.length)
    (hscan : d.scan = before.length) (hnonempty : arguments ≠ [])
    (hframe : before.length + wire.length ≤ limits.maxFrameBytes) :
    d.decode input =
      .ok (fresh limits, after,
        some ⟨(d.spans.map fun span => slice input span.1 span.2) ++ arguments,
          before.length + wire.length⟩) := by
  induction hblocks generalizing d before with
  | nil => exact absurd rfl hnonempty
  | @cons digits argument wire arguments numeral bulk header rest ih =>
      subst hlimits
      rw [List.length_append] at hframe
      have hinput' : input = before ++ block digits argument ++ (wire ++ after) := by
        rw [hinput]
        simp
      have hpass := @pass_of_block d before digits argument (wire ++ after) (by rw [hcount]; rfl)
        hbulk hcursor hscan numeral bulk header (by omega)
      rw [← hinput'] at hpass
      have hslice : slice input (before.length + (digits.length + 3))
          (before.length + (digits.length + 3) + argument.length) = argument := by
        have hmiddle := slice_middle (before ++ headerLine 36 digits) argument
          ([13, 10] ++ (wire ++ after))
        rw [List.length_append, headerLine_length] at hmiddle
        rw [hinput']
        simpa [block] using hmiddle
      rw [decode_pass hpass]
      cases rest with
      | nil =>
          rw [if_pos (by simp [hcount])]
          have hdrop : input.drop (before.length + (block digits argument).length) = after := by
            rw [hinput', ← List.length_append, List.nil_append, List.drop_left]
          simp [finish, hdrop, hslice, fresh, hbulk]
      | @cons digits' argument' wire' arguments' numeral' bulk' header' rest' =>
          rw [if_neg (by simp [hcount])]
          refine (@ih _ (before ++ block digits argument) ?_ ?_ ?_ ?_ ?_ ?_ ?_ ?_).trans ?_
          · rw [hinput']
            simp
          · rfl
          · simp only [hcount, List.length_append, List.length_cons, List.length_nil]
            congr 1
            omega
          · exact hbulk
          · simp
          · simp
          · simp
          · rw [List.length_append]
            omega
          · have hlengths : (before ++ block digits argument).length +
                (block digits' argument' ++ wire').length =
                before.length + (block digits argument ++ (block digits' argument' ++ wire')).length := by
              simp only [List.length_append, Nat.add_assoc]
            rw [List.map_append, List.map_singleton, hslice, List.append_assoc,
              List.singleton_append, hlengths]

theorem decode_of_frame {limits : Limits} {arguments : List Bytes} {wire after : Bytes}
    (hwire : Frame limits arguments wire) :
    (fresh limits).decode (wire ++ after) =
      .ok (fresh limits, after, some ⟨arguments, wire.length⟩) := by
  obtain ⟨digits, blocks, rfl, hnumeral, hheader, hblocks, hpos, hmax, hframe⟩ := hwire
  rw [List.length_append] at hframe
  have husize := limits.argumentsUsize
  have hread := @readHeader_of_line (fresh limits) [] digits (blocks ++ after) 42
    arguments.length rfl rfl (by decide) hnumeral (by omega) hheader
    (by simp only [List.length_nil, fresh]; omega)
  have hinput : headerLine 42 digits ++ blocks ++ after =
      [] ++ headerLine 42 digits ++ (blocks ++ after) := by
    simp
  -- The count header does not complete a pass; the state behind it decodes the same.
  have hcount : (fresh limits).countStage (headerLine 42 digits ++ blocks ++ after) =
      .ok ({ fresh limits with
        cursor := (headerLine 42 digits).length
        scan := (headerLine 42 digits).length
        argumentCount := some arguments.length }, true) := by
    have hbad : ¬ (arguments.length = 0 ∨ limits.maxArguments < arguments.length) := by omega
    have hnone : (fresh limits).argumentCount = none := rfl
    simp only [countStage, hnone, hinput, hread, bind, Except.bind]
    rw [show (fresh limits).limits = limits from rfl, if_neg hbad, headerLine_length]
    simp [advanceHeader, fresh]
  have hsame := decode_congr ((pass_of_count hcount).trans
    (pass_of_count (countStage_known rfl _)).symm)
  rw [hsame]
  refine (decode_of_blocks hblocks rfl rfl ?_ rfl rfl rfl ?_ hframe).trans ?_
  · simp [fresh]
  · exact List.length_pos_iff.mp hpos
  · simp [fresh]

/-! ### Only frames are accepted -/

theorem readHeader_line {d d' : Decoder} {input : Bytes} {marker : UInt8} {stop n : Nat}
    (hread : d.readHeader input marker = .ok (d', some (stop, n))) :
    ∃ digits, Numeral digits n ∧ (headerLine marker digits).length ≤ d.limits.maxHeaderBytes ∧
      input.take (stop + 2) = input.take d.cursor ++ headerLine marker digits := by
  obtain ⟨hnone, -⟩ | ⟨_, _, hline, hend, hlength⟩ := readHeader_ok hread
  · cases hnone
  cases hline
  obtain ⟨rfl, -, hstop, hcr, hlf, hheader, -, -⟩ := headerEnd_found hend
  obtain ⟨hcursor, hmarker, hfrom⟩ := lengthHeader_ok hlength
  simp only at hcursor hmarker hfrom
  obtain ⟨hdigits, hvalue, -⟩ := (lengthFrom_eq_ok (Nat.zero_le _)).mp hfrom
  have hlen : (slice input (d.cursor + 1) stop).length = stop - (d.cursor + 1) := by
    rw [slice, List.length_drop, List.length_take, min_eq_left (by omega)]
  refine ⟨slice input (d.cursor + 1) stop, ⟨?_, hdigits, hvalue⟩, ?_, ?_⟩
  · intro hnil
    rw [hnil] at hlen
    simp only [List.length_nil] at hlen
    omega
  · rw [headerLine_length, hlen]
    omega
  · have hfirst : input.take (d.cursor + 1) = input.take d.cursor ++ [marker] := by
      rw [List.take_add_one, hmarker]
      rfl
    have hlast : input.take (stop + 2) = input.take stop ++ [13, 10] := by
      rw [List.take_add_one, hlf, List.take_add_one, hcr]
      simp
    rw [hlast, take_eq_append_slice (le_of_lt hcursor), hfirst, headerLine]
    simp

/-- What has been read of a frame between two passes: the count header and whole blocks. -/
structure Parsed (d : Decoder) (input : Bytes) : Prop where
  fits : d.cursor ≤ input.length
  bulk : d.bulkLength = none
  read : match d.argumentCount with
    | none => d.cursor = 0 ∧ d.spans = []
    | some count => 0 < count ∧ count ≤ d.limits.maxArguments ∧
        ∃ digits wire, Numeral digits count ∧
          (headerLine 42 digits).length ≤ d.limits.maxHeaderBytes ∧
          input.take d.cursor = headerLine 42 digits ++ wire ∧
          Blocks d.limits (d.spans.map fun span => slice input span.1 span.2) wire

theorem fresh_parsed (limits : Limits) (input : Bytes) : (fresh limits).Parsed input :=
  ⟨Nat.zero_le _, rfl, rfl, rfl⟩

theorem countStage_parsed {d d' : Decoder} {input : Bytes} (hparsed : d.Parsed input)
    (hstage : d.countStage input = .ok (d', true)) :
    d'.Parsed input ∧ d'.limits = d.limits := by
  obtain ⟨-, rfl, -⟩ | ⟨-, -, hfalse⟩ | ⟨e, stop, count, hnone, hread, hpos, hmax, rfl, -⟩ :=
    countStage_ok hstage
  · exact ⟨hparsed, rfl⟩
  · cases hfalse
  · obtain ⟨digits, hnumeral, hheader, htake⟩ := readHeader_line hread
    have hfits := readHeader_fits hread
    obtain ⟨scan, rfl⟩ := readHeader_state hread
    have hstart := hparsed.read
    rw [hnone] at hstart
    refine ⟨⟨hfits, hparsed.bulk, ?_⟩, rfl⟩
    refine ⟨hpos, hmax, digits, [], hnumeral, hheader, ?_, ?_⟩
    · rw [htake, hstart.1]
      simp
    · simp only [hstart.2]
      exact .nil

theorem pass_parsed {d d' : Decoder} {input : Bytes} (hparsed : d.Parsed input)
    (hpass : d.pass input = .ok (d', true)) :
    d'.Parsed input ∧ d'.limits = d.limits ∧ d'.argumentCount.isSome ∧
      d'.cursor ≤ d.limits.maxFrameBytes := by
  obtain ⟨hfalse, -⟩ | ⟨d₁, hcount, ⟨hfalse, -⟩ | ⟨d₂, length, hbulk, hargument⟩⟩ := pass_ok hpass
  · cases hfalse
  · cases hfalse
  obtain ⟨hparsed₁, hlimits₁⟩ := countStage_parsed hparsed hcount
  obtain ⟨count, hsome⟩ := Option.isSome_iff_exists.mp (countStage_isSome hcount)
  obtain ⟨hknown, -, -⟩ | ⟨-, -, hnone⟩ | ⟨e, stop, _, -, hread, hmax, rfl, hline⟩ :=
    bulkStage_ok hbulk
  · rw [hparsed₁.bulk] at hknown
    cases hknown
  · cases hnone
  cases hline
  obtain ⟨digits, hnumeral, hheader, htake⟩ := readHeader_line hread
  obtain ⟨scan, rfl⟩ := readHeader_state hread
  obtain ⟨hframe, ⟨-, hfalse, -⟩ | ⟨-, hlong, hcrlf, rfl⟩⟩ := argumentStage_ok hargument
  · cases hfalse
  simp only at hframe hlong hcrlf hmax
  have hread₁ := hparsed₁.read
  rw [hsome] at hread₁
  obtain ⟨hpos, hcountMax, countDigits, wire, hcountNumeral, hcountHeader, hwire, hblocks⟩ := hread₁
  have hargumentLength : (slice input (stop + 2) (stop + 2 + length)).length = length := by
    rw [slice, List.length_drop, List.length_take, min_eq_left (by omega)]
    omega
  refine ⟨⟨hlong, rfl, ?_⟩, hlimits₁, by rw [hsome]; rfl, by rw [← hlimits₁]; exact hframe⟩
  simp only [hsome]
  refine ⟨hpos, hcountMax, countDigits,
    wire ++ block digits (slice input (stop + 2) (stop + 2 + length)), hcountNumeral, hcountHeader,
    ?_, ?_⟩
  · rw [take_eq_append_slice (Nat.le_add_right (stop + 2 + length) 2), hcrlf,
      take_eq_append_slice (Nat.le_add_right (stop + 2) length), htake, hwire, block]
    simp
  · rw [List.map_append]
    exact hblocks.snoc (by rw [hargumentLength]; exact hnumeral)
      (by rw [hargumentLength]; exact hmax) hheader

theorem decode_sound {d d' : Decoder} {input rest : Bytes} {request : Request}
    (hparsed : d.Parsed input) (hdecode : d.decode input = .ok (d', rest, some request)) :
    d' = fresh d.limits ∧ rest = input.drop request.wireBytes ∧
      request.wireBytes ≤ input.length ∧
      Frame d.limits request.arguments (input.take request.wireBytes) := by
  induction hdecode using decode_ok_induction with
  | wait d _ _ _ hnone => cases hnone
  | last d _ e hpass hlast hfinish =>
      obtain ⟨hparsed', hlimits, -, hframe⟩ := pass_parsed hparsed hpass
      cases hfinish
      have hread := hparsed'.read
      rw [← hlast, hlimits] at hread
      obtain ⟨hpos, hmax, digits, wire, hnumeral, hheader, hwire, hblocks⟩ := hread
      refine ⟨?_, rfl, hparsed'.fits, digits, wire, hwire, ?_, hheader, hblocks, ?_, ?_, ?_⟩
      · rw [← hlimits, fresh, hparsed'.bulk]
      · rwa [List.length_map]
      · rwa [List.length_map]
      · rwa [List.length_map]
      · rw [List.length_take]
        exact le_trans (min_le_left _ _) hframe
  | next d _ e _ hpass _ ih =>
      obtain ⟨hparsed', hlimits, -, -⟩ := pass_parsed hparsed hpass
      rw [← hlimits]
      exact ih hparsed'

/-- A fresh decoder accepts exactly the frames, takes them off the buffer and starts over, and
refuses only what no further input turns into a frame. -/
theorem decode_iff_frame {limits : Limits} {d : Decoder} (hnew : new limits = .ok d)
    (input : Bytes) :
    (∀ arguments n,
      (∃ d' rest, d.decode input = .ok (d', rest, some ⟨arguments, n⟩)) ↔
        n ≤ input.length ∧ Frame limits arguments (input.take n)) ∧
    (∀ d' rest request, d.decode input = .ok (d', rest, some request) →
      d' = d ∧ rest = input.drop request.wireBytes) ∧
    (∀ failure, d.decode input = .error failure →
      ∀ more arguments n, n ≤ (input ++ more).length →
        ¬ Frame limits arguments ((input ++ more).take n)) := by
  obtain ⟨-, rfl⟩ := new_ok hnew
  have hparsed := fresh_parsed limits input
  have haccept : ∀ buffer arguments n, n ≤ buffer.length → Frame limits arguments (buffer.take n) →
      (fresh limits).decode buffer = .ok (fresh limits, buffer.drop n, some ⟨arguments, n⟩) := by
    intro buffer arguments n hn hframe
    have hdecode := @decode_of_frame limits arguments (buffer.take n) (buffer.drop n) hframe
    rwa [List.take_append_drop, List.length_take, min_eq_left hn] at hdecode
  refine ⟨fun arguments n => ⟨?_, ?_⟩, ?_, ?_⟩
  · rintro ⟨d', rest, hdecode⟩
    obtain ⟨-, -, hn, hframe⟩ := decode_sound hparsed hdecode
    exact ⟨hn, hframe⟩
  · rintro ⟨hn, hframe⟩
    exact ⟨_, _, haccept input arguments n hn hframe⟩
  · intro d' rest request hdecode
    obtain ⟨hd, hrest, -⟩ := decode_sound hparsed hdecode
    exact ⟨hd, hrest⟩
  · intro failure hdecode more arguments n hn hframe
    obtain ⟨failure', hmore⟩ := decode_fails hdecode more
    rw [haccept _ arguments n hn hframe] at hmore
    cases hmore

/-- A frame whose argument imitates a header, with leading zeros in its lengths. -/
theorem decode_iff_frame_sample :
    new Limits.default = .ok (fresh Limits.default) ∧
      Frame Limits.default [ascii "$1\r\n"]
        ((ascii "*01\r\n$004\r\n$1\r\n\r\n*").take 17) := by
  refine ⟨rfl, ?_⟩
  refine (((@decode_iff_frame Limits.default (fresh Limits.default) rfl
    (ascii "*01\r\n$004\r\n$1\r\n\r\n*")).1 [ascii "$1\r\n"] 17).mp ?_).2
  exact ⟨fresh Limits.default, [42], by decide +kernel⟩

end Decoder

end Recall
