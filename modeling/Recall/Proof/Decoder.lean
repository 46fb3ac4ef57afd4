import Recall.Decoder
import Recall.Lib.Incremental
import Mathlib.Data.List.TakeDrop

/-!
# Fragmentation of the request stream

How a decoder that stopped in the middle of a frame goes on when more bytes arrive.
-/

namespace Recall

open Incremental

theorem slice_append {input : Bytes} {start stop : Nat} (hstop : stop ≤ input.length)
    (more : Bytes) : slice (input ++ more) start stop = slice input start stop := by
  rw [slice, slice, List.take_append_of_le_length hstop]

namespace Decoder

/-! ### Header lines -/

/-- A line that was found, and that it is found again with more input behind it. -/
theorem headerEnd_found {d d' : Decoder} {input : Bytes} {stop : Nat}
    (hend : d.headerEnd input = .ok (d', some stop)) :
    d' = { d with scan := stop } ∧ d.scan ≤ stop ∧ stop + 1 < input.length ∧
      input[stop]? = some 13 ∧ input[stop + 1]? = some 10 ∧
      stop - d.cursor + 2 ≤ d.limits.maxHeaderBytes ∧ stop + 2 ≤ d.limits.maxFrameBytes ∧
      ∀ more, d.headerEnd (input ++ more) = .ok (d', some stop) := by
  induction hend using headerEnd_ok_induction with
  | found d _ hlt hcr hlf hheader hframe hstate hstop =>
      cases hstop
      refine ⟨hstate, le_refl _, hlt, ?_, ?_, hheader, hframe, fun more => ?_⟩
      · rw [List.getElem?_eq_getElem (by omega), hcr]
      · rw [List.getElem?_eq_getElem hlt, hlf]
      · have hlt' : d.scan + 1 < (input ++ more).length := by
          rw [List.length_append]
          omega
        rw [headerEnd, dif_pos hlt', if_neg (by omega), if_pos, hstate]
        rw [List.getElem_append_left (by omega), List.getElem_append_left hlt]
        exact ⟨hcr, hlf⟩
  | next d _ _ hmore hlt ih =>
      obtain ⟨hstate, hscan, hstop, hcr, hlf, hheader, hframe, hagain⟩ := ih
      refine ⟨hstate, by simp only at hscan; omega, hstop, hcr, hlf, hheader, hframe, fun more => ?_⟩
      rw [hmore, hagain more]
  | wait d _ _ _ hstop => cases hstop

/-- A scan that ran out of input goes on from where it stopped. -/
theorem headerEnd_resumes {d d' : Decoder} {input : Bytes}
    (hend : d.headerEnd input = .ok (d', none)) (more : Bytes) :
    d'.headerEnd (input ++ more) = d.headerEnd (input ++ more) := by
  induction hend using headerEnd_ok_induction with
  | found d _ _ _ _ _ _ _ hstop => cases hstop
  | next d _ _ hmore _ ih => rw [ih, hmore]
  | wait d _ _ hstate => rw [hstate]

/-- The test on running out of input refuses only what the scan would refuse later. -/
theorem headerEnd_fails {d : Decoder} {input : Bytes} {failure : ProtocolError}
    (hend : d.headerEnd input = .error failure) (more : Bytes) :
    ∃ failure', d.headerEnd (input ++ more) = .error failure' := by
  induction d using headerEnd.induct input with
  | case1 d hlt hlimit =>
      have hlt' : d.scan + 1 < (input ++ more).length := by
        rw [List.length_append]
        omega
      exact ⟨_, by rw [headerEnd, dif_pos hlt', if_pos hlimit]⟩
  | case2 d hlt hlimit hcrlf =>
      rw [headerEnd, dif_pos hlt, if_neg hlimit, if_pos hcrlf] at hend
      cases hend
  | case3 d hlt hlimit hcrlf hlf =>
      have hlt' : d.scan + 1 < (input ++ more).length := by
        rw [List.length_append]
        omega
      refine ⟨.lineEnding, ?_⟩
      rw [headerEnd, dif_pos hlt', if_neg hlimit, if_neg, if_pos]
      · rwa [List.getElem_append_left (by omega)]
      · rwa [List.getElem_append_left (by omega), List.getElem_append_left hlt]
  | case4 d hlt hlimit hcrlf hlf ih =>
      rw [headerEnd, dif_pos hlt, if_neg hlimit, if_neg hcrlf, if_neg hlf] at hend
      rw [headerEnd_next hlt hlimit hcrlf hlf]
      exact ih hend
  | case5 d hlt hlimit =>
      by_cases hlt' : d.scan + 1 < (input ++ more).length
      · refine ⟨.headerLimit, ?_⟩
        rw [headerEnd, dif_pos hlt', if_pos]
        omega
      · refine ⟨.headerUnterminated, ?_⟩
        rw [headerEnd, dif_neg hlt', if_pos]
        rw [List.length_append]
        omega
  | case6 d hlt hlimit =>
      rw [headerEnd, dif_neg hlt, if_neg hlimit] at hend
      cases hend

theorem lengthHeader_append {d : Decoder} {input : Bytes} {stop : Nat}
    (hcursor : d.cursor < input.length) (hstop : stop ≤ input.length) (marker : UInt8)
    (more : Bytes) :
    d.lengthHeader (input ++ more) stop marker = d.lengthHeader input stop marker := by
  rw [lengthHeader, lengthHeader, List.getElem?_append_left hcursor, slice_append hstop]

theorem readHeader_of_stop {d d' : Decoder} {input : Bytes} {stop : Nat}
    (hend : d.headerEnd input = .ok (d', some stop)) (marker : UInt8) (more : Bytes) :
    d.readHeader (input ++ more) marker =
      (d'.lengthHeader input stop marker).map fun length => (d', some (stop, length)) := by
  obtain ⟨rfl, hscan, hstop, -, -, -, -, hmore⟩ := headerEnd_found hend
  by_cases hcursor : d.cursor < input.length
  · have hlength : ({ d with scan := stop }).lengthHeader (input ++ more) stop marker =
        ({ d with scan := stop }).lengthHeader input stop marker :=
      lengthHeader_append (by exact hcursor) (by omega) marker more
    rw [readHeader, hmore]
    simp only [bind, Except.bind, hlength]
    cases ({ d with scan := stop }).lengthHeader input stop marker <;> rfl
  · have hfail : ∀ input' : Bytes, ({ d with scan := stop }).lengthHeader input' stop marker =
        .error .lengthExpected := by
      intro input'
      rw [lengthHeader, if_pos (.inl (by simp only; omega))]
    rw [readHeader, hmore, hfail]
    simp only [bind, Except.bind, hfail]
    rfl

theorem readHeader_complete {d d' : Decoder} {input : Bytes} {marker : UInt8} {stop length : Nat}
    (hread : d.readHeader input marker = .ok (d', some (stop, length))) (more : Bytes) :
    d.readHeader (input ++ more) marker = .ok (d', some (stop, length)) := by
  obtain ⟨hnone, -⟩ | ⟨_, _, hline, hend, hlength⟩ := readHeader_ok hread
  · cases hnone
  · cases hline
    rw [readHeader_of_stop hend, hlength]
    rfl

theorem readHeader_resumes {d d' : Decoder} {input : Bytes} {marker : UInt8}
    (hread : d.readHeader input marker = .ok (d', none)) (more : Bytes) :
    d'.readHeader (input ++ more) marker = d.readHeader (input ++ more) marker := by
  obtain ⟨-, hend⟩ | ⟨_, _, hline, -⟩ := readHeader_ok hread
  · rw [readHeader, readHeader, headerEnd_resumes hend]
  · cases hline

theorem readHeader_fails {d : Decoder} {input : Bytes} {marker : UInt8} {failure : ProtocolError}
    (hread : d.readHeader input marker = .error failure) (more : Bytes) :
    ∃ failure', d.readHeader (input ++ more) marker = .error failure' := by
  rcases hend : d.headerEnd input with failure₀ | ⟨d', _ | stop⟩
  · obtain ⟨failure', hmore⟩ := headerEnd_fails hend more
    exact ⟨failure', by rw [readHeader, hmore]; rfl⟩
  · rw [readHeader, hend] at hread
    cases hread
  · have hwhole := readHeader_of_stop hend marker []
    rw [List.append_nil, hread] at hwhole
    exact ⟨failure, by rw [readHeader_of_stop hend, ← hwhole]⟩

/-! ### Stages -/

theorem countStage_complete {d d' : Decoder} {input : Bytes}
    (hstage : d.countStage input = .ok (d', true)) (more : Bytes) :
    d.countStage (input ++ more) = .ok (d', true) := by
  obtain ⟨hsome, rfl, -⟩ | ⟨-, -, hfalse⟩ | ⟨e, stop, count, hnone, hread, hpos, hmax, rfl, -⟩ :=
    countStage_ok hstage
  · obtain ⟨count, hcount⟩ := Option.isSome_iff_exists.mp hsome
    simp [countStage, hcount]
  · cases hfalse
  · have hbad : ¬ (count = 0 ∨ e.limits.maxArguments < count) := by omega
    simp only [countStage, hnone, bind, Except.bind, readHeader_complete hread more, if_neg hbad]
    rfl

theorem countStage_resumes {d d' : Decoder} {input : Bytes}
    (hstage : d.countStage input = .ok (d', false)) (more : Bytes) :
    d'.countStage (input ++ more) = d.countStage (input ++ more) := by
  obtain ⟨-, -, hfalse⟩ | ⟨hnone, hread, -⟩ | ⟨_, _, _, -, -, -, -, -, hfalse⟩ :=
    countStage_ok hstage
  · cases hfalse
  · have hnone' : d'.argumentCount = none := by
      obtain ⟨scan, rfl⟩ := readHeader_state hread
      exact hnone
    rw [countStage, countStage, hnone, hnone', readHeader_resumes hread]
  · cases hfalse

theorem countStage_fails {d : Decoder} {input : Bytes} {failure : ProtocolError}
    (hstage : d.countStage input = .error failure) (more : Bytes) :
    ∃ failure', d.countStage (input ++ more) = .error failure' := by
  cases hcount : d.argumentCount with
  | some count => simp [countStage, hcount] at hstage
  | none =>
      simp only [countStage, hcount] at hstage ⊢
      rcases hread : d.readHeader input 42 with failure₀ | ⟨e, _ | ⟨stop, count⟩⟩
      · obtain ⟨failure', hmore⟩ := readHeader_fails hread more
        exact ⟨failure', by rw [hmore]; rfl⟩
      · simp [bind, Except.bind, hread] at hstage
      · rw [readHeader_complete hread more]
        rw [hread] at hstage
        exact ⟨failure, hstage⟩

theorem bulkStage_complete {d d' : Decoder} {input : Bytes} {length : Nat}
    (hstage : d.bulkStage input = .ok (d', some length)) (more : Bytes) :
    d.bulkStage (input ++ more) = .ok (d', some length) := by
  obtain ⟨-, rfl, hsome⟩ | ⟨-, -, hfalse⟩ | ⟨e, stop, _, hnone, hread, hmax, rfl, hline⟩ :=
    bulkStage_ok hstage
  · rw [bulkStage, ← hsome]
  · cases hfalse
  · cases hline
    have hbad : ¬ e.limits.maxBulkBytes < length := by omega
    simp only [bulkStage, hnone, bind, Except.bind, readHeader_complete hread more, if_neg hbad]
    rfl

theorem bulkStage_resumes {d d' : Decoder} {input : Bytes}
    (hstage : d.bulkStage input = .ok (d', none)) (more : Bytes) :
    d'.bulkStage (input ++ more) = d.bulkStage (input ++ more) := by
  obtain ⟨hsome, -, hline⟩ | ⟨hnone, hread, -⟩ | ⟨_, _, _, -, -, -, -, hfalse⟩ :=
    bulkStage_ok hstage
  · rw [← hline] at hsome
    cases hsome
  · have hnone' : d'.bulkLength = none := by
      obtain ⟨scan, rfl⟩ := readHeader_state hread
      exact hnone
    rw [bulkStage, bulkStage, hnone, hnone', readHeader_resumes hread]
  · cases hfalse

theorem bulkStage_fails {d : Decoder} {input : Bytes} {failure : ProtocolError}
    (hstage : d.bulkStage input = .error failure) (more : Bytes) :
    ∃ failure', d.bulkStage (input ++ more) = .error failure' := by
  cases hbulk : d.bulkLength with
  | some length => simp [bulkStage, hbulk] at hstage
  | none =>
      simp only [bulkStage, hbulk] at hstage ⊢
      rcases hread : d.readHeader input 36 with failure₀ | ⟨e, _ | ⟨stop, length⟩⟩
      · obtain ⟨failure', hmore⟩ := readHeader_fails hread more
        exact ⟨failure', by rw [hmore]; rfl⟩
      · simp [bind, Except.bind, hread] at hstage
      · rw [readHeader_complete hread more]
        rw [hread] at hstage
        exact ⟨failure, hstage⟩

/-- An argument stage that does not wait comes out the same with more input. -/
theorem argumentStage_append {d : Decoder} {input : Bytes} {length : Nat}
    (hstage : ∀ d', d.argumentStage input length ≠ .ok (d', false)) (more : Bytes) :
    d.argumentStage (input ++ more) length = d.argumentStage input length := by
  rcases hstop : (usizeCheckedAdd d.cursor length).bind fun stop => usizeCheckedAdd stop 2 with
    _ | stop
  · rw [argumentStage, argumentStage, hstop]
  · simp only [argumentStage, hstop] at hstage ⊢
    by_cases hframe : d.limits.maxFrameBytes < stop
    · rw [if_pos hframe, if_pos hframe]
    · have hlong : ¬ input.length < stop := by
        intro hshort
        exact hstage d (by rw [if_neg hframe, if_pos hshort])
      have hlong' : ¬ (input ++ more).length < stop := by
        rw [List.length_append]
        omega
      rw [if_neg hframe, if_neg hframe, if_neg hlong, if_neg hlong', slice_append (by omega)]

theorem countStage_known {d : Decoder} (hsome : d.argumentCount.isSome) (input : Bytes) :
    d.countStage input = .ok (d, true) := by
  obtain ⟨count, hcount⟩ := Option.isSome_iff_exists.mp hsome
  rw [countStage, hcount]

theorem bulkStage_known {d : Decoder} {length : Nat} (hsome : d.bulkLength = some length)
    (input : Bytes) : d.bulkStage input = .ok (d, some length) := by
  rw [bulkStage, hsome]

theorem countStage_isSome {d d' : Decoder} {input : Bytes}
    (hstage : d.countStage input = .ok (d', true)) : d'.argumentCount.isSome := by
  obtain ⟨hsome, rfl, -⟩ | ⟨-, -, hfalse⟩ | ⟨_, _, _, -, -, -, -, rfl, -⟩ := countStage_ok hstage
  · exact hsome
  · cases hfalse
  · rfl

theorem bulkStage_state {d d' : Decoder} {input : Bytes} {line : Option Nat}
    (hstage : d.bulkStage input = .ok (d', line)) :
    d'.argumentCount = d.argumentCount ∧ d'.spans = d.spans ∧ d'.limits = d.limits ∧
      d'.bulkLength = line := by
  obtain ⟨-, rfl, hline⟩ | ⟨hnone, hread, rfl⟩ | ⟨e, stop, length, -, hread, -, rfl, rfl⟩ :=
    bulkStage_ok hstage
  · exact ⟨rfl, rfl, rfl, hline.symm⟩
  · obtain ⟨scan, rfl⟩ := readHeader_state hread
    exact ⟨rfl, rfl, rfl, hnone⟩
  · obtain ⟨scan, rfl⟩ := readHeader_state hread
    exact ⟨rfl, rfl, rfl, rfl⟩

/-! ### A pass -/

theorem pass_of_count {d d₁ : Decoder} {input : Bytes}
    (hcount : d.countStage input = .ok (d₁, true)) :
    d.pass input = (do
      match ← d₁.bulkStage input with
      | (d, none) => return (d, false)
      | (d, some length) => d.argumentStage input length) := by
  rw [pass, hcount]
  rfl

theorem pass_of_bulk {d d₁ d₂ : Decoder} {input : Bytes} {length : Nat}
    (hcount : d.countStage input = .ok (d₁, true))
    (hbulk : d₁.bulkStage input = .ok (d₂, some length)) :
    d.pass input = d₂.argumentStage input length := by
  rw [pass_of_count hcount, hbulk]
  rfl

theorem pass_complete {d d' : Decoder} {input : Bytes} (hpass : d.pass input = .ok (d', true))
    (more : Bytes) : d.pass (input ++ more) = .ok (d', true) := by
  obtain ⟨hfalse, -⟩ | ⟨d₁, hcount, ⟨hfalse, -⟩ | ⟨d₂, length, hbulk, hargument⟩⟩ := pass_ok hpass
  · cases hfalse
  · cases hfalse
  · rw [pass_of_bulk (countStage_complete hcount more) (bulkStage_complete hbulk more),
      argumentStage_append (by simp [hargument]), hargument]

theorem pass_resumes {d d' : Decoder} {input : Bytes} (hpass : d.pass input = .ok (d', false))
    (more : Bytes) : d'.pass (input ++ more) = d.pass (input ++ more) := by
  obtain ⟨-, hcount⟩ | ⟨d₁, hcount, ⟨-, hbulk⟩ | ⟨d₂, length, hbulk, hargument⟩⟩ := pass_ok hpass
  · rw [pass, pass, countStage_resumes hcount]
  · have hknown : d'.argumentCount.isSome := by
      rw [(bulkStage_state hbulk).1]
      exact countStage_isSome hcount
    rw [pass_of_count (countStage_complete hcount more), pass_of_count (countStage_known hknown _),
      bulkStage_resumes hbulk]
  · have hstate := bulkStage_state hbulk
    obtain ⟨-, ⟨rfl, -, -⟩ | ⟨hfalse, -⟩⟩ := argumentStage_ok hargument
    · have hknown : d'.argumentCount.isSome := by
        rw [hstate.1]
        exact countStage_isSome hcount
      rw [pass_of_bulk (countStage_complete hcount more) (bulkStage_complete hbulk more),
        pass_of_bulk (countStage_known hknown _) (bulkStage_known hstate.2.2.2 _)]
    · cases hfalse

theorem pass_fails {d : Decoder} {input : Bytes} {failure : ProtocolError}
    (hpass : d.pass input = .error failure) (more : Bytes) :
    ∃ failure', d.pass (input ++ more) = .error failure' := by
  rcases hcount : d.countStage input with failure₀ | ⟨d₁, _ | _⟩
  · obtain ⟨failure', hmore⟩ := countStage_fails hcount more
    exact ⟨failure', by rw [pass, hmore]; rfl⟩
  · rw [pass, hcount] at hpass
    cases hpass
  · rcases hbulk : d₁.bulkStage input with failure₀ | ⟨d₂, _ | length⟩
    · obtain ⟨failure', hmore⟩ := bulkStage_fails hbulk more
      exact ⟨failure', by rw [pass_of_count (countStage_complete hcount more), hmore]; rfl⟩
    · rw [pass_of_count hcount, hbulk] at hpass
      cases hpass
    · rw [pass_of_bulk hcount hbulk] at hpass
      refine ⟨failure, ?_⟩
      rw [pass_of_bulk (countStage_complete hcount more) (bulkStage_complete hbulk more),
        argumentStage_append (by simp [hpass]), hpass]

/-! ### A call -/

theorem decode_error {d : Decoder} {input : Bytes} {failure : ProtocolError}
    (hpass : d.pass input = .error failure) : d.decode input = .error failure := by
  rw [decode]
  split <;> simp_all

theorem decode_wait {d d' : Decoder} {input : Bytes} (hpass : d.pass input = .ok (d', false)) :
    d.decode input = .ok (d', input, none) := by
  rw [decode]
  split <;> simp_all

theorem decode_pass {d d' : Decoder} {input : Bytes} (hpass : d.pass input = .ok (d', true)) :
    d.decode input =
      if some d'.spans.length = d'.argumentCount then .ok (d'.finish input)
      else d'.decode input := by
  rw [decode]
  split <;> simp_all

/-- Induction over the passes of a call that refuses nothing. -/
@[elab_as_elim]
theorem decode_ok_induction {d' : Decoder} {input rest : Bytes} {request : Option Request}
    {motive : ∀ d : Decoder, d.decode input = .ok (d', rest, request) → Prop}
    (wait : ∀ d hdecode, d.pass input = .ok (d', false) → rest = input → request = none →
      motive d hdecode)
    (last : ∀ d hdecode e, d.pass input = .ok (e, true) → some e.spans.length = e.argumentCount →
      e.finish input = (d', rest, request) → motive d hdecode)
    (next : ∀ d hdecode e hrest, d.pass input = .ok (e, true) →
      some e.spans.length ≠ e.argumentCount → motive e hrest → motive d hdecode)
    {d : Decoder} (hdecode : d.decode input = .ok (d', rest, request)) : motive d hdecode := by
  induction d using decode.induct input with
  | case1 d failure hpass =>
      rw [decode_error hpass] at hdecode
      cases hdecode
  | case2 d e hpass =>
      have hwait := hdecode
      rw [decode_wait hpass] at hwait
      cases hwait
      exact wait d hdecode hpass rfl rfl
  | case3 d e hpass hlast =>
      have hfinish := hdecode
      rw [decode_pass hpass, if_pos hlast] at hfinish
      exact last d hdecode e hpass hlast (Except.ok.inj hfinish)
  | case4 d e hpass hmore ih =>
      have hrest := hdecode
      rw [decode_pass hpass, if_neg hmore] at hrest
      exact next d hdecode e hrest hpass hmore (ih hrest)

/-- The cursor and every recorded argument lie within the buffer. -/
structure Fits (d : Decoder) (input : Bytes) : Prop where
  cursor : d.cursor ≤ input.length
  spans : ∀ span ∈ d.spans, span.2 ≤ input.length

theorem Fits.append {d : Decoder} {input : Bytes} (hfits : d.Fits input) (more : Bytes) :
    d.Fits (input ++ more) := by
  refine ⟨?_, fun span hspan => ?_⟩
  · rw [List.length_append]
    exact le_trans hfits.cursor (Nat.le_add_right _ _)
  · rw [List.length_append]
    exact le_trans (hfits.spans span hspan) (Nat.le_add_right _ _)

theorem readHeader_fits {d d' : Decoder} {input : Bytes} {marker : UInt8} {stop length : Nat}
    (hread : d.readHeader input marker = .ok (d', some (stop, length))) :
    stop + 2 ≤ input.length := by
  obtain ⟨hnone, -⟩ | ⟨_, _, hline, hend, -⟩ := readHeader_ok hread
  · cases hnone
  · cases hline
    have hstop := (headerEnd_found hend).2.2.1
    omega

theorem countStage_fits {d d' : Decoder} {input : Bytes} {complete : Bool} (hfits : d.Fits input)
    (hstage : d.countStage input = .ok (d', complete)) : d'.Fits input := by
  obtain ⟨-, rfl, -⟩ | ⟨-, hread, -⟩ | ⟨e, stop, count, -, hread, -, -, rfl, -⟩ :=
    countStage_ok hstage
  · exact hfits
  · obtain ⟨scan, rfl⟩ := readHeader_state hread
    exact ⟨hfits.cursor, hfits.spans⟩
  · obtain ⟨scan, rfl⟩ := readHeader_state hread
    exact ⟨readHeader_fits hread, hfits.spans⟩

theorem bulkStage_fits {d d' : Decoder} {input : Bytes} {line : Option Nat} (hfits : d.Fits input)
    (hstage : d.bulkStage input = .ok (d', line)) : d'.Fits input := by
  obtain ⟨-, rfl, -⟩ | ⟨-, hread, -⟩ | ⟨e, stop, length, -, hread, -, rfl, -⟩ :=
    bulkStage_ok hstage
  · exact hfits
  · obtain ⟨scan, rfl⟩ := readHeader_state hread
    exact ⟨hfits.cursor, hfits.spans⟩
  · obtain ⟨scan, rfl⟩ := readHeader_state hread
    exact ⟨readHeader_fits hread, hfits.spans⟩

theorem pass_fits {d d' : Decoder} {input : Bytes} {complete : Bool} (hfits : d.Fits input)
    (hpass : d.pass input = .ok (d', complete)) : d'.Fits input := by
  obtain ⟨-, hcount⟩ | ⟨d₁, hcount, ⟨-, hbulk⟩ | ⟨d₂, length, hbulk, hargument⟩⟩ := pass_ok hpass
  · exact countStage_fits hfits hcount
  · exact bulkStage_fits (countStage_fits hfits hcount) hbulk
  · have hfits₂ := bulkStage_fits (countStage_fits hfits hcount) hbulk
    obtain ⟨-, ⟨rfl, -, -⟩ | ⟨-, hlong, -, rfl⟩⟩ := argumentStage_ok hargument
    · exact hfits₂
    · refine ⟨hlong, fun span hspan => ?_⟩
      rcases List.mem_append.mp hspan with hold | hnew
      · exact hfits₂.spans span hold
      · rw [List.mem_singleton.mp hnew]
        simp only
        omega

theorem finish_append {d : Decoder} {input : Bytes} (hfits : d.Fits input) (more : Bytes) :
    d.finish (input ++ more) =
      ((d.finish input).1, (d.finish input).2.1 ++ more, (d.finish input).2.2) := by
  have hspans : (d.spans.map fun span => slice (input ++ more) span.1 span.2) =
      d.spans.map fun span => slice input span.1 span.2 := by
    refine List.map_congr_left fun span hspan => ?_
    exact slice_append (hfits.spans span hspan) more
  rw [finish, finish, hspans, List.drop_append_of_le_length hfits.cursor]

theorem decode_shrinks {d d' : Decoder} {input rest : Bytes} {request : Request}
    (hdecode : d.decode input = .ok (d', rest, some request)) : rest.length < input.length := by
  induction hdecode using decode_ok_induction with
  | wait d _ _ _ hnone => cases hnone
  | last d _ e hpass _ hfinish =>
      have hcursor := pass_cursor hpass
      cases hfinish
      rw [List.length_drop]
      omega
  | next d _ e _ _ _ ih => exact ih

def reader : Reader Decoder UInt8 Request ProtocolError where
  read := decode
  shrinks := decode_shrinks

theorem decode_complete {d d' : Decoder} {input rest : Bytes} {request : Request}
    (hfits : d.Fits input) (hdecode : d.decode input = .ok (d', rest, some request)) :
    d'.Fits rest ∧
      ∀ more, d.decode (input ++ more) = .ok (d', rest ++ more, some request) := by
  induction hdecode using decode_ok_induction with
  | wait d _ _ _ hnone => cases hnone
  | last d _ e hpass hlast hfinish =>
      have hfits' := pass_fits hfits hpass
      refine ⟨?_, fun more => ?_⟩
      · cases hfinish
        exact ⟨Nat.zero_le _, by simp⟩
      · rw [decode_pass (pass_complete hpass more), if_pos hlast, finish_append hfits', hfinish]
  | next d _ e _ hpass hmore ih =>
      obtain ⟨hfits', hagain⟩ := ih (pass_fits hfits hpass)
      refine ⟨hfits', fun more => ?_⟩
      rw [decode_pass (pass_complete hpass more), if_neg hmore, hagain more]

/-- A pass that starts alike makes the call alike. -/
theorem decode_congr {d e : Decoder} {input : Bytes} (hpass : d.pass input = e.pass input) :
    d.decode input = e.decode input := by
  rcases he : e.pass input with failure | ⟨e', _ | _⟩
  · rw [decode_error he, decode_error (hpass.trans he)]
  · rw [decode_wait he, decode_wait (hpass.trans he)]
  · rw [decode_pass he, decode_pass (hpass.trans he)]

theorem decode_resumes {d d' : Decoder} {input rest : Bytes} (hfits : d.Fits input)
    (hdecode : d.decode input = .ok (d', rest, none)) :
    rest = input ∧ d'.Fits input ∧
      ∀ more, d'.decode (input ++ more) = d.decode (input ++ more) := by
  induction hdecode using decode_ok_induction with
  | wait d _ hpass hrest _ =>
      exact ⟨hrest, pass_fits hfits hpass, fun more => decode_congr (pass_resumes hpass more)⟩
  | last d _ e _ _ hfinish => cases hfinish
  | next d _ e _ hpass hmore ih =>
      obtain ⟨hrest, hfits', hagain⟩ := ih (pass_fits hfits hpass)
      refine ⟨hrest, hfits', fun more => ?_⟩
      rw [hagain more, decode_pass (pass_complete hpass more), if_neg hmore]

theorem decode_fails {d : Decoder} {input : Bytes} {failure : ProtocolError}
    (hdecode : d.decode input = .error failure) (more : Bytes) :
    ∃ failure', d.decode (input ++ more) = .error failure' := by
  induction d using decode.induct input with
  | case1 d failure₀ hpass =>
      obtain ⟨failure', hmore⟩ := pass_fails hpass more
      exact ⟨failure', decode_error hmore⟩
  | case2 d e hpass =>
      rw [decode_wait hpass] at hdecode
      cases hdecode
  | case3 d e hpass hlast =>
      rw [decode_pass hpass, if_pos hlast] at hdecode
      cases hdecode
  | case4 d e hpass hlast ih =>
      rw [decode_pass hpass, if_neg hlast] at hdecode
      obtain ⟨failure', hmore⟩ := ih hdecode
      exact ⟨failure', by rw [decode_pass (pass_complete hpass more), if_neg hlast, hmore]⟩

theorem resumable : reader.Resumable Fits where
  wait hfits hread := by
    obtain ⟨hrest, hfits', hmore⟩ := decode_resumes hfits hread
    refine ⟨hrest, hfits', fun more => ?_⟩
    rw [show reader.read = decode from rfl, hmore more]
    exact Alike.refl _
  item hfits hread := decode_complete hfits hread
  fail _ hread more := decode_fails hread more
  grow hfits more := hfits.append more

/-! ### Fresh decoders -/

/-- The decoder between two frames. -/
def fresh (limits : Limits) : Decoder where
  limits := limits
  cursor := 0
  scan := 0
  argumentCount := none
  bulkLength := none
  spans := []

theorem new_ok {limits : Limits} {d : Decoder} (hnew : new limits = .ok d) :
    limits.validate = .ok () ∧ d = fresh limits := by
  unfold new at hnew
  rcases hvalid : limits.validate with failure | _
  · rw [hvalid] at hnew
    cases hnew
  · rw [hvalid] at hnew
    cases hnew
    exact ⟨rfl, rfl⟩

theorem validate_ok {limits : Limits} (hvalid : limits.validate = .ok ()) :
    16 ≤ limits.maxFrameBytes ∧ limits.maxBulkBytes ≤ limits.maxFrameBytes ∧
      0 < limits.maxArguments ∧ 4 ≤ limits.maxHeaderBytes ∧
      limits.maxHeaderBytes ≤ limits.maxFrameBytes := by
  unfold Limits.validate at hvalid
  split at hvalid
  · cases hvalid
  · omega

theorem fresh_fits (limits : Limits) (input : Bytes) : (fresh limits).Fits input :=
  ⟨Nat.zero_le _, by simp [fresh]⟩

theorem fresh_waits {limits : Limits} (hvalid : limits.validate = .ok ()) :
    (fresh limits).decode [] = .ok (fresh limits, [], none) := by
  have hbounds := validate_ok hvalid
  have hend : (fresh limits).headerEnd [] = .ok (fresh limits, none) := by
    rw [headerEnd, dif_neg (by simp [fresh]), if_neg]
    simp only [fresh, List.length_nil]
    omega
  have hcount : (fresh limits).countStage [] = .ok (fresh limits, false) := by
    have hread : (fresh limits).readHeader [] 42 = .ok (fresh limits, none) := by
      rw [readHeader, hend]
      rfl
    rw [countStage, show (fresh limits).argumentCount = none from rfl, hread]
    rfl
  exact decode_wait (by rw [pass, hcount]; rfl)

/-- The requests, the outcome and the leftover input do not depend on how the stream is cut. -/
theorem fragmentation_independent {limits : Limits} {d : Decoder} (hnew : new limits = .ok d)
    {stream : Bytes} {chunks : List Bytes} (hchunks : chunks.flatten = stream) :
    let cut := reader.feed d [] chunks
    let whole := reader.feed d [] [stream]
    cut.1 = whole.1 ∧
      ((∃ failure, cut.2 = .error failure) ↔ ∃ failure, whole.2 = .error failure) ∧
      ∀ d' rest, cut.2 = .ok (d', rest) ↔ whole.2 = .ok (d', rest) := by
  obtain ⟨hvalid, rfl⟩ := new_ok hnew
  have hfits := fresh_fits limits []
  have hwaits := fresh_waits hvalid
  have hcut := Reader.feed_alike_drain resumable chunks hfits hwaits
  have hwhole := Reader.feed_alike_drain resumable [stream] hfits hwaits
  rw [List.flatten_singleton, ← hchunks] at hwhole
  have halike := hcut.2.trans hwhole.2.symm
  rw [hchunks] at halike hwhole
  refine ⟨by rw [hcut.1, hchunks, hwhole.1], ⟨?_, ?_⟩, fun d' rest => ⟨?_, ?_⟩⟩
  · rintro ⟨failure, hfailure⟩
    rw [hfailure] at halike
    exact halike.symm.error_of
  · rintro ⟨failure, hfailure⟩
    rw [hfailure] at halike
    exact halike.error_of
  · intro hok
    rw [hok] at halike
    exact halike.symm.ok_eq
  · intro hok
    rw [hok] at halike
    exact halike.ok_eq

/-- `PING` and a partial frame, cut inside the first header and inside its line ending. -/
theorem fragmentation_independent_ping :
    let chunks := [ascii "*", ascii "1\r", ascii "\n$4\r\nPI", [], ascii "NG\r\n*2"]
    new Limits.default = .ok (fresh Limits.default) ∧
      (reader.feed (fresh Limits.default) [] chunks).1 = [⟨[ascii "PING"], 14⟩] ∧
      (reader.feed (fresh Limits.default) [] chunks).1 =
        (reader.feed (fresh Limits.default) [] [chunks.flatten]).1 := by
  refine ⟨rfl, by decide +kernel, ?_⟩
  exact (@fragmentation_independent Limits.default (fresh Limits.default) rfl _ _ rfl).1

end Decoder

end Recall
