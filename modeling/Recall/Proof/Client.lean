import Recall.Client
import Recall.Proof.Wire
import Recall.Proof.Integers

/-!
# The client reads what was encoded

A grammar of the replies the client accepts, and the replies it can receive at all. Each of these is
read back from its encoding, whatever follows; and what is read from the beginning of a stream is
read from all of it.
-/

namespace Recall.Client

/-! ### The grammar -/

def maxBulk : Nat := 64 * 1024 * 1024

def maxValues : Nat := 4096

/-- What can stand on a header line. -/
def Line (line : Bytes) : Prop := 13 ∉ line ∧ line.length ≤ 4096

instance (line : Bytes) : Decidable (Line line) :=
  inferInstanceAs (Decidable (13 ∉ line ∧ line.length ≤ 4096))

/-- The line is a number, in any spelling. -/
def Numbers (line : Bytes) (n : Int) : Prop :=
  Line line ∧ ∃ value, parseI64 line = some value ∧ value.val = n

mutual

/-- The bytes are taken for the reply. -/
def Spells (wire : Bytes) : Reply → Prop
  | .simple value => Line value ∧ wire = 43 :: (value ++ 13 :: 10 :: [])
  | .error value => Line value ∧ wire = 45 :: (value ++ 13 :: 10 :: [])
  | .integer value => ∃ line, Numbers line value.val ∧ wire = 58 :: (line ++ 13 :: 10 :: [])
  | .bulk none => ∃ line, Numbers line (-1) ∧ wire = 36 :: (line ++ 13 :: 10 :: [])
  | .bulk (some value) => value.length ≤ maxBulk ∧ ∃ line, Numbers line value.length ∧
      wire = 36 :: (line ++ 13 :: 10 :: (value ++ Reply.crlf))
  | .array values => values.length ≤ maxValues ∧ ∃ line body, Numbers line values.length ∧
      wire = 42 :: (line ++ 13 :: 10 :: body) ∧ SpellsAll body values

def SpellsAll (wire : Bytes) : List Reply → Prop
  | [] => wire = []
  | value :: values => ∃ first rest, wire = first ++ rest ∧ Spells first value ∧
      SpellsAll rest values

end

mutual

/-- The client can receive the reply. -/
def Legible : Reply → Prop
  | .simple value | .error value => Line value
  | .integer _ | .bulk none => True
  | .bulk (some value) => value.length ≤ maxBulk
  | .array values => values.length ≤ maxValues ∧ LegibleAll values

def LegibleAll : List Reply → Prop
  | [] => True
  | value :: values => Legible value ∧ LegibleAll values

end

theorem legibleAll_iff {values : List Reply} : LegibleAll values ↔ ∀ value ∈ values, Legible value := by
  induction values with
  | nil => simp [LegibleAll]
  | cons value values ih => simp [LegibleAll, ih]

mutual

theorem legible_of_spells {wire : Bytes} (reply : Reply) (h : Spells wire reply) : Legible reply := by
  cases reply with
  | simple value | error value => exact h.1
  | integer value => trivial
  | bulk value =>
      cases value with
      | none => trivial
      | some value => exact h.1
  | array values =>
      obtain ⟨hmost, line, body, -, -, hbody⟩ := h
      exact ⟨hmost, legibleAll_of_spells values hbody⟩

theorem legibleAll_of_spells {wire : Bytes} (values : List Reply) (h : SpellsAll wire values) :
    LegibleAll values := by
  cases values with
  | nil => trivial
  | cons value values =>
      obtain ⟨first, rest, -, hfirst, hrest⟩ := h
      exact ⟨legible_of_spells value hfirst, legibleAll_of_spells values hrest⟩

end

/-! ### Encodings are in the grammar -/

theorem line_toBytes (value : I64) : Line value.toBytes :=
  ⟨Reply.return_notMem_ofInt _, (length_toBytes_le value).trans (by decide)⟩

theorem numbers_toBytes (value : I64) : Numbers value.toBytes value.val :=
  ⟨line_toBytes value, value, parseI64_toBytes value, rfl⟩

theorem numbers_ofNat {n : Nat} (hn : n ≤ maxBulk) : Numbers (Decimal.ofNat n) n := by
  have hmax : (n : Int) ≤ 64 * 1024 * 1024 := Int.ofNat_le.mpr hn
  have hnumbers := numbers_toBytes ⟨n, by omega, by omega⟩
  have hpos : ¬ (n : Int) < 0 := by omega
  rwa [I64.toBytes, Decimal.ofInt, if_neg hpos, Int.natAbs_natCast] at hnumbers

mutual

theorem spells_wire (reply : Reply) (h : Legible reply) : Spells reply.wire reply := by
  rw [Reply.wire_eq]
  cases reply with
  | simple value | error value => exact ⟨h, rfl⟩
  | integer value => exact ⟨_, numbers_toBytes value, rfl⟩
  | bulk value =>
      cases value with
      | none => exact ⟨_, numbers_toBytes ⟨-1, by decide, by decide⟩, rfl⟩
      | some value => exact ⟨h, _, numbers_ofNat h, rfl⟩
  | array values =>
      obtain ⟨hmost, hvalues⟩ := h
      exact ⟨hmost, _, _, numbers_ofNat (hmost.trans (by decide)), rfl,
        spellsAll_wire values hvalues⟩

theorem spellsAll_wire (values : List Reply) (h : LegibleAll values) :
    SpellsAll (values.flatMap Reply.wire) values := by
  cases values with
  | nil => exact rfl
  | cons value values =>
      exact ⟨_, _, List.flatMap_cons, spells_wire value h.1, spellsAll_wire values h.2⟩

end

/-! ### Headers -/

theorem readU8_ok {stream rest : Bytes} {byte : UInt8} :
    readU8 stream = .ok (byte, rest) ↔ stream = byte :: rest := by
  cases stream with
  | nil => simp [readU8]
  | cons first stream => simp [readU8]

theorem readExact_ok {count : Nat} {stream taken rest : Bytes} :
    readExact count stream = .ok (taken, rest) ↔ stream = taken ++ rest ∧ taken.length = count := by
  unfold readExact
  constructor
  · intro hread
    split at hread
    · cases hread
    · cases hread
      exact ⟨(List.take_append_drop _ _).symm, by rw [List.length_take]; omega⟩
  · rintro ⟨rfl, rfl⟩
    rw [if_neg (by simp), List.take_left, List.drop_left]

theorem readLine_ok {line stream whole rest : Bytes} :
    readLine line stream = .ok (whole, rest) ↔ ∃ more, whole = line ++ more ∧
      stream = more ++ 13 :: 10 :: rest ∧ 13 ∉ more ∧ (more = [] ∨ whole.length ≤ 4096) := by
  induction stream generalizing line with
  | nil => simp [readLine]
  | cons byte stream ih =>
      rw [readLine]
      by_cases hend : byte = 13
      · subst hend
        rw [if_pos rfl]
        constructor
        · intro hread
          obtain ⟨⟨ending, after⟩, hbyte, hrest⟩ := bind_eq_ok.mp hread
          obtain rfl := readU8_ok.mp hbyte
          dsimp only at hrest
          split at hrest
          · cases hrest
          · next hending =>
              cases hrest
              obtain rfl := not_not.mp hending
              exact ⟨[], (List.append_nil _).symm, rfl, List.not_mem_nil, .inl rfl⟩
        · rintro ⟨more, rfl, hstream, hmore, -⟩
          cases more with
          | nil =>
              obtain ⟨-, rfl⟩ := List.cons.inj hstream
              rw [List.append_nil]
              rfl
          | cons first more =>
              obtain ⟨rfl, -⟩ := List.cons.inj hstream
              exact absurd List.mem_cons_self hmore
      · rw [if_neg hend]
        by_cases hlong : 4096 ≤ line.length
        · rw [if_pos hlong]
          constructor
          · intro hread
            cases hread
          · rintro ⟨more, rfl, hstream, -, hmost⟩
            cases more with
            | nil => exact absurd (List.cons.inj hstream).1 hend
            | cons first more =>
                have hshort := hmost.resolve_left (List.cons_ne_nil _ _)
                rw [List.length_append, List.length_cons] at hshort
                omega
        · rw [if_neg hlong, ih]
          constructor
          · rintro ⟨more, rfl, rfl, hmore, hmost⟩
            refine ⟨byte :: more, by simp, rfl, ?_, .inr ?_⟩
            · exact List.not_mem_cons_of_ne_of_not_mem (fun h => hend h.symm) hmore
            · rcases hmost with rfl | hmost
              · rw [List.append_nil, List.length_append, List.length_singleton]
                omega
              · exact hmost
          · rintro ⟨more, rfl, hstream, hmore, hmost⟩
            cases more with
            | nil => exact absurd (List.cons.inj hstream).1 hend
            | cons first more =>
                obtain ⟨rfl, rfl⟩ := List.cons.inj hstream
                refine ⟨more, by simp, rfl, fun h => hmore ?_, ?_⟩
                · exact List.mem_cons_of_mem _ h
                · exact .inr (hmost.resolve_left (List.cons_ne_nil _ _))

theorem readHeader_ok {stream line rest : Bytes} :
    readLine [] stream = .ok (line, rest) ↔ stream = line ++ 13 :: 10 :: rest ∧ Line line := by
  rw [readLine_ok]
  constructor
  · rintro ⟨more, rfl, rfl, hmore, rfl | hmost⟩
    · exact ⟨rfl, hmore, Nat.zero_le _⟩
    · exact ⟨rfl, hmore, hmost⟩
  · rintro ⟨rfl, hline, hmost⟩
    exact ⟨line, rfl, rfl, hline, .inr hmost⟩

theorem number_ok {line : Bytes} {value : I64} :
    number line = .ok value ↔ parseI64 line = some value := by
  unfold number
  cases parseI64 line <;> simp

/-! ### Bodies -/

variable {read : Bytes → Except Failure (Reply × Bytes)}

theorem readWith_ok {stream rest : Bytes} {reply : Reply} :
    readWith read stream = .ok (reply, rest) ↔ ∃ tag line after,
      stream = tag :: (line ++ 13 :: 10 :: after) ∧ Line line ∧
        readBody read tag line after = .ok (reply, rest) := by
  constructor
  · intro hread
    obtain ⟨⟨tag, behind⟩, htag, hread⟩ := bind_eq_ok.mp hread
    obtain ⟨⟨line, after⟩, hheader, hbody⟩ := bind_eq_ok.mp hread
    obtain rfl := readU8_ok.mp htag
    obtain ⟨rfl, hline⟩ := readHeader_ok.mp hheader
    exact ⟨tag, line, after, rfl, hline, hbody⟩
  · rintro ⟨tag, line, after, rfl, hline, hbody⟩
    exact bind_eq_ok.mpr ⟨(tag, _), rfl, bind_eq_ok.mpr ⟨(line, after),
      readHeader_ok.mpr ⟨rfl, hline⟩, hbody⟩⟩

theorem readBulk_ok {length : Int} {stream rest : Bytes} {reply : Reply} :
    readBulk length stream = .ok (reply, rest) ↔
      length = -1 ∧ reply = .bulk none ∧ stream = rest ∨
        ∃ payload, reply = .bulk (some payload) ∧ length = payload.length ∧
          payload.length ≤ maxBulk ∧ stream = payload ++ Reply.crlf ++ rest := by
  unfold readBulk
  constructor
  · intro hread
    split at hread
    · cases hread
      exact .inl ⟨‹_›, rfl, rfl⟩
    · split at hread
      · cases hread
      · next hrange =>
          obtain ⟨⟨payload, behind⟩, hpayload, hbehind⟩ := bind_eq_ok.mp hread
          obtain ⟨⟨ending, after⟩, hending, hreply⟩ := bind_eq_ok.mp hbehind
          obtain ⟨rfl, hlength⟩ := readExact_ok.mp hpayload
          obtain ⟨rfl, -⟩ := readExact_ok.mp hending
          dsimp only at hreply
          split at hreply
          · cases hreply
          · next hcrlf =>
              cases hreply
              obtain rfl := not_not.mp hcrlf
              refine .inr ⟨payload, rfl, by omega, ?_, (List.append_assoc _ _ _).symm⟩
              unfold maxBulk
              omega
  · rintro (⟨rfl, rfl, rfl⟩ | ⟨payload, rfl, rfl, hmost, rfl⟩)
    · rfl
    · unfold maxBulk at hmost
      rw [if_neg (by omega), if_neg (by omega), Int.toNat_natCast]
      refine bind_eq_ok.mpr ⟨(payload, Reply.crlf ++ rest), readExact_ok.mpr ⟨?_, rfl⟩, ?_⟩
      · exact List.append_assoc _ _ _
      · exact bind_eq_ok.mpr ⟨(Reply.crlf, rest), readExact_ok.mpr ⟨rfl, rfl⟩, if_neg (not_not.mpr rfl)⟩

theorem readArray_ok {count : Int} {stream rest : Bytes} {reply : Reply} :
    readArray read count stream = .ok (reply, rest) ↔ ∃ values, reply = .array values ∧
      0 ≤ count ∧ count ≤ maxValues ∧ readReplies read count.toNat stream = .ok (values, rest) := by
  unfold readArray maxValues
  constructor
  · intro hread
    split at hread
    · cases hread
    · obtain ⟨⟨values, after⟩, hvalues, hread⟩ := bind_eq_ok.mp hread
      cases hread
      exact ⟨values, rfl, by omega, by omega, hvalues⟩
  · rintro ⟨values, rfl, hlow, hhigh, hvalues⟩
    rw [if_neg (by omega)]
    exact bind_eq_ok.mpr ⟨(values, rest), hvalues, rfl⟩

theorem readReplies_cons {count : Nat} {stream rest : Bytes} {replies : List Reply} :
    readReplies read (count + 1) stream = .ok (replies, rest) ↔ ∃ value values after,
      replies = value :: values ∧ read stream = .ok (value, after) ∧
        readReplies read count after = .ok (values, rest) := by
  constructor
  · intro hread
    obtain ⟨⟨value, after⟩, hvalue, hread⟩ := bind_eq_ok.mp hread
    obtain ⟨⟨values, behind⟩, hvalues, hread⟩ := bind_eq_ok.mp hread
    cases hread
    exact ⟨value, values, after, rfl, hvalue, hvalues⟩
  · rintro ⟨value, values, after, rfl, hvalue, hvalues⟩
    exact bind_eq_ok.mpr ⟨(value, after), hvalue, bind_eq_ok.mpr ⟨(values, rest), hvalues, rfl⟩⟩

/-! ### Reading is the grammar -/

theorem spellsAll_of_readReplies
    (hread : ∀ {stream reply rest}, read stream = .ok (reply, rest) →
      ∃ taken, stream = taken ++ rest ∧ Spells taken reply)
    {count : Nat} {stream rest : Bytes} {replies : List Reply}
    (h : readReplies read count stream = .ok (replies, rest)) :
    replies.length = count ∧ ∃ taken, stream = taken ++ rest ∧ SpellsAll taken replies := by
  induction count generalizing stream replies with
  | zero =>
      cases h
      exact ⟨rfl, [], rfl, rfl⟩
  | succ count ih =>
      obtain ⟨value, values, after, rfl, hvalue, hvalues⟩ := readReplies_cons.mp h
      obtain ⟨first, rfl, hfirst⟩ := hread hvalue
      obtain ⟨hlength, others, rfl, hothers⟩ := ih hvalues
      exact ⟨congrArg Nat.succ hlength, first ++ others, (List.append_assoc _ _ _).symm, first, others,
        rfl, hfirst, hothers⟩

theorem spells_of_readBody
    (hread : ∀ {stream reply rest}, read stream = .ok (reply, rest) →
      ∃ taken, stream = taken ++ rest ∧ Spells taken reply)
    {tag : UInt8} {line after rest : Bytes} {reply : Reply} (hline : Line line)
    (hbody : readBody read tag line after = .ok (reply, rest)) :
    ∃ taken, tag :: (line ++ 13 :: 10 :: after) = taken ++ rest ∧ Spells taken reply := by
  unfold readBody at hbody
  split at hbody
  · next htag =>
      cases hbody
      exact ⟨_, by rw [htag]; simp, hline, rfl⟩
  · split at hbody
    · next htag =>
        cases hbody
        exact ⟨_, by rw [htag]; simp, hline, rfl⟩
    · split at hbody
      · next htag =>
          obtain ⟨value, hvalue, hreply⟩ := bind_eq_ok.mp hbody
          cases hreply
          exact ⟨_, by rw [htag]; simp, line, ⟨hline, value, number_ok.mp hvalue, rfl⟩, rfl⟩
      · split at hbody
        · next htag =>
            obtain ⟨length, hlength, hbulk⟩ := bind_eq_ok.mp hbody
            rcases readBulk_ok.mp hbulk with ⟨hminus, rfl, rfl⟩ | ⟨payload, rfl, hcount, hmost, rfl⟩
            · exact ⟨_, by rw [htag]; simp, line,
                ⟨hline, length, number_ok.mp hlength, hminus⟩, rfl⟩
            · exact ⟨_, by rw [htag]; simp, hmost, line,
                ⟨hline, length, number_ok.mp hlength, hcount⟩, rfl⟩
        · split at hbody
          · next htag =>
              obtain ⟨count, hcount, harray⟩ := bind_eq_ok.mp hbody
              obtain ⟨values, rfl, hlow, hhigh, hvalues⟩ := readArray_ok.mp harray
              obtain ⟨hlength, body, rfl, hspells⟩ := spellsAll_of_readReplies hread hvalues
              refine ⟨42 :: (line ++ 13 :: 10 :: body), by rw [htag]; simp, by omega, line, body,
                ⟨hline, count, number_ok.mp hcount, by omega⟩, rfl, hspells⟩
          · cases hbody

theorem spells_of_readNested {depth : Nat} {stream rest : Bytes} {reply : Reply}
    (hread : readNested depth stream = .ok (reply, rest)) :
    ∃ taken, stream = taken ++ rest ∧ Spells taken reply := by
  induction depth generalizing stream reply rest with
  | zero => cases hread
  | succ depth ih =>
      obtain ⟨tag, line, after, rfl, hline, hbody⟩ := readWith_ok.mp hread
      exact spells_of_readBody (fun h => ih h) hline hbody

theorem readReplies_of_spellsAll {values : List Reply} {taken : Bytes}
    (hread : ∀ value ∈ values, ∀ first, first.length ≤ taken.length → Spells first value →
      ∀ rest, read (first ++ rest) = .ok (value, rest))
    (hspells : SpellsAll taken values) (rest : Bytes) :
    readReplies read values.length (taken ++ rest) = .ok (values, rest) := by
  induction values generalizing taken with
  | nil =>
      obtain rfl : taken = [] := hspells
      rfl
  | cons value values ih =>
      obtain ⟨first, others, rfl, hfirst, hothers⟩ := hspells
      rw [List.length_append] at hread
      refine readReplies_cons.mpr ⟨value, values, others ++ rest, rfl, ?_, ?_⟩
      · rw [List.append_assoc]
        exact hread value List.mem_cons_self first (by omega) hfirst _
      · exact ih (fun other hother taken' htaken =>
          hread other (List.mem_cons_of_mem _ hother) taken' (by omega)) hothers

theorem readNested_of_spells {depth : Nat} {taken : Bytes} {reply : Reply}
    (hspells : Spells taken reply) (hdepth : taken.length ≤ depth) (rest : Bytes) :
    readNested depth (taken ++ rest) = .ok (reply, rest) := by
  induction depth generalizing taken reply rest with
  | zero =>
      obtain rfl := List.eq_nil_of_length_eq_zero (Nat.le_zero.mp hdepth)
      cases reply with
      | bulk value => cases value <;> simp [Spells] at hspells
      | _ => simp [Spells] at hspells
  | succ depth ih =>
      refine readWith_ok.mpr ?_
      cases reply with
      | simple value =>
          obtain ⟨hline, rfl⟩ := hspells
          exact ⟨43, value, rest, by simp, hline, rfl⟩
      | error value =>
          obtain ⟨hline, rfl⟩ := hspells
          exact ⟨45, value, rest, by simp, hline, rfl⟩
      | integer value =>
          obtain ⟨line, ⟨hline, parsed, hparse, hvalue⟩, rfl⟩ := hspells
          obtain rfl := I64.val_injective hvalue
          refine ⟨58, line, rest, by simp, hline, ?_⟩
          exact bind_eq_ok.mpr ⟨parsed, number_ok.mpr hparse, rfl⟩
      | bulk value =>
          cases value with
          | none =>
              obtain ⟨line, ⟨hline, length, hparse, hminus⟩, rfl⟩ := hspells
              refine ⟨36, line, rest, by simp, hline, ?_⟩
              exact bind_eq_ok.mpr ⟨length, number_ok.mpr hparse,
                readBulk_ok.mpr (.inl ⟨hminus, rfl, rfl⟩)⟩
          | some value =>
              obtain ⟨hmost, line, ⟨hline, length, hparse, hlength⟩, rfl⟩ := hspells
              refine ⟨36, line, value ++ Reply.crlf ++ rest, by simp, hline, ?_⟩
              exact bind_eq_ok.mpr ⟨length, number_ok.mpr hparse,
                readBulk_ok.mpr (.inr ⟨value, rfl, hlength, hmost, rfl⟩)⟩
      | array values =>
          obtain ⟨hmost, line, body, ⟨hline, count, hparse, hcount⟩, rfl, hbody⟩ := hspells
          have hbodies : body.length ≤ depth := by
            rw [List.length_cons, List.length_append, List.length_cons, List.length_cons] at hdepth
            omega
          have hvalues := readReplies_of_spellsAll
            (fun value _ first hfirst hspells => ih hspells (hfirst.trans hbodies)) hbody rest
          refine ⟨42, line, body ++ rest, by simp, hline, ?_⟩
          refine bind_eq_ok.mpr ⟨count, number_ok.mpr hparse,
            readArray_ok.mpr ⟨values, rfl, by omega, by omega, ?_⟩⟩
          rw [hcount, Int.toNat_natCast]
          exact hvalues

theorem readReply_ok {stream rest : Bytes} {reply : Reply} :
    readReply stream = .ok (reply, rest) ↔ ∃ taken, stream = taken ++ rest ∧ Spells taken reply := by
  refine ⟨spells_of_readNested, ?_⟩
  rintro ⟨taken, rfl, hspells⟩
  exact readNested_of_spells hspells (by simp) rest

/-- The replies the client can receive are those it reads back from their encoding, whatever stands
behind it; it accepts no others, and never takes the beginning of one reply for another. -/
theorem replies_read_back (reply : Reply) :
    (Legible reply ↔ ∀ rest, readReply (reply.encode [] ++ rest) = .ok (reply, rest)) ∧
      ∀ stream rest, readReply stream = .ok (reply, rest) →
        Legible reply ∧ ∀ more, readReply (stream ++ more) = .ok (reply, rest ++ more) := by
  have haccepted : ∀ stream rest, readReply stream = .ok (reply, rest) →
      Legible reply ∧ ∀ more, readReply (stream ++ more) = .ok (reply, rest ++ more) := by
    intro stream rest hread
    obtain ⟨taken, rfl, hspells⟩ := readReply_ok.mp hread
    refine ⟨legible_of_spells reply hspells, fun more => readReply_ok.mpr ?_⟩
    exact ⟨taken, List.append_assoc _ _ _, hspells⟩
  refine ⟨⟨fun hlegible rest => ?_, fun hread => ?_⟩, haccepted⟩
  · exact readReply_ok.mpr ⟨_, rfl, spells_wire reply hlegible⟩
  · exact (haccepted _ [] (hread [])).1

end Recall.Client
