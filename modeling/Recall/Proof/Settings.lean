import Recall.Settings

/-!
# Environment files are read back literally

A file written as assignments, comments and blank lines, with any whitespace and either line ending,
is read back as exactly those assignments, and a line that is neither makes the whole file fail.
-/

namespace Recall.Settings

/-! ### Files as they are written -/

inductive Quote where
  | single
  | double
  | bare
deriving DecidableEq

def Quote.write : Quote → Text → Text
  | .single, value => '\'' :: (value ++ ['\''])
  | .double, value => '"' :: (value ++ ['"'])
  | .bare, value => value

/-- A value without quotes has no whitespace at its ends and does not begin with a quote. -/
def Quote.Suits : Quote → Text → Prop
  | .single, _ | .double, _ => True
  | .bare, value =>
      (∀ c ∈ value.head?, isWhitespace c = false ∧ c ≠ '\'' ∧ c ≠ '"') ∧
        ∀ c ∈ value.getLast?, isWhitespace c = false

/-- A line without its ending. The four texts of an assignment are the whitespace around its name and
around its value. -/
inductive FileLine where
  | blank (space : Text)
  | comment (text : Text)
  | assignment (name value : Text) (quote : Quote) (indent gap lead trail : Text)

namespace FileLine

def content : FileLine → Text
  | .blank space => space
  | .comment text => '#' :: text
  | .assignment name value quote indent gap lead trail =>
      indent ++ name ++ gap ++ '=' :: (lead ++ quote.write value ++ trail)

/-- The assignment a line makes. -/
def entry : FileLine → Option (Text × Text)
  | .blank _ | .comment _ => none
  | .assignment name value .. => some (name, value)

def Spaced : FileLine → Prop
  | .blank space => ∀ c ∈ space, isWhitespace c = true
  | .comment _ => True
  | .assignment name value quote indent gap lead trail =>
      name ∈ envNames ∧ quote.Suits value ∧ (∀ c ∈ indent, isWhitespace c = true) ∧
        (∀ c ∈ gap, isWhitespace c = true) ∧ (∀ c ∈ lead, isWhitespace c = true) ∧
        ∀ c ∈ trail, isWhitespace c = true

structure WellFormed (line : FileLine) : Prop where
  spaced : line.Spaced
  newline : '\n' ∉ line.content
  nul : '\x00' ∉ line.content
  length : utf8Len line.content ≤ 2048

end FileLine

/-- A line with what its ending has in front of the newline. -/
def FileLine.ended (line : FileLine × Bool) : Text :=
  line.1.content ++ if line.2 then ['\r'] else []

/-- Lines with their endings, `true` for a carriage return and a newline, `false` for a newline
alone. Behind the last newline there may be a line without an ending, blank if there is nothing. -/
structure EnvFile where
  bom : Bool
  lines : List (FileLine × Bool)
  last : FileLine

namespace EnvFile

def render (file : EnvFile) : Text :=
  (if file.bom then [byteOrderMark] else []) ++
    ((file.lines.flatMap fun line => FileLine.ended line ++ ['\n']) ++ file.last.content)

def all (file : EnvFile) : List FileLine := file.lines.map Prod.fst ++ [file.last]

def assignments (file : EnvFile) : List (Text × Text) := file.all.filterMap FileLine.entry

end EnvFile

/-- A line that is neither blank nor a comment. -/
def Significant (line : Text) : Prop :=
  ∃ space c rest, line = space ++ c :: rest ∧ (∀ s ∈ space, isWhitespace s = true) ∧
    isWhitespace c = false ∧ c ≠ '#'

/-- The line has an equals sign, and this name in front of the first one. -/
def Names (line name : Text) : Prop :=
  Significant line ∧ ∃ key rest, line = key ++ '=' :: rest ∧ '=' ∉ key ∧ trim key = name

/-! ### Characters -/

theorem equals_not_whitespace : isWhitespace '=' = false := by decide

theorem carriageReturn_whitespace : ∀ c ∈ ['\r'], isWhitespace c = true :=
  List.all_eq_true.mp (by decide)

theorem envNames_plain : ∀ name ∈ envNames, name ≠ [] ∧
    ∀ c ∈ name, isWhitespace c = false ∧ c ≠ '#' ∧ c ≠ '=' ∧ c ≠ byteOrderMark := by
  have hplain : envNames.all (fun name => name != [] && name.all fun c =>
      !isWhitespace c && c != '#' && c != '=' && c != byteOrderMark) = true := by
    decide +kernel
  intro name hname
  have hall := List.all_eq_true.mp hplain name hname
  simp only [Bool.and_eq_true, List.all_eq_true, bne_iff_ne, Bool.not_eq_true'] at hall
  refine ⟨hall.1, fun c hc => ?_⟩
  obtain ⟨⟨⟨hspace, hhash⟩, hequals⟩, hmark⟩ := hall.2 c hc
  exact ⟨hspace, hhash, hequals, hmark⟩

theorem strip_cases (line : Text) :
    stripCarriageReturn line = line ∨ line = stripCarriageReturn line ++ ['\r'] := by
  unfold stripCarriageReturn
  split
  · next hlast => exact .inr (List.dropLast_append_getLast? _ hlast).symm
  · exact .inl rfl

theorem trim_strip (line : Text) : trim (stripCarriageReturn line) = trim line := by
  rcases strip_cases line with hsame | hstrip
  · rw [hsame]
  · rw [trim, trim, ← Trimming.trim_append_right carriageReturn_whitespace, ← hstrip]

/-! ### One line -/

theorem trim_of_significant {line : Text} (hline : Significant line) :
    trim line ≠ [] ∧ (trim line).head? ≠ some '#' := by
  obtain ⟨space, c, rest, rfl, hspace, hc, hhash⟩ := hline
  rw [trim, Trimming.trim_append_left hspace, ← List.nil_append (c :: rest),
    Trimming.trim_append_cons hc]
  exact ⟨List.cons_ne_nil _ _, fun hhead => hhash (Option.some.inj hhead)⟩

theorem parseTrimmed_of_significant {key rest : Text} (hline : Significant (key ++ '=' :: rest))
    (hkey : '=' ∉ key) (invalid : SettingsError) :
    parseTrimmed invalid (trim (key ++ '=' :: rest)) =
      if validateName (trim key) then
        match unquote (trim rest) with
        | none => .error invalid
        | some value => .ok (some (trim key, value))
      else .error invalid := by
  obtain ⟨hne, hhash⟩ := trim_of_significant hline
  have hkeyTrim : trim (key.dropWhile isWhitespace) = trim key := Trimming.trim_dropWhile key
  have hrestTrim : trim (rest.rdropWhile isWhitespace) = trim rest := Trimming.trim_rdropWhile rest
  rw [parseTrimmed, if_neg (not_or.mpr ⟨hne, hhash⟩), trim,
    Trimming.splitOnce_trim equals_not_whitespace hkey]
  exact hkeyTrim ▸ hrestTrim ▸ rfl

theorem parseTrimmed_without_equals {line : Text} (hline : Significant line) (hequals : '=' ∉ line)
    (invalid : SettingsError) : parseTrimmed invalid (trim line) = .error invalid := by
  obtain ⟨hne, hhash⟩ := trim_of_significant hline
  have htrim : '=' ∉ trim line := fun hmem => hequals (Trimming.mem_of_mem_trim hmem)
  rw [parseTrimmed, if_neg (not_or.mpr ⟨hne, hhash⟩), Trimming.splitOnce_eq_none htrim]

theorem unquote_write {quote : Quote} {value : Text} (hsuits : quote.Suits value) :
    unquote (quote.write value) = some value := by
  have hquoted : ∀ c : Char, c = '\'' ∨ c = '"' → unquote (c :: (value ++ [c])) = some value := by
    intro c hc
    have hlength : ¬ utf8Len (c :: (value ++ [c])) < 2 := by
      have hpos := c.utf8Size_pos
      simp only [utf8Len, List.map_cons, List.map_append, List.map_nil, List.sum_cons,
        List.sum_append, List.sum_nil]
      omega
    have hlast : (c :: (value ++ [c])).getLast? = some c := by
      rw [← List.cons_append, List.getLast?_concat]
    simp only [unquote, List.head?_cons, Option.some.injEq, hc, ↓reduceIte, hlength, hlast, ne_eq,
      not_true_eq_false, or_self, List.drop_succ_cons, List.drop_zero, List.dropLast_concat]
  cases quote with
  | single => exact hquoted '\'' (.inl rfl)
  | double => exact hquoted '"' (.inr rfl)
  | bare =>
      rw [Quote.write, unquote, if_neg]
      rintro (hhead | hhead)
      · exact (hsuits.1 _ hhead).2.1 rfl
      · exact (hsuits.1 _ hhead).2.2 rfl

theorem trim_write {quote : Quote} {value : Text} (hsuits : quote.Suits value) :
    trim (quote.write value) = quote.write value := by
  have hquoted : ∀ c : Char, isWhitespace c = false →
      trim (c :: (value ++ [c])) = c :: (value ++ [c]) := by
    intro c hc
    refine Trimming.trim_eq_self ?_ ?_
    · rintro _ ⟨⟩
      exact hc
    · intro d hd
      rw [← List.cons_append, List.getLast?_concat] at hd
      cases hd
      exact hc
  cases quote with
  | single => exact hquoted '\'' (by decide)
  | double => exact hquoted '"' (by decide)
  | bare => exact Trimming.trim_eq_self (fun c hc => (hsuits.1 c hc).1) hsuits.2

namespace FileLine

theorem parseTrimmed_content {line : FileLine} (hspaced : line.Spaced) (invalid : SettingsError) :
    parseTrimmed invalid (trim line.content) = .ok line.entry := by
  cases line with
  | blank space =>
      rw [content, trim, Trimming.trim_of_forall hspaced]
      rfl
  | comment text =>
      rw [content, trim, ← List.nil_append ('#' :: text), Trimming.trim_append_cons (by decide)]
      rfl
  | assignment name value quote indent gap lead trail =>
      obtain ⟨hname, hsuits, hindent, hgap, hlead, htrail⟩ := hspaced
      obtain ⟨hne, hplain⟩ := envNames_plain name hname
      have hnameTrim : trim name = name := by
        refine Trimming.trim_eq_self (fun c hc => ?_) fun c hc => ?_
        · exact (hplain c (List.mem_of_mem_head? hc)).1
        · exact (hplain c (List.mem_of_mem_getLast? hc)).1
      have hkeyTrim : trim (indent ++ name ++ gap) = name := by
        rw [trim, Trimming.trim_append_right hgap, Trimming.trim_append_left hindent]
        exact hnameTrim
      have hvalueTrim : trim (lead ++ quote.write value ++ trail) = quote.write value := by
        rw [trim, Trimming.trim_append_right htrail, Trimming.trim_append_left hlead]
        exact trim_write hsuits
      have hsignificant : Significant (indent ++ name ++ gap ++
          '=' :: (lead ++ quote.write value ++ trail)) := by
        obtain ⟨c, rest, rfl⟩ := List.exists_cons_of_ne_nil hne
        obtain ⟨hc, hhash, -⟩ := hplain c List.mem_cons_self
        exact ⟨indent, c, rest ++ gap ++ '=' :: (lead ++ quote.write value ++ trail), by simp,
          hindent, hc, hhash⟩
      have hkey : '=' ∉ indent ++ name ++ gap := by
        intro hmem
        simp only [List.mem_append] at hmem
        rcases hmem with (hmem | hmem) | hmem
        · exact absurd (hindent _ hmem) (by decide)
        · exact (hplain _ hmem).2.2.1 rfl
        · exact absurd (hgap _ hmem) (by decide)
      have hvalid : validateName name = true := List.contains_iff_mem.mpr hname
      rw [content, parseTrimmed_of_significant hsignificant hkey, hkeyTrim, hvalueTrim,
        unquote_write hsuits, if_pos hvalid]
      rfl

theorem parseLine_eq {line : FileLine} (hwf : line.WellFormed) {text : Text}
    (htrim : trim text = trim line.content) (hlength : utf8Len text ≤ utf8Len line.content)
    (hsubset : ∀ c ∈ text, c ∈ line.content) (index : Nat) :
    parseLine index text = .ok line.entry := by
  rw [parseLine, if_neg, htrim]
  · exact parseTrimmed_content hwf.spaced _
  · rintro (hlong | hnul)
    · have hbound := hwf.length
      unfold maxEnvLineBytes at hlong
      omega
    · exact hwf.nul (hsubset _ hnul)

theorem strip_ended (line : FileLine × Bool) :
    trim (stripCarriageReturn (ended line)) = trim line.1.content ∧
      utf8Len (stripCarriageReturn (ended line)) ≤ utf8Len line.1.content ∧
      ∀ c ∈ stripCarriageReturn (ended line), c ∈ line.1.content := by
  obtain ⟨line, crlf⟩ := line
  cases crlf with
  | true =>
      have hstrip : stripCarriageReturn (ended (line, true)) = line.content := by
        simp [ended, stripCarriageReturn]
      rw [hstrip]
      exact ⟨rfl, le_refl _, fun _ hc => hc⟩
  | false =>
      have hended : ended (line, false) = line.content := List.append_nil _
      rw [hended]
      refine ⟨trim_strip _, ?_⟩
      rcases strip_cases line.content with hsame | hstrip
      · rw [hsame]
        exact ⟨le_refl _, fun _ hc => hc⟩
      · refine ⟨?_, fun c hc => hstrip ▸ List.mem_append_left _ hc⟩
        have hsum := congrArg utf8Len hstrip
        simp only [utf8Len, List.map_append, List.sum_append] at hsum ⊢
        omega

theorem newline_notMem_ended {line : FileLine × Bool} (hwf : line.1.WellFormed) :
    '\n' ∉ ended line := by
  intro hmem
  rcases List.mem_append.mp hmem with hcontent | hreturn
  · exact hwf.newline hcontent
  · split at hreturn
    · exact absurd hreturn (by decide)
    · cases hreturn

theorem head_append {first second : Text} (hfirst : first.head? ≠ some byteOrderMark)
    (hsecond : second.head? ≠ some byteOrderMark) :
    (first ++ second).head? ≠ some byteOrderMark := by
  cases first with
  | nil => exact hsecond
  | cons c first => exact hfirst

theorem head_space {space : Text} (hspace : ∀ c ∈ space, isWhitespace c = true) :
    space.head? ≠ some byteOrderMark := by
  intro hhead
  have hmark := hspace _ (List.mem_of_mem_head? hhead)
  exact absurd hmark (by decide)

/-- No line begins with a byte-order mark. -/
theorem head_content {line : FileLine} (hspaced : line.Spaced) :
    line.content.head? ≠ some byteOrderMark := by
  cases line with
  | blank space => exact head_space hspaced
  | comment text => exact fun hhead => absurd (Option.some.inj hhead) (by decide)
  | assignment name value quote indent gap lead trail =>
      obtain ⟨hname, -, hindent, -⟩ := hspaced
      obtain ⟨hne, hplain⟩ := envNames_plain name hname
      obtain ⟨c, rest, rfl⟩ := List.exists_cons_of_ne_nil hne
      rw [content, List.append_assoc, List.append_assoc]
      refine head_append (head_space hindent) fun hhead => ?_
      exact (hplain c List.mem_cons_self).2.2.2 (Option.some.inj hhead)

end FileLine

/-! ### Whole files -/

theorem linesOf_append (terminated : List Text) {rest : List Text} (hrest : rest ≠ []) :
    linesOf (terminated ++ rest) = terminated.map stripCarriageReturn ++ linesOf rest := by
  induction terminated with
  | nil => rfl
  | cons line terminated ih =>
      obtain ⟨next, more, hnext⟩ := List.exists_cons_of_ne_nil (List.append_ne_nil_of_right_ne_nil
        terminated hrest)
      rw [List.cons_append, List.map_cons, List.cons_append, ← ih, hnext]
      rfl

theorem splitOn_ended {lines : List (FileLine × Bool)} (hlines : ∀ line ∈ lines, line.1.WellFormed)
    {last : Text} (hlast : '\n' ∉ last) :
    ((lines.flatMap fun line => FileLine.ended line ++ ['\n']) ++ last).splitOn '\n' =
      lines.map FileLine.ended ++ [last] := by
  induction lines with
  | nil => exact List.splitOn_eq_singleton hlast
  | cons line lines ih =>
      rw [List.flatMap_cons, List.append_assoc, List.append_assoc, List.singleton_append,
        List.splitOn_append_cons_self_of_not_mem (FileLine.newline_notMem_ended
          (hlines line List.mem_cons_self)),
        ih fun other hother => hlines other (List.mem_cons_of_mem _ hother)]
      rfl

theorem parseFrom_entry {index : Nat} {values : Values} {line : Text} {lines : List Text}
    {entry : Option (Text × Text)} (hline : parseLine index line = .ok entry)
    (hfresh : ∀ assigned ∈ entry, assigned.1 ∉ values) :
    parseFrom index values (line :: lines) =
      parseFrom (index + 1) (entry.elim values fun assigned => values.insert assigned.1 assigned.2)
        lines := by
  rw [parseFrom, hline]
  cases entry with
  | none => rfl
  | some assigned => exact if_neg (hfresh assigned rfl)

theorem lookup_entry {values : Values} {entry : Option (Text × Text)}
    (hfresh : ∀ assigned ∈ entry, assigned.1 ∉ values) (name value : Text) :
    (entry.elim values fun assigned => values.insert assigned.1 assigned.2).lookup name =
        some value ↔ entry = some (name, value) ∨ values.lookup name = some value := by
  cases entry with
  | none => simp
  | some assigned =>
      obtain ⟨key, stored⟩ := assigned
      have hnone : values.lookup key = none := Finmap.lookup_eq_none.mpr (hfresh _ rfl)
      by_cases hname : name = key
      · subst hname
        simp [hnone]
      · simp [Finmap.lookup_insert_of_ne _ hname, Ne.symm hname]

theorem dropWhile_mark {body : Text} (hbody : body.head? ≠ some byteOrderMark) (bom : Bool) :
    ((if bom then [byteOrderMark] else []) ++ body).dropWhile (· = byteOrderMark) = body := by
  have hsame : body.dropWhile (· = byteOrderMark) = body := by
    cases body with
    | nil => rfl
    | cons c body =>
        rw [List.dropWhile_cons, if_neg]
        intro hmark
        exact hbody (congrArg some (of_decide_eq_true hmark))
  cases bom with
  | false => exact hsame
  | true =>
      rw [if_pos rfl, List.singleton_append, List.dropWhile_cons, if_pos (by simp)]
      exact hsame

/-- The text is read as this entry, wherever it stands. -/
def Reads (text : Text) (entry : Option (Text × Text)) : Prop :=
  ∀ index, parseLine index text = .ok entry

theorem parseFrom_reads {texts : List Text} {entries : List (Option (Text × Text))}
    (hreads : List.Forall₂ Reads texts entries) {index : Nat} {values : Values}
    (hnodup : ((entries.filterMap id).map Prod.fst).Nodup)
    (hfresh : ∀ assigned, some assigned ∈ entries → assigned.1 ∉ values) :
    ∃ result, parseFrom index values texts = .ok result ∧
      ∀ name value, result.lookup name = some value ↔
        some (name, value) ∈ entries ∨ values.lookup name = some value := by
  induction hreads generalizing index values with
  | nil => exact ⟨values, rfl, fun name value => by simp⟩
  | @cons text entry texts entries hread hreads ih =>
      have hentry : ∀ assigned ∈ entry, assigned.1 ∉ values := by
        intro assigned hassigned
        exact hfresh assigned (hassigned ▸ List.mem_cons_self)
      have hnodup' : ((entries.filterMap id).map Prod.fst).Nodup := by
        cases entry with
        | none => exact hnodup
        | some assigned => exact (List.nodup_cons.mp hnodup).2
      have hfresh' : ∀ assigned, some assigned ∈ entries →
          assigned.1 ∉ entry.elim values fun first => values.insert first.1 first.2 := by
        intro assigned hassigned hmem
        cases entry with
        | none => exact hfresh assigned (List.mem_cons_of_mem _ hassigned) hmem
        | some first =>
            have hnotMem : first.1 ∉ (entries.filterMap id).map Prod.fst :=
              (List.nodup_cons.mp hnodup).1
            rcases Finmap.mem_insert.mp hmem with hsame | hold
            · rw [← hsame] at hnotMem
              exact hnotMem (List.mem_map_of_mem (List.mem_filterMap.mpr ⟨_, hassigned, rfl⟩))
            · exact hfresh assigned (List.mem_cons_of_mem _ hassigned) hold
      obtain ⟨result, hresult, hlookup⟩ := @ih (index + 1) _ hnodup' hfresh'
      refine ⟨result, by rw [parseFrom_entry (hread index) hentry, hresult], fun name value => ?_⟩
      rw [hlookup, lookup_entry hentry, List.mem_cons, eq_comm, or_assoc, or_left_comm]

namespace EnvFile

structure WellFormed (file : EnvFile) : Prop where
  lines : ∀ line ∈ file.all, line.WellFormed
  distinct : (file.assignments.map Prod.fst).Nodup

theorem entry_of_content_nil {line : FileLine} (hcontent : line.content = []) :
    line.entry = none := by
  cases line with
  | blank space => rfl
  | comment text => cases hcontent
  | assignment name value quote indent gap lead trail =>
      rw [FileLine.content] at hcontent
      exact absurd hcontent (List.append_ne_nil_of_right_ne_nil _ (List.cons_ne_nil _ _))

theorem reads_ended {line : FileLine × Bool} (hwf : line.1.WellFormed) :
    Reads (stripCarriageReturn (FileLine.ended line)) line.1.entry := by
  obtain ⟨htrim, hlength, hsubset⟩ := FileLine.strip_ended line
  exact FileLine.parseLine_eq hwf htrim hlength hsubset

/-- The lines of a written file, and what each is read as. -/
theorem reads_render {lines : List (FileLine × Bool)} {last : FileLine}
    (hlines : ∀ line ∈ lines, line.1.WellFormed) (hlast : last.WellFormed) :
    ∃ entries, List.Forall₂ Reads (linesOf (lines.map FileLine.ended ++ [last.content])) entries ∧
      entries.filterMap id = (lines.map Prod.fst ++ [last]).filterMap FileLine.entry := by
  have hterminated : List.Forall₂ Reads ((lines.map FileLine.ended).map stripCarriageReturn)
      (lines.map fun line => line.1.entry) := by
    rw [List.map_map, List.forall₂_map_left_iff, List.forall₂_map_right_iff, List.forall₂_same]
    exact fun line hline => reads_ended (hlines line hline)
  have hentries : (lines.map fun line => line.1.entry).filterMap id =
      (lines.map Prod.fst).filterMap FileLine.entry := by
    rw [List.filterMap_map, List.filterMap_map]
    rfl
  rw [linesOf_append _ (List.cons_ne_nil _ _), linesOf]
  by_cases hcontent : last.content = []
  · refine ⟨_, by rwa [if_pos hcontent, List.append_nil], ?_⟩
    rw [hentries, List.filterMap_append,
      List.filterMap_cons_none (entry_of_content_nil hcontent)]
    exact (List.append_nil _).symm
  · rw [if_neg hcontent]
    have hread : Reads last.content last.entry :=
      FileLine.parseLine_eq hlast rfl (le_refl _) fun _ hc => hc
    refine ⟨_, List.rel_append hterminated (.cons hread .nil), ?_⟩
    rw [List.filterMap_append, List.filterMap_append, hentries]
    rfl

theorem head_body {lines : List (FileLine × Bool)} {last : FileLine}
    (hlines : ∀ line ∈ lines, line.1.WellFormed) (hlast : last.WellFormed) :
    ((lines.flatMap fun line => FileLine.ended line ++ ['\n']) ++ last.content).head? ≠
      some byteOrderMark := by
  cases lines with
  | nil => exact FileLine.head_content hlast.spaced
  | cons line lines =>
      rw [List.flatMap_cons, FileLine.ended, List.append_assoc, List.append_assoc, List.append_assoc]
      refine FileLine.head_append
        (FileLine.head_content (hlines line List.mem_cons_self).spaced) ?_
      cases line.2 with
      | true => exact fun hhead => absurd (Option.some.inj hhead) (by decide)
      | false => exact fun hhead => absurd (Option.some.inj hhead) (by decide)

/-- Reading a file that was written gives back its assignments. -/
theorem parseValues_render {file : EnvFile} (hwf : file.WellFormed) :
    ∃ values, parseValues file.render = .ok values ∧
      ∀ name value, values.lookup name = some value ↔ (name, value) ∈ file.assignments := by
  obtain ⟨bom, lines, last⟩ := file
  have hlast : last.WellFormed := hwf.lines last (List.mem_append_right _ List.mem_cons_self)
  have hlines : ∀ line ∈ lines, line.1.WellFormed := by
    intro line hline
    exact hwf.lines line.1 (List.mem_append_left _ (List.mem_map_of_mem hline))
  obtain ⟨entries, hreads, hentries⟩ := reads_render hlines hlast
  have hassignments : entries.filterMap id = assignments ⟨bom, lines, last⟩ := hentries
  have hmem : ∀ assigned, some assigned ∈ entries ↔ assigned ∈ assignments ⟨bom, lines, last⟩ := by
    intro assigned
    rw [← hassignments, List.mem_filterMap]
    exact ⟨fun h => ⟨_, h, rfl⟩, fun ⟨entry, h, hsome⟩ => hsome ▸ h⟩
  obtain ⟨values, hvalues, hlookup⟩ := @parseFrom_reads _ _ hreads 0 ∅
    (hassignments ▸ hwf.distinct) fun _ _ => Finmap.notMem_empty
  refine ⟨values, ?_, fun name value => ?_⟩
  · rw [parseValues, render, dropWhile_mark (head_body hlines hlast), Settings.lines,
      splitOn_ended hlines hlast.newline, hvalues]
  · rw [hlookup, hmem]
    simp

end EnvFile

/-! ### Lines that make a file fail -/

theorem Significant.ne_nil {line : Text} (hline : Significant line) : line ≠ [] := by
  obtain ⟨space, c, rest, rfl, -⟩ := hline
  exact List.append_ne_nil_of_right_ne_nil _ (List.cons_ne_nil _ _)

theorem linesOf_head {piece : Text} (hpiece : piece ≠ []) (after : List Text) :
    ∃ text rest, linesOf (piece :: after) = text :: rest ∧ trim text = trim piece := by
  cases after with
  | nil => exact ⟨piece, [], if_neg hpiece, rfl⟩
  | cons next after => exact ⟨_, _, rfl, trim_strip piece⟩

theorem parseLine_error {line text : Text} (htrim : trim text = trim line)
    (hfails : ∀ invalid, parseTrimmed invalid (trim line) = .error invalid) (index : Nat) :
    ∃ failure, parseLine index text = .error failure := by
  rw [parseLine, htrim, hfails]
  split
  · exact ⟨_, rfl⟩
  · exact ⟨_, rfl⟩

theorem parseFrom_append (index : Nat) (values : Values) (first second : List Text) :
    parseFrom index values (first ++ second) =
      parseFrom index values first >>= fun values =>
        parseFrom (index + first.length) values second := by
  induction first generalizing index values with
  | nil => rfl
  | cons line first ih =>
      rw [List.cons_append, parseFrom, parseFrom]
      rcases parseLine index line with failure | _ | ⟨key, value⟩
      · rfl
      · simp only [bind, Except.bind]
        rw [ih, List.length_cons, Nat.add_right_comm, Nat.add_assoc]
        rfl
      · simp only [bind, Except.bind]
        split
        · rfl
        · rw [ih, List.length_cons, Nat.add_right_comm, Nat.add_assoc]
          rfl

theorem parseFrom_cons_ok {index : Nat} {values result : Values} {line : Text} {lines : List Text}
    (hparse : parseFrom index values (line :: lines) = .ok result) :
    ∃ entry, parseLine index line = .ok entry ∧ (∀ assigned ∈ entry, assigned.1 ∉ values) ∧
      parseFrom (index + 1) (entry.elim values fun assigned => values.insert assigned.1 assigned.2)
        lines = .ok result := by
  rw [parseFrom] at hparse
  obtain ⟨entry, hline, hrest⟩ := bind_eq_ok.mp hparse
  refine ⟨entry, hline, ?_⟩
  cases entry with
  | none => exact ⟨nofun, hrest⟩
  | some assigned =>
      simp only at hrest
      split at hrest
      · cases hrest
      · next hfresh =>
          refine ⟨?_, hrest⟩
          rintro _ ⟨⟩
          exact hfresh

/-- A name that was assigned stays assigned. -/
theorem parseFrom_keeps {index : Nat} {values result : Values} {lines : List Text}
    (hparse : parseFrom index values lines = .ok result) {key : Text} (hkey : key ∈ values) :
    key ∈ result := by
  induction lines generalizing index values with
  | nil =>
      cases hparse
      exact hkey
  | cons line lines ih =>
      obtain ⟨entry, -, -, hrest⟩ := parseFrom_cons_ok hparse
      refine ih hrest ?_
      cases entry with
      | none => exact hkey
      | some assigned => exact Finmap.mem_insert.mpr (.inr hkey)

theorem parseFrom_error_of_mem {lines : List Text} {line : Text} (hmem : line ∈ lines)
    (hfails : ∀ index, ∃ failure, parseLine index line = .error failure) (index : Nat)
    (values : Values) : ∃ failure, parseFrom index values lines = .error failure := by
  cases hparse : parseFrom index values lines with
  | error failure => exact ⟨failure, rfl⟩
  | ok result =>
      obtain ⟨before, after, rfl⟩ := List.append_of_mem hmem
      rw [parseFrom_append] at hparse
      obtain ⟨reached, -, hrest⟩ := bind_eq_ok.mp hparse
      obtain ⟨entry, hline, -⟩ := parseFrom_cons_ok hrest
      obtain ⟨failure, hfailure⟩ := hfails (index + before.length)
      rw [hfailure] at hline
      cases hline

theorem parseFrom_error_of_piece {pieces : List Text} {piece : Text} (hmem : piece ∈ pieces)
    (hsignificant : Significant piece)
    (hfails : ∀ invalid, parseTrimmed invalid (trim piece) = .error invalid) (index : Nat)
    (values : Values) : ∃ failure, parseFrom index values (linesOf pieces) = .error failure := by
  obtain ⟨before, after, rfl⟩ := List.append_of_mem hmem
  obtain ⟨text, rest, hlines, htrim⟩ := linesOf_head hsignificant.ne_nil after
  rw [linesOf_append _ (List.cons_ne_nil _ _), hlines]
  exact parseFrom_error_of_mem (List.mem_append_right _ List.mem_cons_self)
    (parseLine_error htrim hfails) index values

theorem Names.parseTrimmed_eq {line name : Text} (hnames : Names line name)
    (invalid : SettingsError) :
    parseTrimmed invalid (trim line) = .error invalid ∨
      ∃ value, parseTrimmed invalid (trim line) = .ok (some (name, value)) ∧ name ∈ envNames := by
  obtain ⟨hsignificant, key, rest, rfl, hkey, rfl⟩ := hnames
  rw [parseTrimmed_of_significant hsignificant hkey]
  split
  · next hvalid =>
      cases unquote (trim rest) with
      | none => exact .inl rfl
      | some value => exact .inr ⟨value, rfl, List.contains_iff_mem.mp hvalid⟩
  · exact .inl rfl

theorem Names.entry {line name text : Text} (hnames : Names line name)
    (htrim : trim text = trim line) {index : Nat} {entry : Option (Text × Text)}
    (hline : parseLine index text = .ok entry) : ∃ value, entry = some (name, value) := by
  rw [parseLine, htrim] at hline
  split at hline
  · cases hline
  · rcases hnames.parseTrimmed_eq (.invalid (index + 1)) with hfails | ⟨value, hok, -⟩
    · rw [hfails] at hline
      cases hline
    · rw [hok] at hline
      cases hline
      exact ⟨value, rfl⟩

/-- Two lines of one name: the second finds the name assigned, if it is reached at all. -/
theorem parseFrom_error_of_repeated {before between after : List Text} {first second name : Text}
    (hfirst : Names first name) (hsecond : Names second name) (index : Nat) (values : Values) :
    ∃ failure, parseFrom index values
      (linesOf (before ++ first :: (between ++ second :: after))) = .error failure := by
  obtain ⟨text, rest, hlines, htrim⟩ := linesOf_head hsecond.1.ne_nil after
  rw [linesOf_append _ (List.cons_ne_nil _ _), ← List.cons_append,
    linesOf_append _ (List.cons_ne_nil _ _), hlines, List.map_cons, List.cons_append]
  cases hparse : parseFrom index values (before.map stripCarriageReturn ++
      stripCarriageReturn first :: (between.map stripCarriageReturn ++ text :: rest)) with
  | error failure => exact ⟨failure, rfl⟩
  | ok result =>
      rw [parseFrom_append] at hparse
      obtain ⟨reached, -, hreached⟩ := bind_eq_ok.mp hparse
      obtain ⟨entry, hline, -, hassigned⟩ := parseFrom_cons_ok hreached
      obtain ⟨value, rfl⟩ := hfirst.entry (trim_strip first) hline
      rw [parseFrom_append] at hassigned
      obtain ⟨later, hbetween, hlater⟩ := bind_eq_ok.mp hassigned
      have hkept := parseFrom_keeps hbetween (Finmap.mem_insert.mpr (.inl rfl))
      obtain ⟨entry', hline', hfresh, -⟩ := parseFrom_cons_ok hlater
      obtain ⟨value', rfl⟩ := hsecond.entry htrim hline'
      exact absurd hkept (hfresh (name, value') rfl)

/-- A file that was written is read back as its assignments, with nothing in a value interpreted; and
in any text, a line behind the byte-order mark that is neither blank nor a comment and has no equals
sign, an unknown name or a name that came before makes the whole text fail. -/
theorem environment_files_literal :
    (∀ file : EnvFile, file.WellFormed → ∃ values, parseValues file.render = .ok values ∧
      ∀ name value, values.lookup name = some value ↔ (name, value) ∈ file.assignments) ∧
    ∀ (text : Text) (pieces : List Text),
      (text.dropWhile (· = byteOrderMark)).splitOn '\n' = pieces →
      (∀ line ∈ pieces, Significant line → '=' ∉ line →
        ∃ failure, parseValues text = .error failure) ∧
      (∀ line ∈ pieces, ∀ name, Names line name → name ∉ envNames →
        ∃ failure, parseValues text = .error failure) ∧
      ∀ before first between second after name,
        pieces = before ++ first :: (between ++ second :: after) → Names first name →
          Names second name → ∃ failure, parseValues text = .error failure := by
  refine ⟨fun file hwf => EnvFile.parseValues_render hwf, ?_⟩
  rintro text pieces rfl
  refine ⟨?_, ?_, ?_⟩
  · intro line hline hsignificant hequals
    exact parseFrom_error_of_piece hline hsignificant
      (parseTrimmed_without_equals hsignificant hequals) 0 ∅
  · intro line hline name hnames hunknown
    refine parseFrom_error_of_piece hline hnames.1 (fun invalid => ?_) 0 ∅
    rcases hnames.parseTrimmed_eq invalid with hfails | ⟨value, -, hknown⟩
    · exact hfails
    · exact absurd hknown hunknown
  · intro before first between second after name hpieces hfirst hsecond
    rw [parseValues, lines, hpieces]
    exact parseFrom_error_of_repeated hfirst hsecond 0 ∅

/-- A comment and a password full of characters other readers would interpret. -/
def sampleFile : EnvFile where
  bom := true
  lines :=
    [(.comment " RECALL_PASSWORD=no".toList, true),
      (.assignment "RECALL_PASSWORD".toList "it's \\$HOME # a=b ".toList .single " ".toList
        "\t".toList [] " ".toList, true)]
  last := .assignment "RECALL_WORKERS".toList "2".toList .bare [] [] [] []

theorem environment_files_literal_sample : ∃ values,
    parseValues sampleFile.render = .ok values ∧
      values.lookup "RECALL_PASSWORD".toList = some "it's \\$HOME # a=b ".toList ∧
      values.lookup "RECALL_WORKERS".toList = some "2".toList := by
  have hlines : ∀ line ∈ sampleFile.all, line.WellFormed := by
    intro line hline
    simp only [EnvFile.all, sampleFile, List.map_cons, List.map_nil, List.cons_append,
      List.nil_append, List.mem_cons, List.not_mem_nil, or_false] at hline
    rcases hline with rfl | rfl | rfl
    · exact ⟨trivial, by decide, by decide, by decide⟩
    · exact ⟨⟨by decide, trivial, List.all_eq_true.mp (by decide), List.all_eq_true.mp (by decide),
        List.all_eq_true.mp (by decide), List.all_eq_true.mp (by decide)⟩, by decide, by decide,
        by decide⟩
    · have hnone : ∀ c ∈ ([] : Text), isWhitespace c = true := fun c hc => absurd hc List.not_mem_nil
      refine ⟨⟨by decide, ⟨?_, ?_⟩, hnone, hnone, hnone, hnone⟩, by decide, by decide, by decide⟩
      · rintro c ⟨⟩
        decide
      · rintro c ⟨⟩
        decide
  obtain ⟨values, hvalues, hlookup⟩ :=
    environment_files_literal.1 sampleFile ⟨hlines, by decide⟩
  exact ⟨values, hvalues, (hlookup _ _).mpr (by decide), (hlookup _ _).mpr (by decide)⟩

end Recall.Settings
