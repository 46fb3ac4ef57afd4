import Recall.Startup

/-!
# The command line

The options of the server as a language: which words are read as options with their values, and what
they ask for. A word behind an option that takes a value is that value, whatever it looks like.
-/

namespace Recall.Settings

/-- Only the names of settings occur. -/
def Known (values : Values) : Prop := ∀ key ∈ values, key ∈ envNames

theorem Known.empty : Known ∅ := fun _ hkey => absurd hkey Finmap.notMem_empty

theorem Known.insert {values : Values} (h : Known values) {key : Text} (hkey : key ∈ envNames)
    (value : Text) : Known (values.insert key value) := by
  intro other hother
  rcases Finmap.mem_insert.mp hother with rfl | hother
  · exact hkey
  · exact h other hother

/-- An option with what follows it. -/
inductive Argument where
  | noEnvFile
  | envFile (path : Text)
  | setting (entry : Text × Text) (value : Text)

namespace Argument

def words : Argument → List Text
  | .noEnvFile => ["--no-env-file".toList]
  | .envFile path => ["--env-file".toList, path]
  | .setting entry value => [entry.1, value]

/-- The environment file it chooses. -/
def file? : Argument → Option (Option Text)
  | .noEnvFile => some none
  | .envFile path => some (some path)
  | .setting _ _ => none

def assignment? : Argument → Option (Text × Text)
  | .setting entry value => some (entry.2, value)
  | _ => none

end Argument

/-- Behind the options that were read already. -/
structure Fits (options : Options) (fileOptionSeen : Bool) (arguments : List Argument) : Prop where
  known : ∀ entry value, .setting entry value ∈ arguments → entry ∈ settingOptions
  paths : ∀ path, .envFile path ∈ arguments → path ≠ []
  once : (arguments.filterMap Argument.file?).length + fileOptionSeen.toNat ≤ 1
  unique : ((arguments.filterMap Argument.assignment?).map Prod.fst).Nodup
  fresh : ∀ assigned ∈ arguments.filterMap Argument.assignment?, assigned.1 ∉ options.values

def Options.add (options : Options) : Argument → Options
  | .noEnvFile => { options with envFile := none }
  | .envFile path => { options with envFile := some path, explicitFile := true }
  | .setting entry value => { options with values := options.values.insert entry.2 value }

theorem settingOptions_plain : ∀ entry ∈ settingOptions, entry.1 ≠ "--no-env-file".toList ∧
    entry.1 ≠ "--env-file".toList ∧ settingOptions.lookup entry.1 = some entry.2 ∧
    entry.2 ∈ envNames ∧ entry.2 ≠ Setting.password.name := by
  decide

theorem mem_settingOptions {option name : Text} (hlookup : settingOptions.lookup option = some name) :
    (option, name) ∈ settingOptions := by
  obtain ⟨before, after, hsplit, -⟩ := List.lookup_eq_some_iff.mp hlookup
  rw [hsplit]
  exact List.mem_append_right _ List.mem_cons_self

namespace Fits

variable {options : Options} {seen : Bool} {arguments : List Argument}

/-- An argument about the environment file. -/
theorem file {argument : Argument} {choice : Option Text} {next : Options}
    (hfile : argument.file? = some choice) (hassigns : argument.assignment? = none)
    (hnext : next.values = options.values) :
    Fits options seen (argument :: arguments) ↔
      seen = false ∧ (∀ path, argument = .envFile path → path ≠ []) ∧ Fits next true arguments := by
  have hassigned : (argument :: arguments).filterMap Argument.assignment? =
      arguments.filterMap Argument.assignment? := List.filterMap_cons_none hassigns
  constructor
  · intro h
    have honce := h.once
    have hunique := h.unique
    have hfresh := h.fresh
    rw [List.filterMap_cons_some hfile, List.length_cons] at honce
    rw [hassigned] at hunique hfresh
    refine ⟨?_, fun path hpath => h.paths path (hpath ▸ List.mem_cons_self),
      fun entry value hmem => h.known entry value (List.mem_cons_of_mem _ hmem),
      fun path hmem => h.paths path (List.mem_cons_of_mem _ hmem), ?_, hunique, ?_⟩
    · cases seen with
      | false => rfl
      | true =>
          rw [Bool.toNat_true] at honce
          omega
    · rw [Bool.toNat_true]
      omega
    · rw [hnext]
      exact hfresh
  · rintro ⟨rfl, hpath, h⟩
    have honce := h.once
    rw [Bool.toNat_true] at honce
    refine ⟨fun entry value hmem => ?_, fun path hmem => ?_, ?_, ?_, ?_⟩
    · rcases List.mem_cons.mp hmem with rfl | hmem
      · cases hfile
      · exact h.known entry value hmem
    · rcases List.mem_cons.mp hmem with hargument | hmem
      · exact hpath path hargument.symm
      · exact h.paths path hmem
    · rw [List.filterMap_cons_some hfile, List.length_cons, Bool.toNat_false]
      omega
    · rw [hassigned]
      exact h.unique
    · rw [hassigned, ← hnext]
      exact h.fresh

theorem noEnvFile : Fits options seen (.noEnvFile :: arguments) ↔
    seen = false ∧ Fits (options.add .noEnvFile) true arguments := by
  have hfile := @file options seen arguments .noEnvFile none (options.add .noEnvFile) rfl rfl rfl
  simpa using hfile

theorem envFile {path : Text} : Fits options seen (.envFile path :: arguments) ↔
    seen = false ∧ path ≠ [] ∧ Fits (options.add (.envFile path)) true arguments := by
  have hfile := @file options seen arguments (.envFile path) (some path)
    (options.add (.envFile path)) rfl rfl rfl
  simpa using hfile

theorem setting {entry : Text × Text} {value : Text} :
    Fits options seen (.setting entry value :: arguments) ↔
      entry ∈ settingOptions ∧ entry.2 ∉ options.values ∧
        Fits (options.add (.setting entry value)) seen arguments := by
  constructor
  · intro h
    have hunique := List.nodup_cons.mp h.unique
    refine ⟨h.known entry value List.mem_cons_self, h.fresh _ List.mem_cons_self,
      fun entry value hmem => h.known entry value (List.mem_cons_of_mem _ hmem),
      fun path hmem => h.paths path (List.mem_cons_of_mem _ hmem), h.once, hunique.2, ?_⟩
    intro assigned hassigned hmem
    rcases Finmap.mem_insert.mp hmem with hsame | hmem
    · exact hunique.1 (List.mem_map.mpr ⟨assigned, hassigned, hsame⟩)
    · exact h.fresh assigned (List.mem_cons_of_mem _ hassigned) hmem
  · rintro ⟨hentry, hfresh, h⟩
    refine ⟨fun other value' hmem => ?_, fun path hmem => h.paths path (by simpa using hmem), h.once,
      ?_, fun assigned hassigned => ?_⟩
    · rcases List.mem_cons.mp hmem with hother | hmem
      · cases hother
        exact hentry
      · exact h.known other value' hmem
    · refine List.nodup_cons.mpr ⟨fun hmem => ?_, h.unique⟩
      obtain ⟨assigned, hassigned, hname⟩ := List.mem_map.mp hmem
      exact h.fresh assigned hassigned (Finmap.mem_insert.mpr (.inl hname))
    · rcases List.mem_cons.mp hassigned with rfl | hassigned
      · exact hfresh
      · exact fun hmem => h.fresh assigned hassigned (Finmap.mem_insert.mpr (.inr hmem))

end Fits

theorem parseOptionsFrom_noEnvFile (options : Options) (words : List Text) :
    parseOptionsFrom options false ("--no-env-file".toList :: words) =
      parseOptionsFrom (options.add .noEnvFile) true words := by
  cases words with
  | nil => rfl
  | cons word words =>
      rw [parseOptionsFrom, if_pos rfl, if_neg Bool.false_ne_true]
      rfl

/-- What fits is read. -/
theorem parseOptionsFrom_words {options : Options} {seen : Bool} {arguments : List Argument}
    (h : Fits options seen arguments) :
    parseOptionsFrom options seen (arguments.flatMap Argument.words) =
      .ok (arguments.foldl Options.add options) := by
  induction arguments generalizing options seen with
  | nil => rfl
  | cons argument arguments ih =>
      rw [List.flatMap_cons, List.foldl_cons]
      cases argument with
      | noEnvFile =>
          obtain ⟨rfl, hrest⟩ := Fits.noEnvFile.mp h
          rw [Argument.words, List.singleton_append, parseOptionsFrom_noEnvFile]
          exact ih hrest
      | envFile path =>
          obtain ⟨rfl, hpath, hrest⟩ := Fits.envFile.mp h
          rw [Argument.words, List.cons_append, List.singleton_append, parseOptionsFrom,
            if_neg (by decide), if_pos rfl, if_neg Bool.false_ne_true]
          simp only [if_neg hpath]
          exact ih hrest
      | setting entry value =>
          obtain ⟨hentry, hfresh, hrest⟩ := Fits.setting.mp h
          obtain ⟨hno, hfile, hlookup, -⟩ := settingOptions_plain entry hentry
          rw [Argument.words, List.cons_append, List.singleton_append, parseOptionsFrom, if_neg hno,
            if_neg hfile]
          simp only [hlookup, if_neg hfresh]
          exact ih hrest

/-- What is read fits. -/
theorem fits_of_parseOptionsFrom {options result : Options} {seen : Bool} {words : List Text}
    (hparse : parseOptionsFrom options seen words = .ok result) :
    ∃ arguments, Fits options seen arguments ∧ arguments.flatMap Argument.words = words ∧
      arguments.foldl Options.add options = result := by
  fun_induction parseOptionsFrom options seen words with
  | case1 options seen =>
      cases hparse
      refine ⟨[], ⟨nofun, nofun, ?_, .nil, nofun⟩, rfl, rfl⟩
      cases seen <;> decide
  | case3 options seen words hseen ih =>
      obtain ⟨arguments, h, rfl, rfl⟩ := ih hparse
      refine ⟨.noEnvFile :: arguments, Fits.noEnvFile.mpr ⟨?_, h⟩, rfl, rfl⟩
      simpa using hseen
  | case7 options seen hseen path words hpath hno ih =>
      obtain ⟨arguments, h, rfl, rfl⟩ := ih hparse
      refine ⟨.envFile path :: arguments, Fits.envFile.mpr ⟨?_, hpath, h⟩, rfl, rfl⟩
      simpa using hseen
  | case11 options seen option hno hfile name hlookup value arguments hfresh ih =>
      obtain ⟨arguments, h, rfl, rfl⟩ := ih hparse
      exact ⟨.setting (option, name) value :: arguments,
        Fits.setting.mpr ⟨mem_settingOptions hlookup, hfresh, h⟩, rfl, rfl⟩
  | _ => cases hparse

/-- What the arguments ask for. -/
structure Means (arguments : List Argument) (options : Options) : Prop where
  file : options.envFile =
    (arguments.filterMap Argument.file?).head?.getD (some ".env".toList)
  explicit : options.explicitFile = true ↔ ∃ path, .envFile path ∈ arguments
  values : ∀ name, options.values.lookup name =
    (arguments.filterMap Argument.assignment?).lookup name

structure WellFormed (arguments : List Argument) : Prop where
  known : ∀ entry value, .setting entry value ∈ arguments → entry ∈ settingOptions
  paths : ∀ path, .envFile path ∈ arguments → path ≠ []
  once : (arguments.filterMap Argument.file?).length ≤ 1
  unique : ((arguments.filterMap Argument.assignment?).map Prod.fst).Nodup

def initialOptions : Options := ⟨some ".env".toList, false, ∅⟩

theorem fits_initial {arguments : List Argument} :
    Fits initialOptions false arguments ↔ WellFormed arguments :=
  ⟨fun h => ⟨h.known, h.paths, h.once, h.unique⟩,
    fun h => ⟨h.known, h.paths, h.once, h.unique, fun _ _ => Finmap.notMem_empty⟩⟩

theorem foldl_add_file (arguments : List Argument) (options : Options) :
    (arguments.foldl Options.add options).envFile =
      (arguments.filterMap Argument.file?).getLast?.getD options.envFile := by
  induction arguments generalizing options with
  | nil => rfl
  | cons argument arguments ih =>
      rw [List.foldl_cons, ih]
      cases argument with
      | setting entry value => rfl
      | noEnvFile | envFile path =>
          simp only [List.filterMap_cons, Argument.file?, List.getLast?_cons]
          rfl

theorem foldl_add_explicit (arguments : List Argument) (options : Options) :
    (arguments.foldl Options.add options).explicitFile = true ↔
      options.explicitFile = true ∨ ∃ path, .envFile path ∈ arguments := by
  induction arguments generalizing options with
  | nil => simp
  | cons argument arguments ih =>
      rw [List.foldl_cons, ih]
      cases argument with
      | setting entry value | noEnvFile => simp [Options.add]
      | envFile path => simp [Options.add]

theorem foldl_add_values {arguments : List Argument} {options : Options} {seen : Bool}
    (h : Fits options seen arguments) (name : Text) :
    (arguments.foldl Options.add options).values.lookup name =
      ((arguments.filterMap Argument.assignment?).lookup name).or (options.values.lookup name) := by
  induction arguments generalizing options seen with
  | nil => rfl
  | cons argument arguments ih =>
      rw [List.foldl_cons]
      cases argument with
      | noEnvFile => exact ih (Fits.noEnvFile.mp h).2
      | envFile path => exact ih (Fits.envFile.mp h).2.2
      | setting entry value =>
          obtain ⟨-, hfresh, hrest⟩ := Fits.setting.mp h
          rw [ih hrest, List.filterMap_cons, Argument.assignment?, List.lookup_cons]
          by_cases hname : name = entry.2
          · subst hname
            have hnone : (arguments.filterMap Argument.assignment?).lookup entry.2 = none := by
              rw [List.lookup_eq_none_iff]
              intro assigned hassigned
              refine bne_iff_ne.mpr fun hsame => ?_
              exact hrest.fresh assigned hassigned (Finmap.mem_insert.mpr (.inl hsame.symm))
            rw [hnone, beq_self_eq_true]
            exact Finmap.lookup_insert _
          · rw [beq_eq_false_iff_ne.mpr hname]
            congr 1
            exact Finmap.lookup_insert_of_ne _ hname

theorem means_foldl {arguments : List Argument} (h : WellFormed arguments) :
    Means arguments (arguments.foldl Options.add initialOptions) where
  file := by
    rw [foldl_add_file]
    have honce := h.once
    rcases hfiles : arguments.filterMap Argument.file? with _ | ⟨file, _ | ⟨second, rest⟩⟩
    · rfl
    · rfl
    · rw [hfiles, List.length_cons, List.length_cons] at honce
      omega
  explicit := by
    rw [foldl_add_explicit]
    exact or_iff_right Bool.false_ne_true
  values name := by
    rw [foldl_add_values (fits_initial.mpr h), initialOptions, Finmap.lookup_empty, Option.or_none]

theorem Means.unique {arguments : List Argument} {first second : Options}
    (hfirst : Means arguments first) (hsecond : Means arguments second) : first = second := by
  obtain ⟨envFile, explicitFile, values⟩ := first
  obtain ⟨envFile', explicitFile', values'⟩ := second
  obtain rfl : envFile = envFile' := hfirst.file.trans hsecond.file.symm
  obtain rfl : explicitFile = explicitFile' :=
    Bool.eq_iff_iff.mpr (hfirst.explicit.trans hsecond.explicit.symm)
  obtain rfl : values = values' :=
    Finmap.ext_lookup fun name => (hfirst.values name).trans (hsecond.values name).symm
  rfl

theorem parseOptions_ok {words : List Text} {options : Options} :
    parseOptions words = .ok options ↔
      ∃ arguments, WellFormed arguments ∧ arguments.flatMap Argument.words = words ∧
        Means arguments options := by
  constructor
  · intro hparse
    obtain ⟨arguments, hfits, hwords, rfl⟩ := fits_of_parseOptionsFrom hparse
    have hwf := fits_initial.mp hfits
    exact ⟨arguments, hwf, hwords, means_foldl hwf⟩
  · rintro ⟨arguments, hwf, rfl, hmeans⟩
    rw [hmeans.unique (means_foldl hwf)]
    exact parseOptionsFrom_words (fits_initial.mpr hwf)

theorem Means.known {arguments : List Argument} {options : Options} (hwf : WellFormed arguments)
    (h : Means arguments options) {name : Text} (hname : name ∈ options.values) :
    ∃ entry ∈ settingOptions, entry.2 = name := by
  obtain ⟨value, hvalue⟩ := Finmap.mem_iff.mp hname
  rw [h.values] at hvalue
  obtain ⟨before, after, hsplit, -⟩ := List.lookup_eq_some_iff.mp hvalue
  have hmem : (name, value) ∈ arguments.filterMap Argument.assignment? := by
    rw [hsplit]
    exact List.mem_append_right _ List.mem_cons_self
  obtain ⟨argument, hargument, hassigned⟩ := List.mem_filterMap.mp hmem
  cases argument with
  | setting entry value' =>
      cases hassigned
      exact ⟨entry, hwf.known _ _ hargument, rfl⟩
  | _ => cases hassigned

theorem parseOptions_known {words : List Text} {options : Options}
    (hparse : parseOptions words = .ok options) : Known options.values := by
  obtain ⟨arguments, hwf, -, hmeans⟩ := parseOptions_ok.mp hparse
  intro name hname
  obtain ⟨entry, hentry, rfl⟩ := hmeans.known hwf hname
  exact (settingOptions_plain entry hentry).2.2.2.1

/-- The command line is read exactly when it is a sequence of options with their values, each at most
once and at most one of them about the environment file; and it cannot carry the password. -/
theorem command_line_exact (words : List Text) :
    (∀ options, parseOptions words = .ok options ↔
      ∃ arguments, WellFormed arguments ∧ arguments.flatMap Argument.words = words ∧
        Means arguments options) ∧
    ∀ options, parseOptions words = .ok options →
      (∀ name ∈ options.values, name ∈ envNames) ∧ Setting.password.name ∉ options.values := by
  refine ⟨fun options => parseOptions_ok, fun options hparse => ?_⟩
  obtain ⟨arguments, hwf, -, hmeans⟩ := parseOptions_ok.mp hparse
  refine ⟨parseOptions_known hparse, fun hpassword => ?_⟩
  obtain ⟨entry, hentry, hname⟩ := hmeans.known hwf hpassword
  exact (settingOptions_plain entry hentry).2.2.2.2 hname

end Recall.Settings
