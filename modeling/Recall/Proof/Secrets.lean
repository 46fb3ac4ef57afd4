import Recall.Proof.Startup

/-!
# Secrets at startup

A password in the process environment ends up in the configuration and nowhere else: with another
password of a valid length the server starts in the same way, or fails with the same text. More
generally a text the loader prints is put together from texts of the program, names of settings and
options, line numbers and what the system says about a file, never from a value.
-/

namespace Recall.Settings

/-! ### UTF-8 -/

theorem decode_encode (text : Text) : decodeUtf8 (encodeUtf8 text) = some text := by
  have hbytes : ByteArray.mk (encodeUtf8 text).toArray = text.utf8Encode := by
    apply ByteArray.ext
    simp [encodeUtf8, List.utf8Encode]
  rw [decodeUtf8, hbytes, List.utf8Decode?_utf8Encode]
  rfl

theorem length_encodeUtf8 (text : Text) : (encodeUtf8 text).length = utf8Len text := by
  simp [encodeUtf8, utf8Len, List.length_flatMap]

/-! ### The password in the environment -/

def passwordVariable (password : Text) : Bytes × Bytes :=
  (encodeUtf8 Setting.password.name, encodeUtf8 password)

/-- The variable has another name. -/
def Foreign (variable_ : Bytes × Bytes) : Prop :=
  decodeUtf8 variable_.1 ≠ some Setting.password.name

theorem readVariable_insert {variable_ : Bytes × Bytes} (hforeign : Foreign variable_)
    (process : Values) (password : Text) :
    readVariable (process.insert Setting.password.name password) variable_ =
      (readVariable process variable_).map fun process =>
        process.insert Setting.password.name password := by
  unfold readVariable
  cases hkey : decodeUtf8 variable_.1 with
  | none => rfl
  | some key =>
      simp only
      split
      · rfl
      · split
        · rfl
        · cases decodeUtf8 variable_.2 with
          | none => rfl
          | some value =>
              simp only
              split
              · rfl
              · have hne : Setting.password.name ≠ key := by
                  rintro rfl
                  exact hforeign hkey
                rw [Finmap.insert_insert_of_ne _ hne]
                rfl

theorem foldlM_insert {environment : List (Bytes × Bytes)}
    (hforeign : ∀ variable_ ∈ environment, Foreign variable_) (process : Values) (password : Text) :
    environment.foldlM readVariable (process.insert Setting.password.name password) =
      (environment.foldlM readVariable process).map fun process =>
        process.insert Setting.password.name password := by
  induction environment generalizing process with
  | nil => rfl
  | cons variable_ environment ih =>
      rw [List.foldlM_cons, List.foldlM_cons,
        readVariable_insert (hforeign _ List.mem_cons_self)]
      cases readVariable process variable_ with
      | error message => rfl
      | ok next => exact ih (fun other hother => hforeign other (List.mem_cons_of_mem _ hother)) next

theorem readEnvironment_password {before after : List (Bytes × Bytes)} {password : Text}
    (hlength : utf8Len password ≤ maxEnvLineBytes) (hafter : ∀ variable_ ∈ after, Foreign variable_) :
    readEnvironment (before ++ passwordVariable password :: after) =
      (readEnvironment (before ++ after)).map fun process =>
        process.insert Setting.password.name password := by
  have hreading : Reading (passwordVariable password) (some (Setting.password.name, password)) :=
    .taken (decode_encode _) (by decide) (decode_encode _) hlength
  rw [readEnvironment, readEnvironment, List.foldlM_append, List.foldlM_append]
  cases before.foldlM readVariable ∅ with
  | error message => rfl
  | ok process =>
      calc (passwordVariable password :: after).foldlM readVariable process
        _ = after.foldlM readVariable (process.insert Setting.password.name password) := by
          rw [List.foldlM_cons, hreading.readVariable_eq]
          rfl
        _ = _ := foldlM_insert hafter process password

/-! ### The password among the settings -/

def withPassword (password : Option Bytes) (config : Config) : Config := { config with password }

theorem set_withPassword (config : Config) (password : Option Bytes) {key : Text}
    (hkey : key ≠ Setting.password.name) (value : Text) :
    set (withPassword password config) key value =
      (set config key value).map (withPassword password) := by
  unfold set
  cases hnamed : Setting.named key with
  | none => rfl
  | some setting =>
      cases setting with
      | bind => cases parseSocketAddr value <;> rfl
      | workers | ioThreads | keysPerWorker | maxConnections => cases number key value <;> rfl
      | maxMemory | queueBytes => cases mib key value <;> rfl
      | password => exact absurd (Setting.name_of_named hnamed).symm hkey

theorem set_password (config : Config) (value : Text) :
    set config Setting.password.name value =
      .ok (withPassword (some (encodeUtf8 value)) config) := by
  rw [set, Setting.named_name]
  rfl

def entriesOf (values : Values) (keys : List Text) : List (Text × Text) :=
  keys.filterMap fun key => (values.lookup key).map fun value => (key, value)

/-- Two merged maps that differ in the password, from two configurations that do. -/
theorem foldlM_withPassword (values : Values) (first second : Text) (keys : List Text)
    (config : Config) (before before' : Option Bytes) :
    (entriesOf (values.insert Setting.password.name second) keys).foldlM
        (fun config entry => set config entry.1 entry.2) (withPassword before config) =
      ((entriesOf (values.insert Setting.password.name first) keys).foldlM
        (fun config entry => set config entry.1 entry.2) (withPassword before' config)).map
        (withPassword (if Setting.password.name ∈ keys then some (encodeUtf8 second) else before)) := by
  induction keys generalizing config before before' with
  | nil => rfl
  | cons key keys ih =>
      unfold entriesOf at ih ⊢
      rw [List.filterMap_cons, List.filterMap_cons]
      by_cases hkey : key = Setting.password.name
      · subst hkey
        rw [Finmap.lookup_insert, Finmap.lookup_insert, Option.map_some, Option.map_some]
        simp only [List.foldlM_cons, set_password]
        have hrest := ih config (some (encodeUtf8 second)) (some (encodeUtf8 first))
        rw [ite_self] at hrest
        rw [if_pos List.mem_cons_self]
        exact hrest
      · have hmem : Setting.password.name ∈ key :: keys ↔ Setting.password.name ∈ keys := by
          rw [List.mem_cons, or_iff_right (Ne.symm hkey)]
        rw [Finmap.lookup_insert_of_ne _ hkey, Finmap.lookup_insert_of_ne _ hkey]
        simp only [hmem]
        cases values.lookup key with
        | none => exact ih config before before'
        | some value =>
            simp only [Option.map_some, List.foldlM_cons, set_withPassword _ _ hkey]
            cases set config key value with
            | error message => rfl
            | ok next => exact ih next before before'

theorem merge_insert {file process arguments : Values}
    (harguments : Setting.password.name ∉ arguments) (password : Text) :
    merge file (process.insert Setting.password.name password) arguments =
      (merge file process arguments).insert Setting.password.name password := by
  refine Finmap.ext_lookup fun name => ?_
  have hnone := Finmap.lookup_eq_none.mpr harguments
  by_cases hname : name = Setting.password.name
  · subst hname
    rw [lookup_merge, Finmap.lookup_insert]
    simp [effective, hnone]
  · rw [Finmap.lookup_insert_of_ne _ hname, lookup_merge, lookup_merge]
    simp only [effective, List.findSome?_cons, Finmap.lookup_insert_of_ne _ hname]

theorem keys_insert (values : Values) (name first second : Text) :
    (values.insert name first).keys = (values.insert name second).keys := by
  ext key
  rw [Finmap.mem_keys, Finmap.mem_keys, Finmap.mem_insert, Finmap.mem_insert]

theorem validate_withPassword {first second : Option Bytes} (config : Config)
    (hfirst : Config.invalidPassword first = false)
    (hsecond : Config.invalidPassword second = false) :
    (withPassword first config).validate = (withPassword second config).validate := by
  simp only [Config.validate, withPassword, hfirst, hsecond]

/-- The password has a length the server takes. -/
def Passable (password : Text) : Prop := 1 ≤ utf8Len password ∧ utf8Len password ≤ 1024

instance (password : Text) : Decidable (Passable password) := inferInstanceAs (Decidable (_ ∧ _))

theorem Passable.valid {password : Text} (h : Passable password) :
    Config.invalidPassword (some (encodeUtf8 password)) = false := by
  have hlength := length_encodeUtf8 password
  have hnonempty : (encodeUtf8 password).isEmpty = false := by
    rw [List.isEmpty_eq_false_iff, ← List.length_pos_iff, hlength]
    exact h.1
  have hbound : ¬ 1024 < (encodeUtf8 password).length := by
    rw [hlength]
    exact Nat.not_lt.mpr h.2
  rw [Config.invalidPassword, hnonempty, decide_eq_false hbound]
  rfl

theorem fromSources_password (cpus : Nat) {file process arguments : Values} {first second : Text}
    (hfirst : Passable first) (hsecond : Passable second)
    (harguments : Setting.password.name ∉ arguments) :
    fromSources cpus file (process.insert Setting.password.name second) arguments =
      (fromSources cpus file (process.insert Setting.password.name first) arguments).map
        (withPassword (some (encodeUtf8 second))) := by
  rw [fromSources, fromSources, merge_insert harguments, merge_insert harguments]
  generalize merge file process arguments = merged
  have hkeys : Setting.password.name ∈ (merged.insert Setting.password.name first).keys.sort := by
    rw [Finset.mem_sort, Finmap.mem_keys, Finmap.mem_insert]
    exact .inl rfl
  have hfold := fun password => foldlM_withPassword merged first password
    (merged.insert Setting.password.name first).keys.sort (.default cpus)
    (Config.default cpus).password (Config.default cpus).password
  simp only [if_pos hkeys] at hfold
  have hentries : ∀ password, entries (merged.insert Setting.password.name password) =
      entriesOf (merged.insert Setting.password.name password)
        (merged.insert Setting.password.name first).keys.sort := by
    intro password
    rw [entries, keys_insert merged Setting.password.name password first]
    rfl
  have hdefault : Config.default cpus = withPassword (Config.default cpus).password (.default cpus) :=
    rfl
  rw [hentries, hentries, hdefault, hfold second]
  -- The run with the first password ends with it.
  have hself := hfold first
  cases hrun : (entriesOf (merged.insert Setting.password.name first)
      (merged.insert Setting.password.name first).keys.sort).foldlM
      (fun config entry => set config entry.1 entry.2)
      (withPassword (Config.default cpus).password (.default cpus)) with
  | error message => rfl
  | ok config =>
      rw [hrun] at hself
      have hsame : withPassword (some (encodeUtf8 first)) config = config :=
        (Except.ok.inj hself).symm
      have hvalid : (withPassword (some (encodeUtf8 second)) config).validate = config.validate := by
        rw [← validate_withPassword config hfirst.valid hsecond.valid, hsame]
      simp only [Except.map, bind, Except.bind, hvalid]
      cases config.validate <;> rfl

theorem parseOptions_password {words : List Text} {options : Options}
    (hparse : parseOptions words = .ok options) : Setting.password.name ∉ options.values := by
  obtain ⟨arguments, hwf, -, hmeans⟩ := parseOptions_ok.mp hparse
  intro hpassword
  obtain ⟨entry, hentry, hname⟩ := hmeans.known hwf hpassword
  exact (settingOptions_plain entry hentry).2.2.2.2 hname

def fixedDiagnostics : List Text :=
  ["choose only one environment-file option", "--env-file requires a path",
    "--env-file requires a nonempty path", "unknown option; use --help",
    "unknown Recall environment setting", "cannot inspect environment file",
    "environment path must be a regular file", "cannot read environment file",
    "environment file exceeds 16 KiB", "environment file must be UTF-8",
    "RECALL_BIND requires an IP:port",
    "this milestone permits loopback binds only; transport security is not implemented",
    "invalid worker, connection, queue, key, or payload limit",
    "timeouts and expiration budgets must be nonzero", "invalid protocol limits",
    "inconsistent or excessive protocol/command/reply limits",
    "the configured password must contain 1 to 1024 bytes"].map String.toList

/-- What is said of a setting, behind its name. -/
def settingDiagnostics : List Text :=
  [" requires a nonnegative decimal integer", " is out of range", " must be valid UTF-8",
    " exceeds the configuration value limit"].map String.toList

/-- What is said of an option, before it. -/
def optionDiagnostics : List Text := ["missing value for ", "duplicate option "].map String.toList

/-- The texts the loader prints. -/
inductive Diagnostic (openFile : Text → Opened) : Text → Prop
  | fixed {text : Text} (htext : text ∈ fixedDiagnostics) : Diagnostic openFile text
  | setting {name text : Text} (hname : name ∈ envNames) (htext : text ∈ settingDiagnostics) :
      Diagnostic openFile (name ++ text)
  | option {entry : Text × Text} {text : Text} (hentry : entry ∈ settingOptions)
      (htext : text ∈ optionDiagnostics) : Diagnostic openFile (text ++ entry.1)
  | line (failure : SettingsError) : Diagnostic openFile failure.message.toList
  | unreadable {path kind : Text} (hopen : openFile path = .notFound kind ∨ openFile path = .failed kind) :
      Diagnostic openFile ("cannot read environment file: ".toList ++ kind)

variable {openFile : Text → Opened}

theorem number_diagnostic {key value message : Text} (hkey : key ∈ envNames)
    (hnumber : number key value = .error message) : Diagnostic openFile message := by
  unfold number at hnumber
  split at hnumber
  · cases hnumber
    exact .setting hkey (by decide)
  · split at hnumber
    · cases hnumber
      exact .setting hkey (by decide)
    · cases hnumber

theorem bind_eq_error {ε α β : Type} {x : Except ε α} {f : α → Except ε β} {failure : ε} :
    (x >>= f) = .error failure ↔ x = .error failure ∨ ∃ a, x = .ok a ∧ f a = .error failure := by
  cases x with
  | error other => simp [bind, Except.bind]
  | ok a => simp [bind, Except.bind]

theorem mib_diagnostic {key value message : Text} (hkey : key ∈ envNames)
    (hmib : mib key value = .error message) : Diagnostic openFile message := by
  rcases bind_eq_error.mp hmib with hnumber | ⟨count, -, hrange⟩
  · exact number_diagnostic hkey hnumber
  · cases hmul : usizeCheckedMul count (1024 * 1024) with
    | some bytes =>
        rw [hmul] at hrange
        cases hrange
    | none =>
        rw [hmul] at hrange
        cases hrange
        exact .setting hkey (by decide)

theorem set_diagnostic {config : Config} {key value message : Text}
    (hset : set config key value = .error message) : Diagnostic openFile message := by
  unfold set at hset
  cases hnamed : Setting.named key with
  | none =>
      rw [hnamed] at hset
      cases hset
      exact .fixed (by decide)
  | some setting =>
      have hkey : key ∈ envNames :=
        Setting.exists_name.mpr ⟨setting, Setting.name_of_named hnamed⟩
      rw [hnamed] at hset
      cases setting with
      | bind =>
          simp only at hset
          split at hset
          · cases hset
          · cases hset
            exact .fixed (by decide)
      | workers | ioThreads | keysPerWorker | maxConnections =>
          rcases bind_eq_error.mp hset with hnumber | ⟨count, -, hok⟩
          · exact number_diagnostic hkey hnumber
          · cases hok
      | maxMemory | queueBytes =>
          rcases bind_eq_error.mp hset with hmib | ⟨count, -, hok⟩
          · exact mib_diagnostic hkey hmib
          · cases hok
      | password => cases hset

theorem foldlM_error {ε α β : Type} {f : β → α → Except ε β} {failure : ε} {P : Prop}
    (hf : ∀ b a, f b a = .error failure → P) (items : List α) (b : β)
    (hfold : items.foldlM f b = .error failure) : P := by
  induction items generalizing b with
  | nil => cases hfold
  | cons a items ih =>
      rw [List.foldlM_cons] at hfold
      rcases bind_eq_error.mp hfold with hfirst | ⟨next, -, hrest⟩
      · exact hf b a hfirst
      · exact ih next hrest

theorem validate_diagnostic {config : Config} {message : String}
    (hvalidate : config.validate = .error message) : Diagnostic openFile message.toList := by
  unfold Config.validate at hvalidate
  split at hvalidate
  · cases hvalidate
    exact .fixed (by decide)
  · split at hvalidate
    · cases hvalidate
      exact .fixed (by decide)
    · split at hvalidate
      · cases hvalidate
        exact .fixed (by decide)
      · split at hvalidate
        · next failure hlimits =>
            cases hvalidate
            unfold Limits.validate at hlimits
            split at hlimits
            · cases hlimits
              exact .fixed (by decide)
            · cases hlimits
        · split at hvalidate
          · cases hvalidate
            exact .fixed (by decide)
          · split at hvalidate
            · cases hvalidate
              exact .fixed (by decide)
            · cases hvalidate

theorem fromSources_diagnostic {cpus : Nat} {file process arguments : Values} {message : Text}
    (hsources : fromSources cpus file process arguments = .error message) :
    Diagnostic openFile message := by
  rcases bind_eq_error.mp hsources with hfold | ⟨config, -, hrest⟩
  · exact foldlM_error (fun _ _ hset => set_diagnostic hset) _ _ hfold
  · cases hvalidate : config.validate with
    | ok _ =>
        rw [hvalidate] at hrest
        cases hrest
    | error text =>
        rw [hvalidate] at hrest
        cases hrest
        exact validate_diagnostic hvalidate

theorem parseOptionsFrom_diagnostic {options : Options} {seen : Bool} {words : List Text}
    {message : Text} (hparse : parseOptionsFrom options seen words = .error message) :
    Diagnostic openFile message := by
  fun_induction parseOptionsFrom options seen words with
  | case1 => cases hparse
  | case3 options seen words hseen ih => exact ih hparse
  | case7 options seen hseen path words hpath hno ih => exact ih hparse
  | case9 options seen option hno hfile name hlookup =>
      cases hparse
      exact @Diagnostic.option _ (option, name) _ (mem_settingOptions hlookup) (by decide)
  | case10 options seen option hno hfile name hlookup value words hused =>
      cases hparse
      exact @Diagnostic.option _ (option, name) _ (mem_settingOptions hlookup) (by decide)
  | case11 options seen option hno hfile name hlookup value words hfresh ih => exact ih hparse
  | _ =>
      cases hparse
      exact .fixed (by decide)

theorem readVariable_diagnostic {process : Values} {variable_ : Bytes × Bytes} {message : Text}
    (hread : readVariable process variable_ = .error message) : Diagnostic openFile message := by
  unfold readVariable at hread
  split at hread
  · cases hread
  · split at hread
    · cases hread
    · split at hread
      · cases hread
        exact .fixed (by decide)
      · next hname =>
          have hkey := List.contains_iff_mem.mp (not_not.mp hname)
          split at hread
          · cases hread
            exact .setting hkey (by decide)
          · split at hread
            · cases hread
              exact .setting hkey (by decide)
            · cases hread

theorem readValues_diagnostic {contents : Option Bytes} {message : Text}
    (hread : readValues contents = .error message) : Diagnostic openFile message := by
  unfold readValues at hread
  split at hread
  · cases hread
    exact .fixed (by decide)
  · split at hread
    · cases hread
      exact .fixed (by decide)
    · split at hread
      · cases hread
        exact .fixed (by decide)
      · split at hread
        · cases hread
        · cases hread
          exact .line _

theorem readFile_diagnostic {options : Options} {message : Text}
    (hread : readFile options openFile = .error message) : Diagnostic openFile message := by
  unfold readFile at hread
  split at hread
  · cases hread
  · next path hpath =>
      cases hopen : openFile path with
      | opened isFile contents =>
          rw [hopen] at hread
          rcases isFile with _ | isFile
          · cases hread
            exact .fixed (by decide)
          · cases isFile with
            | false =>
                cases hread
                exact .fixed (by decide)
            | true => exact readValues_diagnostic hread
      | notFound kind =>
          rw [hopen] at hread
          simp only at hread
          split at hread
          · cases hread
            exact .unreadable (.inl hopen)
          · cases hread
      | failed kind =>
          rw [hopen] at hread
          cases hread
          exact .unreadable (.inr hopen)

theorem diagnostics_named {cpus : Nat} {words : List Text} {environment : List (Bytes × Bytes)}
    {message : Text} (hload : load cpus words environment openFile = .error message) :
    Diagnostic openFile message := by
  rcases bind_eq_error.mp hload with hoptions | ⟨options, -, hload⟩
  · exact parseOptionsFrom_diagnostic hoptions
  · rcases bind_eq_error.mp hload with hprocess | ⟨process, -, hload⟩
    · exact foldlM_error (fun _ _ hread => readVariable_diagnostic hread) _ _ hprocess
    · rcases bind_eq_error.mp hload with hfile | ⟨file, -, hsources⟩
      · exact readFile_diagnostic hfile
      · exact fromSources_diagnostic hsources

/-- A password in the place of a number is not repeated. -/
theorem diagnostics_named_sample : ∃ message,
    load 4 ["--workers".toList, "secret".toList, "--no-env-file".toList] [] (fun _ => .failed []) =
        .error message ∧
      Diagnostic (fun _ => .failed []) message := by
  have hload : load 4 ["--workers".toList, "secret".toList, "--no-env-file".toList] []
      (fun _ => .failed []) =
        .error "RECALL_WORKERS requires a nonnegative decimal integer".toList := by
    decide +kernel
  exact ⟨_, hload, diagnostics_named hload⟩

end Recall.Settings
