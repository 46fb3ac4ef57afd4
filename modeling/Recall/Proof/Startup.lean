import Recall.Proof.CommandLine
import Recall.Proof.Settings
import Recall.Proof.Budgets
import Recall.Server

/-!
# Layers of settings

A setting is taken from the command line, else from the process environment, else from the file,
else from the defaults, and each setting on its own: what a stronger source gives is never read
elsewhere. The program merges the sources and goes through the merged map in the order of its keys;
the order leaves no trace in the configuration.
-/

namespace Recall.Settings

/-! ### What the settings mean -/

/-- The address as far as the configuration keeps it. -/
def loopbackOf (text : Text) : Option Bool := (parseSocketAddr text).map SocketAddr.isLoopback

def decimal (text : Text) : Option Nat :=
  if text ≠ [] ∧ text.all isAsciiDigit ∧ decimalValue text ≤ usizeMax then some (decimalValue text)
  else none

def mebibytes (text : Text) : Option Nat :=
  (decimal text).bind fun count => usizeCheckedMul count (1024 * 1024)

def passwordOf (text : Text) : Option (Option Bytes) := some (some (encodeUtf8 text))

/-- A setting that is not given keeps its value. -/
def orElse {α : Type} (given : Option Text) (read : Text → Option α) (fallback : α) : Option α :=
  match given with
  | none => some fallback
  | some text => read text

/-- The configuration with every setting that is given. -/
def configured (base : Config) (given : Setting → Option Text) : Option Config := do
  let loopback ← orElse (given .bind) loopbackOf base.loopback
  let workers ← orElse (given .workers) decimal base.workers
  let ioThreads ← orElse (given .ioThreads) decimal base.ioThreads
  let maxPayloadBytes ← orElse (given .maxMemory) mebibytes base.maxPayloadBytes
  let keysPerWorker ← orElse (given .keysPerWorker) decimal base.keysPerWorker
  let maxConnections ← orElse (given .maxConnections) decimal base.maxConnections
  let queueBytes ← orElse (given .queueBytes) mebibytes base.queueBytes
  let password ← orElse (given .password) passwordOf base.password
  some { base with loopback, workers, ioThreads, maxPayloadBytes, keysPerWorker, maxConnections,
                   queueBytes, password }

/-- What the first source that knows the name says. -/
def effective (sources : List Values) (name : Text) : Option Text :=
  sources.findSome? fun values => values.lookup name

theorem Setting.name_injective : Function.Injective Setting.name := by
  intro first second hname
  cases first <;> cases second <;> first | rfl | (revert hname; decide)

theorem Setting.named_name (setting : Setting) : Setting.named setting.name = some setting := by
  cases setting <;> decide

theorem Setting.name_of_named {key : Text} {setting : Setting}
    (hnamed : Setting.named key = some setting) : setting.name = key :=
  of_decide_eq_true (@List.find?_some _ (fun setting : Setting => decide (setting.name = key)) _ _
    hnamed)

theorem Setting.exists_name {key : Text} : key ∈ envNames ↔ ∃ setting, Setting.name setting = key := by
  constructor
  · intro hkey
    simp only [envNames, List.mem_cons, List.not_mem_nil, or_false] at hkey
    rcases hkey with rfl | rfl | rfl | rfl | rfl | rfl | rfl | rfl
    · exact ⟨.bind, rfl⟩
    · exact ⟨.workers, rfl⟩
    · exact ⟨.ioThreads, rfl⟩
    · exact ⟨.maxMemory, rfl⟩
    · exact ⟨.keysPerWorker, rfl⟩
    · exact ⟨.maxConnections, rfl⟩
    · exact ⟨.queueBytes, rfl⟩
    · exact ⟨.password, rfl⟩
  · rintro ⟨setting, rfl⟩
    cases setting <;> decide

/-! ### One setting -/

theorem number_toOption (key value : Text) : (number key value).toOption = decimal value := by
  unfold number decimal
  by_cases hshape : value = [] ∨ ¬ value.all isAsciiDigit
  · rw [if_pos hshape, if_neg]
    · rfl
    · rintro ⟨hne, hdigits, -⟩
      exact hshape.elim hne fun hnot => hnot hdigits
  · rw [if_neg hshape]
    rw [not_or, not_not] at hshape
    by_cases hrange : usizeMax < decimalValue value
    · rw [if_pos hrange, if_neg fun h => absurd h.2.2 (Nat.not_le.mpr hrange)]
      rfl
    · rw [if_neg hrange, if_pos ⟨hshape.1, hshape.2, Nat.not_lt.mp hrange⟩]
      rfl

theorem toOption_bind {ε α β : Type} (x : Except ε α) (f : α → Except ε β) :
    (x >>= f).toOption = x.toOption.bind fun a => (f a).toOption := by
  cases x <;> rfl

theorem mib_toOption (key value : Text) : (mib key value).toOption = mebibytes value := by
  rw [mib, toOption_bind, number_toOption, mebibytes]
  congr 1
  funext count
  cases usizeCheckedMul count (1024 * 1024) <;> rfl

/-- One setting, as an update of the configuration. -/
def assign (config : Config) (value : Text) : Setting → Option Config
  | .bind => (loopbackOf value).map fun loopback => { config with loopback }
  | .workers => (decimal value).map fun workers => { config with workers }
  | .ioThreads => (decimal value).map fun ioThreads => { config with ioThreads }
  | .maxMemory => (mebibytes value).map fun maxPayloadBytes => { config with maxPayloadBytes }
  | .keysPerWorker => (decimal value).map fun keysPerWorker => { config with keysPerWorker }
  | .maxConnections => (decimal value).map fun maxConnections => { config with maxConnections }
  | .queueBytes => (mebibytes value).map fun queueBytes => { config with queueBytes }
  | .password => (passwordOf value).map fun password => { config with password }

theorem toOption_update {ε α β : Type} (x : Except ε α) (f : α → β) :
    (do return f (← x) : Except ε β).toOption = x.toOption.map f := by
  cases x <;> rfl

theorem set_name (config : Config) (setting : Setting) (value : Text) :
    (set config setting.name value).toOption = assign config value setting := by
  rw [set, Setting.named_name]
  cases setting with
  | bind =>
      simp only [assign, loopbackOf]
      cases parseSocketAddr value <;> rfl
  | workers | ioThreads | keysPerWorker | maxConnections =>
      rw [toOption_update, number_toOption, assign]
  | maxMemory | queueBytes => rw [toOption_update, mib_toOption, assign]
  | password => rfl

/-- Assigning a setting first is as good as having it given. -/
theorem configured_assign (base : Config) (given : Setting → Option Text) {setting : Setting}
    (hfree : given setting = none) (value : Text) :
    ((assign base value setting).bind fun config => configured config given) =
      configured base (Function.update given setting (some value)) := by
  cases setting with
  | bind =>
      simp only [assign, configured, hfree, Function.update_self, orElse]
      cases loopbackOf value <;> rfl
  | workers =>
      simp only [assign, configured, hfree, Function.update_self, orElse]
      cases decimal value <;> simp [Function.update_of_ne]
  | ioThreads =>
      simp only [assign, configured, hfree, Function.update_self, orElse]
      cases decimal value <;> simp [Function.update_of_ne]
  | maxMemory =>
      simp only [assign, configured, hfree, Function.update_self, orElse]
      cases mebibytes value <;> simp [Function.update_of_ne]
  | keysPerWorker =>
      simp only [assign, configured, hfree, Function.update_self, orElse]
      cases decimal value <;> simp [Function.update_of_ne]
  | maxConnections =>
      simp only [assign, configured, hfree, Function.update_self, orElse]
      cases decimal value <;> simp [Function.update_of_ne]
  | queueBytes =>
      simp only [assign, configured, hfree, Function.update_self, orElse]
      cases mebibytes value <;> simp [Function.update_of_ne]
  | password =>
      simp only [assign, configured, hfree, Function.update_self, orElse]
      cases passwordOf value <;> simp [Function.update_of_ne]

/-! ### All settings -/

theorem lookup_cons_name (setting : Setting) (value : Text) (rest : List (Text × Text)) :
    (fun other : Setting => ((setting.name, value) :: rest).lookup other.name) =
      Function.update (fun other : Setting => rest.lookup other.name) setting (some value) := by
  funext other
  rw [List.lookup_cons]
  by_cases hother : other = setting
  · subst hother
    simp
  · have hname : (other.name == setting.name) = false :=
      beq_eq_false_iff_ne.mpr fun hname => hother (Setting.name_injective hname)
    rw [hname, Function.update_of_ne hother]

/-- The loop of `from_sources`, over entries of known and different names. -/
theorem foldlM_set {given : List (Text × Text)} (hnodup : (given.map Prod.fst).Nodup)
    (hknown : ∀ entry ∈ given, entry.1 ∈ envNames) (base : Config) :
    (given.foldlM (fun config entry => set config entry.1 entry.2) base).toOption =
      configured base fun setting => given.lookup setting.name := by
  induction given generalizing base with
  | nil => rfl
  | cons entry rest ih =>
      obtain ⟨key, value⟩ := entry
      obtain ⟨setting, rfl⟩ := Setting.exists_name.mp (hknown _ List.mem_cons_self)
      rw [List.map_cons, List.nodup_cons] at hnodup
      have hfree : rest.lookup setting.name = none := by
        rw [List.lookup_eq_none_iff]
        intro other hother
        exact bne_iff_ne.mpr fun hname => hnodup.1 (List.mem_map.mpr ⟨other, hother, hname.symm⟩)
      rw [List.foldlM_cons, toOption_bind, set_name, lookup_cons_name, ← configured_assign _ _ hfree]
      congr 1
      funext config
      exact ih hnodup.2 (fun other hother => hknown other (List.mem_cons_of_mem _ hother)) config

theorem map_fst_entries (keys : List Text) (values : Values) :
    ((keys.filterMap fun key => (values.lookup key).map fun value => (key, value)).map
      Prod.fst).Sublist keys := by
  induction keys with
  | nil => exact .slnil
  | cons key keys ih =>
      rw [List.filterMap_cons]
      cases values.lookup key with
      | none => exact ih.cons key
      | some value => exact ih.cons_cons key

theorem lookup_filterMap (keys : List Text) (values : Values) {key : Text} (hkey : key ∈ keys) :
    (keys.filterMap fun key => (values.lookup key).map fun value => (key, value)).lookup key =
      values.lookup key := by
  induction keys with
  | nil => cases hkey
  | cons first keys ih =>
      rw [List.filterMap_cons]
      by_cases hfirst : key = first
      · subst hfirst
        cases hvalue : values.lookup key with
        | some value => simp
        | none =>
            -- Also further down there is no entry of this key.
            simp only [Option.map_none, List.lookup_eq_none_iff, List.mem_filterMap,
              Option.map_eq_some_iff]
            rintro entry ⟨other, -, value, hother, rfl⟩
            refine bne_iff_ne.mpr ?_
            rintro rfl
            rw [hvalue] at hother
            cases hother
      · have hrest := ih ((List.mem_cons.mp hkey).resolve_left hfirst)
        cases values.lookup first with
        | none => exact hrest
        | some value =>
            rw [Option.map_some, List.lookup_cons, beq_eq_false_iff_ne.mpr hfirst]
            exact hrest

theorem lookup_entries (values : Values) (key : Text) :
    (entries values).lookup key = values.lookup key := by
  by_cases hkey : key ∈ values
  · exact lookup_filterMap _ values ((Finset.mem_sort _).mpr (Finmap.mem_keys.mpr hkey))
  · rw [Finmap.lookup_eq_none.mpr hkey, List.lookup_eq_none_iff]
    intro entry hentry
    obtain ⟨other, hother, hentry⟩ := List.mem_filterMap.mp hentry
    obtain ⟨value, -, rfl⟩ := Option.map_eq_some_iff.mp hentry
    refine bne_iff_ne.mpr ?_
    rintro rfl
    exact hkey (Finmap.mem_keys.mp ((Finset.mem_sort _).mp hother))

theorem nodup_entries (values : Values) : ((entries values).map Prod.fst).Nodup :=
  (map_fst_entries _ values).nodup (Finset.sort_nodup _ _)

theorem mem_of_mem_entries {values : Values} {entry : Text × Text} (hentry : entry ∈ entries values) :
    entry.1 ∈ values := by
  obtain ⟨key, hkey, hentry⟩ := List.mem_filterMap.mp hentry
  obtain ⟨value, -, rfl⟩ := Option.map_eq_some_iff.mp hentry
  exact Finmap.mem_keys.mp ((Finset.mem_sort _).mp hkey)

theorem lookup_merge (file process arguments : Values) (name : Text) :
    (merge file process arguments).lookup name = effective [arguments, process, file] name := by
  have hunion : ∀ first second : Values,
      (first ∪ second).lookup name = (first.lookup name).or (second.lookup name) := by
    intro first second
    by_cases hname : name ∈ first
    · obtain ⟨value, hvalue⟩ := Finmap.mem_iff.mp hname
      rw [Finmap.lookup_union_left hname, hvalue]
      rfl
    · rw [Finmap.lookup_union_right hname, Finmap.lookup_eq_none.mpr hname]
      rfl
  rw [merge, hunion, hunion, effective]
  simp only [List.findSome?_cons, List.findSome?_nil]
  cases arguments.lookup name with
  | some value => rfl
  | none =>
      cases process.lookup name with
      | some value => rfl
      | none => cases file.lookup name <;> rfl

theorem Known.merge {file process arguments : Values} (hfile : Known file)
    (hprocess : Known process) (harguments : Known arguments) :
    Known (merge file process arguments) := by
  intro key hkey
  rcases Finmap.mem_union.mp hkey with hkey | hkey
  · exact harguments key hkey
  · exact (Finmap.mem_union.mp hkey).elim (hprocess key) (hfile key)

theorem toOption_eq_some {ε α : Type} {x : Except ε α} {a : α} : x.toOption = some a ↔ x = .ok a := by
  cases x with
  | ok b => simp [Except.toOption]
  | error failure => simp [Except.toOption]

theorem fromSources_ok {cpus : Nat} {file process arguments : Values} {config : Config}
    (hknown : Known (merge file process arguments)) :
    fromSources cpus file process arguments = .ok config ↔
      configured (.default cpus) (fun setting =>
          effective [arguments, process, file] setting.name) = some config ∧
        config.validate = .ok () := by
  have hfold := foldlM_set (nodup_entries (merge file process arguments))
    (fun entry hentry => hknown _ (mem_of_mem_entries hentry)) (.default cpus)
  simp only [lookup_entries, lookup_merge] at hfold
  rw [fromSources, bind_eq_ok]
  constructor
  · rintro ⟨reached, hreached, hvalid⟩
    rw [hreached] at hfold
    cases hvalidate : reached.validate with
    | error message =>
        rw [hvalidate] at hvalid
        cases hvalid
    | ok _ =>
        rw [hvalidate] at hvalid
        cases hvalid
        exact ⟨hfold.symm, hvalidate⟩
  · rintro ⟨hconfigured, hvalid⟩
    refine ⟨config, toOption_eq_some.mp (hfold.trans hconfigured), ?_⟩
    rw [hvalid]

/-! ### The process environment -/

/-- What the loader makes of a variable: it is passed over, or it sets a name. -/
inductive Reading (variable_ : Bytes × Bytes) : Option (Text × Text) → Prop
  | passed (hkey : ∀ key, decodeUtf8 variable_.1 = some key → ¬ "RECALL_".toList <+: key) :
      Reading variable_ none
  | taken {key value : Text} (hkey : decodeUtf8 variable_.1 = some key) (hname : key ∈ envNames)
      (hvalue : decodeUtf8 variable_.2 = some value) (hlength : utf8Len value ≤ maxEnvLineBytes) :
      Reading variable_ (some (key, value))

def assigned (values : Values) (entry : Option (Text × Text)) : Values :=
  entry.elim values fun entry => values.insert entry.1 entry.2

theorem envNames_marked : ∀ name ∈ envNames, "RECALL_".toList <+: name := by decide

theorem Reading.readVariable_eq {variable_ : Bytes × Bytes} {entry : Option (Text × Text)}
    (h : Reading variable_ entry) (process : Values) :
    readVariable process variable_ = .ok (assigned process entry) := by
  rw [readVariable]
  cases h with
  | passed hkey =>
      cases hdecode : decodeUtf8 variable_.1 with
      | none => rfl
      | some key => exact if_pos (hkey key hdecode)
  | @taken key value hkey hname hvalue hlength =>
      simp only [hkey, hvalue]
      have hvalid : validateName key = true := List.contains_iff_mem.mpr hname
      rw [if_neg (not_not.mpr (envNames_marked key hname)), if_neg (not_not.mpr hvalid),
        if_neg (Nat.not_lt.mpr hlength)]
      rfl

theorem reading_of_readVariable {variable_ : Bytes × Bytes} {process next : Values}
    (hread : readVariable process variable_ = .ok next) :
    ∃ entry, Reading variable_ entry ∧ next = assigned process entry := by
  unfold readVariable at hread
  cases hkey : decodeUtf8 variable_.1 with
  | none =>
      rw [hkey] at hread
      cases hread
      exact ⟨none, .passed fun key hsome => (by rw [hkey] at hsome; cases hsome), rfl⟩
  | some key =>
      simp only [hkey] at hread
      by_cases hmark : "RECALL_".toList <+: key
      · rw [if_neg (not_not.mpr hmark)] at hread
        by_cases hname : validateName key
        · rw [if_neg (not_not.mpr hname)] at hread
          cases hvalue : decodeUtf8 variable_.2 with
          | none =>
              rw [hvalue] at hread
              cases hread
          | some value =>
              simp only [hvalue] at hread
              split at hread
              · cases hread
              · next hlength =>
                  cases hread
                  exact ⟨some (key, value), .taken hkey (List.contains_iff_mem.mp hname) hvalue
                    (Nat.not_lt.mp hlength), rfl⟩
        · rw [if_pos hname] at hread
          cases hread
      · rw [if_pos hmark] at hread
        cases hread
        refine ⟨none, .passed fun other hother => ?_, rfl⟩
        rw [hkey] at hother
        cases hother
        exact hmark

theorem foldlM_readVariable {environment : List (Bytes × Bytes)} {process result : Values} :
    environment.foldlM readVariable process = .ok result ↔
      ∃ entries, List.Forall₂ Reading environment entries ∧
        entries.foldl assigned process = result := by
  induction environment generalizing process with
  | nil =>
      constructor
      · rintro ⟨⟩
        exact ⟨[], .nil, rfl⟩
      · rintro ⟨entries, hentries, rfl⟩
        cases hentries
        rfl
  | cons variable_ environment ih =>
      rw [List.foldlM_cons, bind_eq_ok]
      constructor
      · rintro ⟨next, hnext, hrest⟩
        obtain ⟨entry, hreading, rfl⟩ := reading_of_readVariable hnext
        obtain ⟨entries, hentries, rfl⟩ := ih.mp hrest
        exact ⟨entry :: entries, .cons hreading hentries, rfl⟩
      · rintro ⟨entries, hentries, rfl⟩
        cases hentries with
        | cons hreading hentries =>
            exact ⟨_, hreading.readVariable_eq process, ih.mpr ⟨_, hentries, rfl⟩⟩

/-- Later variables replace earlier ones. -/
theorem lookup_foldl_assigned (entries : List (Option (Text × Text))) (values : Values)
    (name : Text) :
    (entries.foldl assigned values).lookup name =
      ((entries.filterMap id).reverse.lookup name).or (values.lookup name) := by
  induction entries generalizing values with
  | nil => rfl
  | cons entry entries ih =>
      rw [List.foldl_cons, ih]
      cases entry with
      | none => rfl
      | some entry =>
          obtain ⟨key, value⟩ := entry
          rw [List.filterMap_cons, id, List.reverse_cons, List.lookup_append, Option.or_assoc]
          congr 1
          rw [List.lookup_cons, List.lookup_nil]
          by_cases hname : name = key
          · subst hname
            rw [beq_self_eq_true]
            exact Finmap.lookup_insert _
          · rw [beq_eq_false_iff_ne.mpr hname]
            exact Finmap.lookup_insert_of_ne _ hname

theorem readEnvironment_ok {environment : List (Bytes × Bytes)} {process : Values} :
    readEnvironment environment = .ok process ↔
      ∃ entries, List.Forall₂ Reading environment entries ∧
        ∀ name, process.lookup name = (entries.filterMap id).reverse.lookup name := by
  rw [readEnvironment, foldlM_readVariable]
  have hlookup := fun entries name => (lookup_foldl_assigned entries ∅ name).trans
    (by rw [Finmap.lookup_empty, Option.or_none])
  constructor
  · rintro ⟨entries, hentries, rfl⟩
    exact ⟨entries, hentries, hlookup entries⟩
  · rintro ⟨entries, hentries, hprocess⟩
    refine ⟨entries, hentries, Finmap.ext_lookup fun name => ?_⟩
    rw [hprocess, hlookup]

theorem readEnvironment_known {environment : List (Bytes × Bytes)} {process : Values}
    (hread : readEnvironment environment = .ok process) : Known process := by
  obtain ⟨entries, hentries, rfl⟩ := foldlM_readVariable.mp hread
  have hfold : ∀ values, Known values → Known (entries.foldl assigned values) := by
    clear hread
    induction hentries with
    | nil => exact fun values hvalues => hvalues
    | cons hreading _ ih =>
        intro values hvalues
        refine ih _ ?_
        cases hreading with
        | passed hkey => exact hvalues
        | taken hkey hname hvalue hlength => exact hvalues.insert hname _
  exact hfold ∅ .empty

/-! ### The environment file -/

theorem parseTrimmed_known {invalid : SettingsError} {line : Text} {entry : Text × Text}
    (hparse : parseTrimmed invalid line = .ok (some entry)) : entry.1 ∈ envNames := by
  unfold parseTrimmed at hparse
  split at hparse
  · cases hparse
  · split at hparse
    · cases hparse
    · split at hparse
      · next hname =>
          split at hparse
          · cases hparse
          · cases hparse
            exact List.contains_iff_mem.mp hname
      · cases hparse

theorem parseFrom_known {index : Nat} {values result : Values} {lines : List Text}
    (hvalues : Known values) (hparse : parseFrom index values lines = .ok result) :
    Known result := by
  induction lines generalizing index values with
  | nil =>
      cases hparse
      exact hvalues
  | cons line lines ih =>
      obtain ⟨entry, hline, -, hrest⟩ := parseFrom_cons_ok hparse
      refine ih ?_ hrest
      cases entry with
      | none => exact hvalues
      | some entry =>
          rw [parseLine] at hline
          split at hline
          · cases hline
          · exact hvalues.insert (parseTrimmed_known hline) _

theorem readValues_known {contents : Option Bytes} {values : Values}
    (hread : readValues contents = .ok values) : Known values := by
  unfold readValues at hread
  split at hread
  · cases hread
  · split at hread
    · cases hread
    · split at hread
      · cases hread
      · next text hdecode =>
          cases hparse : parseValues text with
          | error failure =>
              rw [hparse] at hread
              cases hread
          | ok result =>
              rw [hparse] at hread
              cases hread
              exact parseFrom_known .empty hparse

theorem readFile_known {options : Options} {openFile : Text → Opened} {file : Values}
    (hread : readFile options openFile = .ok file) : Known file := by
  unfold readFile at hread
  split at hread
  · cases hread
    exact .empty
  · split at hread
    · cases hread
    · cases hread
    · exact readValues_known hread
    · split at hread
      · cases hread
      · cases hread
        exact .empty
    · cases hread

/-! ### The whole -/

theorem load_sources {cpus : Nat} {words : List Text} {environment : List (Bytes × Bytes)}
    {openFile : Text → Opened} {config : Config}
    (hload : load cpus words environment openFile = .ok config) :
    ∃ options process file, parseOptions words = .ok options ∧
      readEnvironment environment = .ok process ∧ readFile options openFile = .ok file ∧
      Known (merge file process options.values) ∧
      fromSources cpus file process options.values = .ok config := by
  simp only [load, bind_eq_ok] at hload
  obtain ⟨options, hoptions, process, hprocess, file, hfile, hsources⟩ := hload
  exact ⟨options, process, file, hoptions, hprocess, hfile, (readFile_known hfile).merge
    (readEnvironment_known hprocess) (parseOptions_known hoptions), hsources⟩

theorem configured_rest {base config : Config} {given : Setting → Option Text}
    (hconfigured : configured base given = some config) :
    config.protocol = base.protocol ∧ config.commands = base.commands ∧
      config.maxReplyBytes = base.maxReplyBytes := by
  simp only [configured, bind, Option.bind_eq_some_iff] at hconfigured
  obtain ⟨_, _, _, _, _, _, _, _, _, _, _, _, _, _, _, _, hconfig⟩ := hconfigured
  cases hconfig
  exact ⟨rfl, rfl, rfl⟩

theorem loopback_of_validate {config : Config} (hvalid : config.validate = .ok ()) :
    config.loopback = true := by
  unfold Config.validate at hvalid
  split at hvalid
  · cases hvalid
  · next hloopback => exact not_not.mp hloopback

theorem shard_new {config : Config} (hvalid : config.Valid) (o : Nat) :
    ∃ shard, Shard.new (config.shardLimits o) = .ok shard ∧ shard.limits = config.shardLimits o := by
  have hpayload : 0 < config.maxPayloadBytes / config.workers :=
    Nat.div_pos hvalid.payload hvalid.workers
  have hreply := hvalid.replyLower
  have hkeys := hvalid.keys
  refine ⟨_, if_neg ?_, rfl⟩
  rintro (hzero | hzero | hsmall)
  · exact hkeys.ne' hzero
  · simp only [Config.shardLimits] at hzero
    omega
  · simp only [Config.shardLimits] at hsmall
    omega

/-- What the loader accepts no later check refuses: every owner gets its shard, every connection its
decoder, and the shards share the payload budget out exactly. -/
theorem loaded_starts {cpus : Nat} {words : List Text} {environment : List (Bytes × Bytes)}
    {openFile : Text → Opened} {config : Config}
    (hload : load cpus words environment openFile = .ok config)
    (route : Bytes → Fin config.workers) (clock : I64) :
    config.loopback = true ∧ config.protocol = .default ∧ config.commands = .default ∧
      (∃ decoder, Decoder.new config.protocol = .ok decoder) ∧
      ∃ shards, Server.Reaches config route shards [] (.start config shards clock) ∧
        ∑ o, (shards o).limits.maxPayloadBytes = config.maxPayloadBytes := by
  obtain ⟨options, process, file, -, -, -, hknown, hsources⟩ := load_sources hload
  obtain ⟨hconfigured, hvalidate⟩ := (fromSources_ok hknown).mp hsources
  obtain ⟨hprotocol, hcommands, -⟩ := configured_rest hconfigured
  have hvalid := Config.valid_of_validate hvalidate
  choose shards hnew hlimits using fun o : Fin config.workers => shard_new hvalid o
  refine ⟨loopback_of_validate hvalidate, hprotocol, hcommands, ?_, shards, .start hnew, ?_⟩
  · rw [hprotocol]
    exact ⟨_, rfl⟩
  · simp only [hlimits, Config.shardLimits]
    exact sum_apportioned config.maxPayloadBytes hvalid.workers

/-- The defaults on a machine with four threads. -/
theorem loaded_starts_default : ∃ config, ∃ worker : Fin config.workers,
    load 4 ["--no-env-file".toList] [] (fun _ => .failed []) = .ok config ∧
      ∃ shards, Server.Reaches config (fun _ => worker) shards [] (.start config shards 0) := by
  obtain ⟨config, hload, hworkers⟩ := @exists_of_okAnd _ _ (load 4 ["--no-env-file".toList] []
    fun _ => .failed []) (fun config => 0 < config.workers) (by decide +kernel)
  refine ⟨config, ⟨0, of_decide_eq_true hworkers⟩, hload, ?_⟩
  obtain ⟨-, -, -, -, shards, hreaches, -⟩ := loaded_starts hload (fun _ => ⟨0, _⟩) 0
  exact ⟨shards, hreaches⟩

end Recall.Settings
