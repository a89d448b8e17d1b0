import McpSsh.ConfigText

/-!
# Writing a configuration and reading it back

The tables a written configuration parses into validate as that configuration.
With the reading of the text this gives the round trip of `app_config_to_toml`
for every configuration whose strings need no quoting.
-/

set_option autoImplicit false

namespace McpSsh

open Base Toml

section

variable {rt : Runtime}

theorem lookup_optionalField {α : Type} (k key : String) (emit : α → Emitted) (field : Option α) :
    lookup k (fieldTable (optionalField key emit field)) =
      if key = k then field.map fun a => (emit a).value else none := by
  cases field with
  | none => simp [optionalField, fieldTable, lookup]
  | some a => by_cases same : key = k <;> simp [optionalField, fieldTable, lookup, same]

theorem lookup_envField (k : String) (env : Dict String String) :
    lookup k (fieldTable (envField env)) =
      if "default_env" = k ∧ env.items ≠ [] then some (.table (env.items.map fun e => (e.1, .str e.2))) else none := by
  unfold envField
  by_cases none_ : env.items = []
  · simp [none_, fieldTable, lookup]
  · by_cases same : "default_env" = k <;> simp [none_, fieldTable, lookup, same, Emitted.value]

/-- A required field that is present and reads back. -/
theorem required_eq {α : Type} {read : List String → Value → Except (List String) α} {path : List String} {t : Table}
    {key : String} {v : Value} {a : α} (found : lookup key t = some v) (reads : read (path ++ [key]) v = .ok a) :
    required read path t key = .ok a := by
  simp [required, found, reads]

theorem withDefault_eq {α : Type} {read : List String → Value → Except (List String) α} {path : List String} {t : Table}
    {key : String} {v : Value} {a default : α} (found : lookup key t = some v) (reads : read (path ++ [key]) v = .ok a) :
    withDefault read path t key default = .ok a := by
  simp [withDefault, found, reads]

/-- An optional field is written exactly when it is there. -/
theorem optional_eq {α : Type} {read : List String → Value → Except (List String) α} {path : List String} {t : Table}
    {key : String} (value : α → Value) {field : Option α} (found : lookup key t = field.map value)
    (reads : ∀ a, read (path ++ [key]) (value a) = .ok a) : optional read path t key = .ok field := by
  cases field with
  | none => simp [optional, withDefault, found]
  | some a => simp [optional, withDefault, found, reads, Except.map]

theorem asEnum_value {α : Type} {all : List α} {value : α → String} (total : ∀ a, ofValue all value (value a) = some a)
    (field : List String) (a : α) : asEnum all value field (.str (value a)) = .ok a := by
  simp [asEnum, asStr, total, bind, Except.bind]

/-- A dictionary written item by item is read back. -/
theorem asDict_items {α : Type} {read : List String → Value → Except (List String) α} {path : List String}
    {d : Dict String α} (value : String × α → Value)
    (reads : ∀ e ∈ d.items, read (path ++ [e.1]) (value e) = .ok e.2) :
    asDict read path (.table (d.items.map fun e => (e.1, value e))) = .ok d := by
  obtain ⟨r, result, items⟩ := Dict.foldlM_insert (fun e : String × α => read (path ++ [e.1]) (value e)) Prod.fst
    Prod.snd reads Dict.empty (by simpa using d.nodup)
  have same : r = d := Dict.ext_items (by simpa [Dict.empty] using items)
  simp only [asDict, asTable, bind, Except.bind, List.foldlM_map]
  rw [same] at result
  exact result

theorem fieldTable_append (fs gs : List Field) : fieldTable (fs ++ gs) = fieldTable fs ++ fieldTable gs := by
  simp [fieldTable]

theorem asStr_str (field : List String) (s : String) : asStr field (.str s) = .ok s := rfl

theorem asInt_int (field : List String) (n : Int) : asInt rt field (.int n) = .ok n := rfl

/-- The value under `k` in the table of a server. -/
theorem lookup_serverFields (k : String) (srv : ServerConfig) :
    lookup k (fieldTable (serverFields srv)) =
      ((((((((((((lookup k [("name", .str srv.name), ("host", .str srv.host), ("port", .int srv.port),
        ("user", .str srv.user), ("auth_type", .str srv.authType.value)]).or
      (if "key_path" = k then srv.keyPath.map .str else none)).or
      (if "cert_path" = k then srv.certPath.map .str else none)).or
      (if "password_env" = k then srv.passwordEnv.map .str else none)).or
      (if "jump_host" = k then srv.jumpHost.map .str else none)).or
      (if "host_key_policy" = k then srv.hostKeyPolicy.map fun p => .str p.value else none)).or
      (if "default_cwd" = k then srv.defaultCwd.map .str else none)).or
      (lookup k (fieldTable (envField srv.defaultEnv)))).or
      (if "max_sessions" = k then srv.maxSessions.map .int else none)).or
      (if "keepalive_interval" = k then srv.keepaliveInterval.map .int else none)).or
      (if "note" = k then srv.note.map .str else none))) := by
  simp only [serverFields, fieldTable_append, lookup_append, lookup_optionalField]
  rfl

theorem validateServer_serverFields (path : List String) (srv : ServerConfig) :
    validateServer rt path (.table (fieldTable (serverFields srv))) = .ok srv := by
  have look := fun k => lookup_serverFields k srv
  simp only [lookup_envField, lookup_cons, lookup_nil] at look
  have name : required asStr path (fieldTable (serverFields srv)) "name" = .ok srv.name :=
    required_eq (by simp [look]) (asStr_str _ _)
  have host : required asStr path (fieldTable (serverFields srv)) "host" = .ok srv.host :=
    required_eq (by simp [look]) (asStr_str _ _)
  have port : withDefault (asInt rt) path (fieldTable (serverFields srv)) "port" 22 = .ok srv.port :=
    withDefault_eq (by simp [look]) (asInt_int _ _)
  have user : required asStr path (fieldTable (serverFields srv)) "user" = .ok srv.user :=
    required_eq (by simp [look]) (asStr_str _ _)
  have authType : required (asEnum AuthType.all AuthType.value) path (fieldTable (serverFields srv)) "auth_type" =
      .ok srv.authType :=
    required_eq (by simp [look]) (asEnum_value AuthType.ofValue_value _ _)
  have keyPath : optional asStr path (fieldTable (serverFields srv)) "key_path" = .ok srv.keyPath :=
    optional_eq .str (by simp [look]) (asStr_str _)
  have certPath : optional asStr path (fieldTable (serverFields srv)) "cert_path" = .ok srv.certPath :=
    optional_eq .str (by simp [look]) (asStr_str _)
  have passwordEnv : optional asStr path (fieldTable (serverFields srv)) "password_env" = .ok srv.passwordEnv :=
    optional_eq .str (by simp [look]) (asStr_str _)
  have jumpHost : optional asStr path (fieldTable (serverFields srv)) "jump_host" = .ok srv.jumpHost :=
    optional_eq .str (by simp [look]) (asStr_str _)
  have hostKeyPolicy : optional (asEnum HostKeyPolicy.all HostKeyPolicy.value) path (fieldTable (serverFields srv))
      "host_key_policy" = .ok srv.hostKeyPolicy :=
    optional_eq (fun p => .str p.value) (by simp [look]) (asEnum_value HostKeyPolicy.ofValue_value _)
  have defaultCwd : optional asStr path (fieldTable (serverFields srv)) "default_cwd" = .ok srv.defaultCwd :=
    optional_eq .str (by simp [look]) (asStr_str _)
  have defaultEnv : withDefault (asDict asStr) path (fieldTable (serverFields srv)) "default_env" Dict.empty =
      .ok srv.defaultEnv := by
    by_cases none_ : srv.defaultEnv.items = []
    · have same : srv.defaultEnv = Dict.empty := Dict.ext_items none_
      have absent : lookup "default_env" (fieldTable (serverFields srv)) = none := by simp [look, none_]
      rw [withDefault, absent, same]
    · exact withDefault_eq (by simp [look, none_]) (asDict_items (fun e => .str e.2) fun e _ => asStr_str _ e.2)
  have maxSessions : optional (asInt rt) path (fieldTable (serverFields srv)) "max_sessions" = .ok srv.maxSessions :=
    optional_eq .int (by simp [look]) (asInt_int _)
  have keepalive : optional (asInt rt) path (fieldTable (serverFields srv)) "keepalive_interval" =
      .ok srv.keepaliveInterval :=
    optional_eq .int (by simp [look]) (asInt_int _)
  have note : optional asStr path (fieldTable (serverFields srv)) "note" = .ok srv.note :=
    optional_eq .str (by simp [look]) (asStr_str _)
  simp only [validateServer, asTable, bind, Except.bind, pure, Except.pure, name, host, port, user, authType, keyPath,
    certPath, passwordEnv, jumpHost, hostKeyPolicy, defaultCwd, defaultEnv, maxSessions, keepalive, note]

theorem validateSettings_settingsFields (path : List String) (s : GlobalSettings) :
    validateSettings rt path (.table (fieldTable (settingsFields s))) = .ok s := by
  simp [validateSettings, settingsFields, fieldTable, asTable, withDefault, lookup_cons, Emitted.value,
    asStr_str, asInt_int, asEnum_value HostKeyPolicy.ofValue_value, bind, Except.bind, pure, Except.pure]

/-- **The tables of a configuration validate as that configuration.** -/
theorem validateConfig_documentTable (cfg : AppConfig) :
    validateConfig rt (documentTable (fieldTable (settingsFields cfg.settings)) (cfg.servers.items.map serverEntry)) =
      .ok cfg := by
  have settings : withDefault (validateSettings rt) [] (documentTable (fieldTable (settingsFields cfg.settings))
      (cfg.servers.items.map serverEntry)) "settings" {} = .ok cfg.settings :=
    withDefault_eq (by simp [documentTable, lookup_cons]) (validateSettings_settingsFields _ _)
  have servers : withDefault (asDict (validateServer rt)) [] (documentTable (fieldTable (settingsFields cfg.settings))
      (cfg.servers.items.map serverEntry)) "servers" Dict.empty = .ok cfg.servers := by
    by_cases none_ : cfg.servers.items = []
    · have same : cfg.servers = Dict.empty := Dict.ext_items none_
      have absent : lookup "servers" (documentTable (fieldTable (settingsFields cfg.settings))
          (cfg.servers.items.map serverEntry)) = none := by simp [documentTable, lookup_cons, lookup_nil, none_]
      rw [withDefault, absent, same]
    · refine withDefault_eq ?_ (asDict_items (fun e => .table (fieldTable (serverFields e.2)))
        fun e _ => validateServer_serverFields _ e.2)
      simp [documentTable, lookup_cons, none_, serverEntry]
  simp only [validateConfig, settings, servers, bind, Except.bind, pure, Except.pure]

/-- Parsing the written text and validating it gives the configuration back. -/
def RoundTrips (rt : Runtime) (cfg : AppConfig) : Prop :=
  ∃ t, loads (appConfigToToml cfg) = .ok t ∧ validateConfig rt t = .ok cfg

theorem roundTrips_of_writable (rt : Runtime) {cfg : AppConfig} (writable : Writable cfg) : RoundTrips rt cfg :=
  ⟨_, loads_appConfigToToml writable, validateConfig_documentTable cfg⟩

end

end McpSsh
