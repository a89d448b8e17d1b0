import McpSsh.Config
import McpSsh.Toml.Section

/-!
# The configuration as text

`app_config_to_toml` writes every string and every table key as it is. The text
is read back as the same configuration when none of them needs quoting or an
escape.
-/

set_option autoImplicit false

namespace McpSsh

open Base Toml

/-! ## The emitter -/

/-- `key = "value"`. -/
def textLine (key value : String) : String := key ++ " = " ++ ("\"" ++ value ++ "\"")

/-- `key = n`. -/
def intLine (key : String) (n : Int) : String := key ++ " = " ++ toString n

/-- A line that is written unless the field is `None`. -/
def optionalLine {α : Type} (line : α → String) (field : Option α) : List String :=
  match field with
  | some a => [line a]
  | none => []

/-- `default_env = { KEY = "val", ... }`, unless it is empty. -/
def envLines (env : Dict String String) : List String :=
  if env.items.isEmpty then []
  else ["default_env" ++ " = " ++ ("\x7b " ++ ", ".intercalate (env.items.map pairText) ++ " \x7d")]

/-- The `[settings]` part. -/
def settingsLines (s : GlobalSettings) : List String :=
  ["[settings]",
    textLine "known_hosts_file" s.knownHostsFile,
    textLine "default_host_key_policy" s.defaultHostKeyPolicy.value,
    textLine "audit_log" s.auditLog,
    textLine "state_file" s.stateFile,
    intLine "max_sessions" s.maxSessions,
    intLine "keepalive_interval" s.keepaliveInterval,
    intLine "keepalive_count_max" s.keepaliveCountMax,
    intLine "connect_timeout" s.connectTimeout,
    textLine "default_encoding" s.defaultEncoding,
    ""]

/-- The `[servers.name]` part of one server. -/
def serverLines (name : String) (srv : ServerConfig) : List String :=
  ["[" ++ ("servers." ++ name) ++ "]",
    textLine "name" srv.name,
    textLine "host" srv.host,
    intLine "port" srv.port,
    textLine "user" srv.user,
    textLine "auth_type" srv.authType.value] ++
  optionalLine (textLine "key_path") srv.keyPath ++
  optionalLine (textLine "cert_path") srv.certPath ++
  optionalLine (textLine "password_env") srv.passwordEnv ++
  optionalLine (textLine "jump_host") srv.jumpHost ++
  optionalLine (fun p => textLine "host_key_policy" p.value) srv.hostKeyPolicy ++
  optionalLine (textLine "default_cwd") srv.defaultCwd ++
  envLines srv.defaultEnv ++
  optionalLine (intLine "max_sessions") srv.maxSessions ++
  optionalLine (intLine "keepalive_interval") srv.keepaliveInterval ++
  optionalLine (textLine "note") srv.note ++
  [""]

/-- The lines of the whole file. -/
def configLines (cfg : AppConfig) : List String :=
  settingsLines cfg.settings ++ cfg.servers.items.flatMap fun e => serverLines e.1 e.2

/-- `app_config_to_toml`. -/
def appConfigToToml (cfg : AppConfig) : String := "\n".intercalate (configLines cfg)

/-! ## The fields behind the lines -/

/-- An optional field is one pair, or none. -/
def optionalField {α : Type} (key : String) (emit : α → Emitted) (field : Option α) : List Field :=
  match field with
  | some a => [(key, emit a)]
  | none => []

def envField (env : Dict String String) : List Field :=
  if env.items.isEmpty then [] else [("default_env", .pairs env.items)]

def settingsFields (s : GlobalSettings) : List Field :=
  [("known_hosts_file", .text s.knownHostsFile),
    ("default_host_key_policy", .text s.defaultHostKeyPolicy.value),
    ("audit_log", .text s.auditLog),
    ("state_file", .text s.stateFile),
    ("max_sessions", .int s.maxSessions),
    ("keepalive_interval", .int s.keepaliveInterval),
    ("keepalive_count_max", .int s.keepaliveCountMax),
    ("connect_timeout", .int s.connectTimeout),
    ("default_encoding", .text s.defaultEncoding)]

def serverFields (srv : ServerConfig) : List Field :=
  [("name", .text srv.name),
    ("host", .text srv.host),
    ("port", .int srv.port),
    ("user", .text srv.user),
    ("auth_type", .text srv.authType.value)] ++
  optionalField "key_path" .text srv.keyPath ++
  optionalField "cert_path" .text srv.certPath ++
  optionalField "password_env" .text srv.passwordEnv ++
  optionalField "jump_host" .text srv.jumpHost ++
  optionalField "host_key_policy" (fun p => .text p.value) srv.hostKeyPolicy ++
  optionalField "default_cwd" .text srv.defaultCwd ++
  envField srv.defaultEnv ++
  optionalField "max_sessions" .int srv.maxSessions ++
  optionalField "keepalive_interval" .int srv.keepaliveInterval ++
  optionalField "note" .text srv.note

theorem map_optionalField {α : Type} (key : String) (emit : α → Emitted) (field : Option α) :
    (optionalField key emit field).map fieldLine = optionalLine (fun a => key ++ " = " ++ (emit a).source) field := by
  cases field <;> rfl

theorem map_envField (env : Dict String String) : (envField env).map fieldLine = envLines env := by
  unfold envField envLines
  split <;> rfl

theorem settingsLines_eq (s : GlobalSettings) :
    settingsLines s = "[settings]" :: (settingsFields s).map fieldLine ++ [""] := rfl

theorem serverLines_eq (name : String) (srv : ServerConfig) :
    serverLines name srv = ("[" ++ ("servers." ++ name) ++ "]") :: (serverFields srv).map fieldLine ++ [""] := by
  simp only [serverFields, List.map_append, map_optionalField, map_envField]
  rfl

/-! ## What can be written -/

/-- Every string of a server is written the way it is read, and its key is bare. -/
structure WritableServer (name : String) (srv : ServerConfig) : Prop where
  bareName : isBareKey name = true
  name : isPlain srv.name = true
  host : isPlain srv.host = true
  user : isPlain srv.user = true
  keyPath : ∀ s, srv.keyPath = some s → isPlain s = true
  certPath : ∀ s, srv.certPath = some s → isPlain s = true
  passwordEnv : ∀ s, srv.passwordEnv = some s → isPlain s = true
  jumpHost : ∀ s, srv.jumpHost = some s → isPlain s = true
  defaultCwd : ∀ s, srv.defaultCwd = some s → isPlain s = true
  defaultEnv : ∀ e ∈ srv.defaultEnv.items, isBareKey e.1 = true ∧ isPlain e.2 = true
  note : ∀ s, srv.note = some s → isPlain s = true

structure WritableSettings (s : GlobalSettings) : Prop where
  knownHostsFile : isPlain s.knownHostsFile = true
  auditLog : isPlain s.auditLog = true
  stateFile : isPlain s.stateFile = true
  defaultEncoding : isPlain s.defaultEncoding = true

/-- Server and environment names are bare keys, and no other string holds a
quote, a backslash or a control character. -/
structure Writable (cfg : AppConfig) : Prop where
  settings : WritableSettings cfg.settings
  servers : ∀ e ∈ cfg.servers.items, WritableServer e.1 e.2

/-! ## Keys and values of the fields -/

def serverKeys : List String :=
  ["name", "host", "port", "user", "auth_type", "key_path", "cert_path", "password_env", "jump_host",
    "host_key_policy", "default_cwd", "default_env", "max_sessions", "keepalive_interval", "note"]

theorem keys_optionalField {α : Type} (key : String) (emit : α → Emitted) (field : Option α) :
    ((optionalField key emit field).map Prod.fst).Sublist [key] := by
  cases field <;> simp [optionalField]

theorem keys_envField (env : Dict String String) : ((envField env).map Prod.fst).Sublist ["default_env"] := by
  unfold envField
  split <;> simp

theorem keys_serverFields (srv : ServerConfig) : ((serverFields srv).map Prod.fst).Sublist serverKeys := by
  have split : serverKeys = ["name", "host", "port", "user", "auth_type"] ++ ["key_path"] ++ ["cert_path"] ++
      ["password_env"] ++ ["jump_host"] ++ ["host_key_policy"] ++ ["default_cwd"] ++ ["default_env"] ++
      ["max_sessions"] ++ ["keepalive_interval"] ++ ["note"] := rfl
  rw [split]
  simp only [serverFields, List.map_append]
  refine .append (.append (.append (.append (.append (.append (.append (.append (.append (.append ?_ ?_) ?_) ?_) ?_) ?_)
    ?_) ?_) ?_) ?_) ?_
  · exact List.Sublist.refl _
  all_goals first | exact keys_optionalField _ _ _ | exact keys_envField _

theorem bare_serverFields {srv : ServerConfig} {f : Field} (member : f ∈ serverFields srv) : isBareKey f.1 = true := by
  have bare : ∀ k ∈ serverKeys, isBareKey k = true := by decide
  exact bare _ ((keys_serverFields srv).subset (List.mem_map_of_mem member))

theorem distinct_serverFields (srv : ServerConfig) : ((serverFields srv).map Prod.fst).Nodup :=
  (keys_serverFields srv).nodup (by decide)

theorem mem_optionalField {α : Type} {key : String} {emit : α → Emitted} {field : Option α} {f : Field} :
    f ∈ optionalField key emit field ↔ ∃ a, field = some a ∧ f = (key, emit a) := by
  cases field <;> simp [optionalField]

theorem isPlain_authType (a : AuthType) : isPlain a.value = true := by
  cases a <;> decide

theorem isPlain_hostKeyPolicy (p : HostKeyPolicy) : isPlain p.value = true := by
  cases p <;> decide

theorem faithful_serverFields {name : String} {srv : ServerConfig} (writable : WritableServer name srv) {f : Field}
    (member : f ∈ serverFields srv) : f.2.Faithful := by
  simp only [serverFields, List.mem_append, mem_optionalField, List.mem_cons, List.not_mem_nil, or_false] at member
  rcases member with
    ((((((((((rfl | rfl | rfl | rfl | rfl) | ⟨s, given, rfl⟩) | ⟨s, given, rfl⟩) | ⟨s, given, rfl⟩) | ⟨s, given, rfl⟩) |
      ⟨p, -, rfl⟩) | ⟨s, given, rfl⟩) | env) | ⟨n, -, rfl⟩) | ⟨n, -, rfl⟩) | ⟨s, given, rfl⟩
  · exact writable.name
  · exact writable.host
  · exact True.intro
  · exact writable.user
  · exact isPlain_authType _
  · exact writable.keyPath s given
  · exact writable.certPath s given
  · exact writable.passwordEnv s given
  · exact writable.jumpHost s given
  · exact isPlain_hostKeyPolicy p
  · exact writable.defaultCwd s given
  · unfold envField at env
    split at env
    · simp at env
    · rename_i nonempty
      simp only [List.mem_singleton] at env
      subst env
      exact ⟨by simpa using nonempty, writable.defaultEnv, srv.defaultEnv.nodup⟩
  · exact True.intro
  · exact True.intro
  · exact writable.note s given

theorem faithful_settingsFields {s : GlobalSettings} (writable : WritableSettings s) {f : Field}
    (member : f ∈ settingsFields s) : f.2.Faithful := by
  simp only [settingsFields, List.mem_cons, List.not_mem_nil, or_false] at member
  rcases member with rfl | rfl | rfl | rfl | rfl | rfl | rfl | rfl | rfl
  · exact writable.knownHostsFile
  · exact isPlain_hostKeyPolicy _
  · exact writable.auditLog
  · exact writable.stateFile
  · exact True.intro
  · exact True.intro
  · exact True.intro
  · exact True.intro
  · exact writable.defaultEncoding

/-! ## The document behind the text -/

/-- The tables of the document; `servers` appears with the first server. -/
def documentTable (settings : Table) (servers : Table) : Table :=
  ("settings", .table settings) :: if servers.isEmpty then [] else [("servers", .table servers)]

def serverEntry (e : String × ServerConfig) : String × Value := (e.1, .table (fieldTable (serverFields e.2)))

theorem focus_settings : Focus ["settings"] fun t => documentTable t [] := by
  intro f t t' result
  simp [documentTable, updateNest, lookup, result, assign, bind, Except.bind, pure, Except.pure]

theorem focus_server {settings servers : Table} {name : String} (fresh : lookup name servers = none) :
    Focus ["servers", name] fun t => documentTable settings (servers ++ [(name, .table t)]) := by
  intro f t t' result
  have inner : updateNest true f [name] (servers ++ [(name, .table t)]) = .ok (servers ++ [(name, .table t')]) := by
    rw [updateNest_table [] (lookup_append_fresh fresh) result, assign_append fresh]
  have outer : lookup "servers" (documentTable settings (servers ++ [(name, .table t)])) =
      some (.table (servers ++ [(name, .table t)])) := by
    simp [documentTable, lookup]
  rw [updateNest_table [name] outer inner]
  simp [documentTable, assign]

theorem created_server (settings : Table) {servers : Table} {name : String} (fresh : lookup name servers = none) :
    updateNest true .ok ["servers", name] (documentTable settings servers) =
      .ok (documentTable settings (servers ++ [(name, .table [])])) := by
  have inner : updateNest true .ok [name] servers = .ok (servers ++ [(name, .table [])]) :=
    updateNest_missing fresh rfl
  cases servers with
  | nil =>
    rw [updateNest_missing (by simp [documentTable, lookup]) inner]
    simp [documentTable]
  | cons e servers =>
    have outer : lookup "servers" (documentTable settings (e :: servers)) = some (.table (e :: servers)) := by
      simp [documentTable, lookup]
    rw [updateNest_table [name] outer inner]
    simp [documentTable, assign]

/-- What the flags hold once the settings and the servers in `done` are read. -/
structure MarksOf (done : List String) (flags : Flags) : Prop where
  frozen : ∀ m ∈ flags, m.flag = .frozen → m.key.length = 3
  opened : ∀ m ∈ flags, m.flag = .explicitNest →
    m.recursive = false ∧ (m.key = ["settings"] ∨ ∃ name ∈ done, m.key = ["servers", name])

theorem MarksOf.not_frozen {done : List String} {flags : Flags} (marks : MarksOf done flags) (name : String) :
    flags.has ["servers", name] .frozen = false := by
  by_contra has
  simp only [Flags.has, Bool.not_eq_false, List.any_eq_true, Bool.and_eq_true, decide_eq_true_eq,
    Bool.or_eq_true, List.isPrefixOf_iff_prefix] at has
  obtain ⟨m, member, flag, same | ⟨-, inside⟩⟩ := has
  · have length := marks.frozen m member flag
    simp [same] at length
  · have length := marks.frozen m member flag
    have bound := inside.length_le
    simp [length] at bound

theorem MarksOf.not_opened {done : List String} {flags : Flags} (marks : MarksOf done flags) {name : String}
    (new : name ∉ done) : flags.has ["servers", name] .explicitNest = false := by
  by_contra has
  simp only [Flags.has, Bool.not_eq_false, List.any_eq_true, Bool.and_eq_true, decide_eq_true_eq,
    Bool.or_eq_true, List.isPrefixOf_iff_prefix] at has
  obtain ⟨m, member, flag, same | ⟨everywhere, -⟩⟩ := has
  · obtain ⟨-, settings | ⟨other, earlier, key⟩⟩ := marks.opened m member flag
    · simp [same] at settings
    · rw [same, List.cons.injEq, List.cons.injEq] at key
      exact new (key.2.1 ▸ earlier)
  · rw [(marks.opened m member flag).1] at everywhere
    cases everywhere

theorem MarksOf.server {done : List String} {flags : Flags} (marks : MarksOf done flags) (name : String)
    (fields : List Field) :
    MarksOf (done ++ [name]) (freezeAll ["servers", name] fields (flags.set ["servers", name] .explicitNest false)) := by
  have before : ∀ m ∈ flags.set ["servers", name] .explicitNest false,
      m ∈ flags ∨ m = ⟨["servers", name], .explicitNest, false⟩ := by
    simp [Flags.set]
  refine ⟨fun m member flag => ?_, fun m member flag => ?_⟩
  · rcases mem_freezeAll _ member with earlier | ⟨-, length⟩
    · rcases before m earlier with old | rfl
      · exact marks.frozen m old flag
      · cases flag
    · exact length
  · rcases mem_freezeAll _ member with earlier | ⟨other, -⟩
    · rcases before m earlier with old | rfl
      · obtain ⟨flat, settings | ⟨server, found, key⟩⟩ := marks.opened m old flag
        · exact ⟨flat, .inl settings⟩
        · exact ⟨flat, .inr ⟨server, by simp [found], key⟩⟩
      · exact ⟨rfl, .inr ⟨name, by simp, rfl⟩⟩
    · rw [flag] at other
      cases other

/-- The lines of one server without the blank line after it. -/
def serverBody (e : String × ServerConfig) : List String :=
  ("[" ++ ("servers." ++ e.1) ++ "]") :: (serverFields e.2).map fieldLine

theorem lookup_eq_none_iff {k : String} {t : Table} : lookup k t = none ↔ k ∉ t.map Prod.fst := by
  simp only [lookup, Option.map_eq_none_iff, List.find?_eq_none, decide_eq_true_eq, List.mem_map, not_exists, not_and]

theorem parseKey_server {name : String} (bare : isBareKey name = true) (rest : List Char) (n : Nat) :
    parseKey (n + 2) (("servers." ++ name).toList ++ ']' :: rest) = .ok (["servers", name], ']' :: rest) := by
  have source : ("servers." ++ name).toList ++ ']' :: rest =
      "servers".toList ++ '.' :: (name.toList ++ ']' :: rest) := by
    rw [String.toList_append, List.append_assoc]
    rfl
  rw [source]
  exact parseKey_header (by decide) bare rest n

theorem visible_server (name : String) (c : Char) (first : ("servers." ++ name).toList.head? = some c) :
    isBareKeyChar c = true := by
  simp only [String.toList_append] at first
  cases first
  decide

theorem new_of_nodup {e : String × ServerConfig} {done todo : List (String × ServerConfig)}
    (distinct : ((done ++ e :: todo).map Prod.fst).Nodup) : e.1 ∉ done.map Prod.fst := by
  intro member
  rw [List.map_append, List.nodup_append] at distinct
  exact distinct.2.2 _ member _ (by simp) rfl

theorem lookup_serverEntry {name : String} {done : List (String × ServerConfig)} (new : name ∉ done.map Prod.fst) :
    lookup name (done.map serverEntry) = none := by
  rw [lookup_eq_none_iff, List.map_map]
  exact new

/-- The section of a new server with some fields. -/
theorem reads_server (settings : Table) {done : List (String × ServerConfig)} {name : String}
    (bareName : isBareKey name = true) (new : name ∉ done.map Prod.fst) {fields : List Field}
    (bare : ∀ f ∈ fields, isBareKey f.1 = true) (faithful : ∀ f ∈ fields, f.2.Faithful)
    (distinct : (fields.map Prod.fst).Nodup) {flags : Flags} (marks : MarksOf (done.map Prod.fst) flags) (header : Key) :
    ReadsAll (("[" ++ ("servers." ++ name) ++ "]") :: fields.map fieldLine)
      ⟨documentTable settings (done.map serverEntry), flags, [], header⟩
      ⟨documentTable settings (done.map serverEntry ++ [(name, .table (fieldTable fields))]),
        freezeAll ["servers", name] fields (flags.set ["servers", name] .explicitNest false), [], ["servers", name]⟩ :=
  reads_section (parseKey_server bareName) (visible_server name) (by simp [String.toList_append]) bare faithful distinct
    (focus_server (lookup_serverEntry new)) (created_server settings (lookup_serverEntry new)) header
    (marks.not_opened new) (marks.not_frozen name)

/-- Reading the servers in `todo` adds them to those in `done`. -/
theorem reads_servers (settings : Table) {todo : List (String × ServerConfig)} (done : List (String × ServerConfig))
    (writable : ∀ e ∈ todo, WritableServer e.1 e.2) (distinct : ((done ++ todo).map Prod.fst).Nodup) {flags : Flags}
    (marks : MarksOf (done.map Prod.fst) flags) (header : Key) :
    ∃ flags' header', ReadsAll (todo.flatMap fun e => "" :: serverBody e)
      ⟨documentTable settings (done.map serverEntry), flags, [], header⟩
      ⟨documentTable settings ((done ++ todo).map serverEntry), flags', [], header'⟩ := by
  induction todo generalizing done flags header with
  | nil => exact ⟨flags, header, by simpa using ReadsAll.nil⟩
  | cons e todo ih =>
    have here := writable e List.mem_cons_self
    have server := reads_server settings here.bareName (new_of_nodup distinct) (fun f => bare_serverFields)
      (fun f => faithful_serverFields here) (distinct_serverFields e.2) marks header
    obtain ⟨flags', header', rest⟩ := ih (done ++ [e]) (fun f member => writable f (by simp [member]))
      (by simpa using distinct) (by simpa using marks.server e.1 (serverFields e.2)) ["servers", e.1]
    refine ⟨flags', header', ?_⟩
    rw [List.flatMap_cons]
    refine .append (.cons (reads_blank _) server) ?_
    simpa [serverEntry] using rest

/-- The blank line between two sections may be counted to either. -/
theorem configLines_eq (cfg : AppConfig) :
    configLines cfg = ("[settings]" :: (settingsFields cfg.settings).map fieldLine ++
      cfg.servers.items.flatMap fun e => "" :: serverBody e) ++ [""] := by
  have shift : ∀ (items : List (String × ServerConfig)) (before : List String),
      (before ++ [""]) ++ items.flatMap (fun e => serverLines e.1 e.2) =
        (before ++ items.flatMap fun e => "" :: serverBody e) ++ [""] := by
    intro items
    induction items with
    | nil => simp
    | cons e items ih =>
      intro before
      have step := ih (before ++ "" :: serverBody e)
      rw [List.flatMap_cons, List.flatMap_cons, serverLines_eq]
      simpa [serverBody] using step
  rw [configLines, settingsLines_eq]
  exact shift _ _

theorem clean_servers {items : List (String × ServerConfig)} (writable : ∀ e ∈ items, WritableServer e.1 e.2) :
    ∀ line ∈ items.flatMap fun e => "" :: serverBody e, '\r' ∉ line.toList := by
  intro line member
  simp only [List.mem_flatMap, List.mem_cons, serverBody] at member
  obtain ⟨e, inside, rfl | rfl | field⟩ := member
  · simp
  · have name : '\r' ∉ e.1.toList := fun member =>
      absurd ((isBareKey_iff.mp (writable e inside).bareName).2 _ member) (by decide)
    simp only [String.toList_append, List.mem_append, not_or]
    exact ⟨⟨by decide, by decide, name⟩, by decide⟩
  · obtain ⟨f, inFields, rfl⟩ := List.mem_map.mp field
    exact return_not_mem_fieldLine (bare_serverFields inFields) (faithful_serverFields (writable e inside) inFields)

theorem bare_settingsFields {s : GlobalSettings} {f : Field} (member : f ∈ settingsFields s) : isBareKey f.1 = true := by
  have bare : ∀ k ∈ (settingsFields s).map Prod.fst, isBareKey k = true := by
    simp only [settingsFields, List.map_cons, List.map_nil]
    decide
  exact bare _ (List.mem_map_of_mem member)

theorem distinct_settingsFields (s : GlobalSettings) : ((settingsFields s).map Prod.fst).Nodup := by
  simp only [settingsFields, List.map_cons, List.map_nil]
  decide

/-- The `[settings]` section at the start of a document. -/
theorem reads_settings {fields : List Field} (bare : ∀ f ∈ fields, isBareKey f.1 = true)
    (faithful : ∀ f ∈ fields, f.2.Faithful) (distinct : (fields.map Prod.fst).Nodup) :
    ReadsAll ("[settings]" :: fields.map fieldLine) Doc.initial
      ⟨documentTable (fieldTable fields) [], freezeAll ["settings"] fields (Flags.set [] ["settings"] .explicitNest false),
        [], ["settings"]⟩ := by
  have header : ∀ (rest : List Char) (n : Nat),
      parseKey (n + 2) ("settings".toList ++ ']' :: rest) = .ok (["settings"], ']' :: rest) :=
    fun rest n => parseKey_section (by decide) rest (n + 1)
  have created : updateNest true .ok ["settings"] [] = .ok (documentTable [] []) := by
    simp [updateNest, lookup, documentTable, bind, Except.bind, pure, Except.pure]
  refine reads_section header (fun c first => ?_) (by decide) bare faithful distinct focus_settings created [] rfl rfl
  cases first
  decide

theorem marks_settings (s : GlobalSettings) : MarksOf [] (freezeAll ["settings"] (settingsFields s)
    (Flags.set [] ["settings"] .explicitNest false)) := by
  refine ⟨fun m member flag => ?_, fun m member flag => ?_⟩ <;>
    obtain rfl : m = ⟨["settings"], .explicitNest, false⟩ := List.mem_singleton.mp member
  · cases flag
  · exact ⟨rfl, .inl rfl⟩

/-- **A writable configuration is written as a document with its tables.** -/
theorem loads_appConfigToToml {cfg : AppConfig} (writable : Writable cfg) :
    loads (appConfigToToml cfg) =
      .ok (documentTable (fieldTable (settingsFields cfg.settings)) (cfg.servers.items.map serverEntry)) := by
  have settings := reads_settings (fun f => bare_settingsFields) (fun f => faithful_settingsFields writable.settings)
    (distinct_settingsFields cfg.settings)
  obtain ⟨flags, last, servers⟩ := reads_servers (fieldTable (settingsFields cfg.settings)) []
    writable.servers cfg.servers.nodup (marks_settings cfg.settings) ["settings"]
  have lines := ReadsAll.append settings servers
  rw [appConfigToToml, configLines_eq]
  refine (loads_lines lines fun line member => ?_).trans (by simp)
  rcases List.mem_append.mp member with inSettings | inServers
  · rcases List.mem_cons.mp inSettings with rfl | field
    · decide
    · obtain ⟨f, inFields, rfl⟩ := List.mem_map.mp field
      exact return_not_mem_fieldLine (bare_settingsFields inFields) (faithful_settingsFields writable.settings inFields)
  · exact clean_servers writable.servers line inServers

end McpSsh
