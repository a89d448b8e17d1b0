import McpSsh.RoundTrip
import McpSsh.Toml.Changed

/-!
# When the written configuration is read back

With bare keys a configuration comes back only when every other string is plain: the
first string that is not leaves another one in its place, or none.
-/

set_option autoImplicit false

namespace McpSsh

open Base Toml

/-! ## Fields of validated tables -/

theorem lookup_of_holdsAt {s k : String} {ks : Key} {t : Table} (held : HoldsAt s (k :: ks) (.table t)) :
    ∃ v, lookup k t = some v ∧ HoldsAt s ks v := by
  obtain ⟨present, held⟩ := held
  obtain ⟨v, found⟩ := Option.isSome_iff_exists.mp present
  exact ⟨v, found, held _ (mem_of_lookup found) rfl⟩

theorem lookup_of_holdsAt_single {s k : String} {t : Table} (held : HoldsAt s [k] (.table t)) :
    lookup k t = some (.str s) := by
  obtain ⟨v, found, rfl⟩ := lookup_of_holdsAt held
  exact found

section

variable {rt : Runtime} {path : List String} {t : Table} {key : String}

/-- What is read from a string has that string as its text. -/
def KeepsText {α : Type} (read : List String → Value → Except (List String) α) (text : α → String) : Prop :=
  ∀ field w a, read field (.str w) = .ok a → w = text a

theorem keepsText_asStr : KeepsText asStr id := by
  intro field w s read
  cases read
  rfl

theorem keepsText_asEnum {α : Type} (all : List α) (value : α → String) : KeepsText (asEnum all value) value := by
  intro field w a read
  unfold asEnum at read
  obtain ⟨s, same, read⟩ := bind_eq_ok.mp read
  cases same
  split at read
  · rename_i b found
    cases read
    have same := List.find?_some found
    have value_ : value a = w := by simpa using same
    exact value_.symm
  · cases read

section

variable {α : Type} {reader : List String → Value → Except (List String) α} {text : α → String} {a : α}

theorem unchanged_required (keeps : KeepsText reader text) (read : required reader path t key = .ok a) :
    ¬ (Emitted.text (text a)).ChangedAt [key] t := by
  rintro ⟨w, differs, held⟩
  rw [required, lookup_of_holdsAt_single held] at read
  exact differs (keeps _ w a read)

theorem unchanged_withDefault (keeps : KeepsText reader text) {default : α}
    (read : withDefault reader path t key default = .ok a) : ¬ (Emitted.text (text a)).ChangedAt [key] t := by
  rintro ⟨w, differs, held⟩
  rw [withDefault, lookup_of_holdsAt_single held] at read
  exact differs (keeps _ w a read)

theorem unchanged_optional (keeps : KeepsText reader text) {o : Option α} (read : optional reader path t key = .ok o)
    (given : o = some a) : ¬ (Emitted.text (text a)).ChangedAt [key] t := by
  rintro ⟨w, differs, held⟩
  rw [optional, withDefault, lookup_of_holdsAt_single held] at read
  obtain ⟨b, readText, same⟩ := map_eq_ok_iff.mp read
  cases given.symm.trans same
  exact differs (keeps _ w a readText)

end

/-- What a dictionary holds was read from an entry of the table. -/
theorem mem_of_asDict {α : Type} {read : List String → Value → Except (List String) α} {d : Dict String α}
    (done : asDict read path (.table t) = .ok d) {k : String} {a : α} (member : (k, a) ∈ d.items) :
    ∃ e ∈ t, e.1 = k ∧ read (path ++ [k]) e.2 = .ok a := by
  have folded : ∀ (t : Table) (before after : Dict String α),
      t.foldlM (fun d e => (read (path ++ [e.1]) e.2).map (d.insert e.1)) before = .ok after → (k, a) ∈ after.items →
        (k, a) ∈ before.items ∨ ∃ e ∈ t, e.1 = k ∧ read (path ++ [k]) e.2 = .ok a := by
    intro t
    induction t with
    | nil =>
      intro before after same member
      cases same
      exact .inl member
    | cons e t ih =>
      intro before after done member
      rw [List.foldlM_cons] at done
      obtain ⟨next, first, rest⟩ := bind_eq_ok.mp done
      obtain ⟨b, one, rfl⟩ := map_eq_ok_iff.mp first
      rcases ih _ after rest member with earlier | ⟨f, inside, found⟩
      · rw [Dict.mem_items_insert] at earlier
        rcases earlier with same | ⟨-, old⟩
        · cases same
          exact .inr ⟨e, List.mem_cons_self, rfl, one⟩
        · exact .inl old
      · exact .inr ⟨f, List.mem_cons_of_mem _ inside, found⟩
  rcases folded t _ d done member with none_ | found
  · cases none_
  · exact found

theorem unchanged_env {env default : Dict String String} (read : withDefault (asDict asStr) path t key default = .ok env) :
    ¬ (Emitted.pairs env.items).ChangedAt [key] t := by
  rintro ⟨e, inside, w, differs, held⟩
  obtain ⟨v, found, held⟩ := lookup_of_holdsAt held
  rw [withDefault, found] at read
  cases v with
  | table u =>
    obtain ⟨entry, there, same, readEntry⟩ := mem_of_asDict read inside
    have text : entry.2 = .str w := held.2 entry there same
    rw [text] at readEntry
    cases readEntry
    exact differs rfl
  | _ => cases held

end

/-- A change below two keys is a change of the tables behind the first. -/
theorem Toml.Emitted.ChangedAt.descend {v : Emitted} {k j : String} {ks : Key} {t : Table}
    (changed : v.ChangedAt (k :: j :: ks) t) :
    (lookup k t).isSome ∧ ∀ e ∈ t, e.1 = k → ∃ sub, e.2 = .table sub ∧ v.ChangedAt (j :: ks) sub := by
  have table : ∀ {s : String} {path : Key} {u : Value}, HoldsAt s (j :: path) u → ∃ sub, u = .table sub := by
    intro s path u held
    cases u <;> first | exact ⟨_, rfl⟩ | cases held
  cases v with
  | text s =>
    obtain ⟨w, differs, present, held⟩ := changed
    refine ⟨present, fun e member key => ?_⟩
    have here := held e member key
    obtain ⟨sub, same⟩ := table here
    exact ⟨sub, same, w, differs, same ▸ here⟩
  | int n => cases changed
  | pairs items =>
    obtain ⟨f, inside, w, differs, present, held⟩ := changed
    refine ⟨present, fun e member key => ?_⟩
    have here := held e member key
    obtain ⟨sub, same⟩ := table here
    exact ⟨sub, same, f, inside, w, differs, same ▸ here⟩

/-- **A table that validates as a server holds the server's strings.** -/
theorem not_changed_server {rt : Runtime} {path : List String} {t : Table} {srv : ServerConfig}
    (valid : validateServer rt path (.table t) = .ok srv) {f : Field} (member : f ∈ serverFields srv) :
    ¬ f.2.ChangedAt [f.1] t := by
  unfold validateServer at valid
  obtain ⟨_, same, valid⟩ := bind_eq_ok.mp valid
  cases same
  obtain ⟨name, nameRead, valid⟩ := bind_eq_ok.mp valid
  obtain ⟨host, hostRead, valid⟩ := bind_eq_ok.mp valid
  obtain ⟨port, -, valid⟩ := bind_eq_ok.mp valid
  obtain ⟨user, userRead, valid⟩ := bind_eq_ok.mp valid
  obtain ⟨authType, authRead, valid⟩ := bind_eq_ok.mp valid
  obtain ⟨keyPath, keyRead, valid⟩ := bind_eq_ok.mp valid
  obtain ⟨certPath, certRead, valid⟩ := bind_eq_ok.mp valid
  obtain ⟨passwordEnv, passwordRead, valid⟩ := bind_eq_ok.mp valid
  obtain ⟨jumpHost, jumpRead, valid⟩ := bind_eq_ok.mp valid
  obtain ⟨hostKeyPolicy, policyRead, valid⟩ := bind_eq_ok.mp valid
  obtain ⟨defaultCwd, cwdRead, valid⟩ := bind_eq_ok.mp valid
  obtain ⟨defaultEnv, envRead, valid⟩ := bind_eq_ok.mp valid
  obtain ⟨maxSessions, -, valid⟩ := bind_eq_ok.mp valid
  obtain ⟨keepaliveInterval, -, valid⟩ := bind_eq_ok.mp valid
  obtain ⟨note, noteRead, valid⟩ := bind_eq_ok.mp valid
  cases valid
  simp only [serverFields, List.mem_append, mem_optionalField, List.mem_cons, List.not_mem_nil, or_false] at member
  rcases member with
    ((((((((((rfl | rfl | rfl | rfl | rfl) | ⟨s, given, rfl⟩) | ⟨s, given, rfl⟩) | ⟨s, given, rfl⟩) | ⟨s, given, rfl⟩) |
      ⟨p, given, rfl⟩) | ⟨s, given, rfl⟩) | env) | ⟨n, -, rfl⟩) | ⟨n, -, rfl⟩) | ⟨s, given, rfl⟩
  · exact unchanged_required keepsText_asStr nameRead
  · exact unchanged_required keepsText_asStr hostRead
  · exact id
  · exact unchanged_required keepsText_asStr userRead
  · exact unchanged_required (keepsText_asEnum _ _) authRead
  · exact unchanged_optional keepsText_asStr keyRead given
  · exact unchanged_optional keepsText_asStr certRead given
  · exact unchanged_optional keepsText_asStr passwordRead given
  · exact unchanged_optional keepsText_asStr jumpRead given
  · exact unchanged_optional (keepsText_asEnum _ _) policyRead given
  · exact unchanged_optional keepsText_asStr cwdRead given
  · unfold envField at env
    split at env
    · cases env
    · cases List.mem_singleton.mp env
      exact unchanged_env envRead
  · exact id
  · exact id
  · exact unchanged_optional keepsText_asStr noteRead given

theorem not_changed_settings {rt : Runtime} {path : List String} {t : Table} {settings : GlobalSettings}
    (valid : validateSettings rt path (.table t) = .ok settings) {f : Field} (member : f ∈ settingsFields settings) :
    ¬ f.2.ChangedAt [f.1] t := by
  unfold validateSettings at valid
  obtain ⟨_, same, valid⟩ := bind_eq_ok.mp valid
  cases same
  obtain ⟨knownHostsFile, knownRead, valid⟩ := bind_eq_ok.mp valid
  obtain ⟨policy, policyRead, valid⟩ := bind_eq_ok.mp valid
  obtain ⟨auditLog, auditRead, valid⟩ := bind_eq_ok.mp valid
  obtain ⟨stateFile, stateRead, valid⟩ := bind_eq_ok.mp valid
  obtain ⟨maxSessions, -, valid⟩ := bind_eq_ok.mp valid
  obtain ⟨keepaliveInterval, -, valid⟩ := bind_eq_ok.mp valid
  obtain ⟨keepaliveCountMax, -, valid⟩ := bind_eq_ok.mp valid
  obtain ⟨connectTimeout, -, valid⟩ := bind_eq_ok.mp valid
  obtain ⟨defaultEncoding, encodingRead, valid⟩ := bind_eq_ok.mp valid
  cases valid
  simp only [settingsFields, List.mem_cons, List.not_mem_nil, or_false] at member
  rcases member with rfl | rfl | rfl | rfl | rfl | rfl | rfl | rfl | rfl
  · exact unchanged_withDefault keepsText_asStr knownRead
  · exact unchanged_withDefault (keepsText_asEnum _ _) policyRead
  · exact unchanged_withDefault keepsText_asStr auditRead
  · exact unchanged_withDefault keepsText_asStr stateRead
  · exact id
  · exact id
  · exact id
  · exact id
  · exact unchanged_withDefault keepsText_asStr encodingRead

/-- A string of the configuration is another one in the document. -/
inductive ChangedIn (cfg : AppConfig) (t : Table) : Prop where
  | settings (f : Field) (member : f ∈ settingsFields cfg.settings) (changed : f.2.ChangedAt ["settings", f.1] t)
  | server (e : String × ServerConfig) (listed : e ∈ cfg.servers.items) (f : Field) (member : f ∈ serverFields e.2)
      (changed : f.2.ChangedAt ["servers", e.1, f.1] t)

/-- A document with another string does not validate as the configuration. -/
theorem ChangedIn.not_valid {rt : Runtime} {cfg : AppConfig} {t : Table} (changedIn : ChangedIn cfg t) :
    validateConfig rt t ≠ .ok cfg := by
  intro valid
  unfold validateConfig at valid
  obtain ⟨settings, settingsRead, valid⟩ := bind_eq_ok.mp valid
  obtain ⟨servers, serversRead, valid⟩ := bind_eq_ok.mp valid
  cases valid
  cases changedIn with
  | settings f member changed =>
    obtain ⟨present, descends⟩ := changed.descend
    obtain ⟨v, found⟩ := Option.isSome_iff_exists.mp present
    obtain ⟨sub, rfl, changed⟩ := descends _ (mem_of_lookup found) rfl
    rw [withDefault, found] at settingsRead
    exact not_changed_settings settingsRead member changed
  | server e listed f member changed =>
    obtain ⟨present, descends⟩ := changed.descend
    obtain ⟨v, found⟩ := Option.isSome_iff_exists.mp present
    obtain ⟨sub, rfl, changed⟩ := descends _ (mem_of_lookup found) rfl
    rw [withDefault, found] at serversRead
    obtain ⟨entry, there, key, valid⟩ := mem_of_asDict serversRead listed
    obtain ⟨u, same, changed⟩ := changed.descend.2 entry there key
    rw [same] at valid
    exact not_changed_server valid member changed

/-! ## Reading the document -/

/-- Server names and environment names are bare keys. -/
structure BareKeys (cfg : AppConfig) : Prop where
  names : ∀ e ∈ cfg.servers.items, isBareKey e.1 = true
  env : ∀ e ∈ cfg.servers.items, ∀ v ∈ e.2.defaultEnv.items, isBareKey v.1 = true

theorem writableServer_of_faithful {name : String} {srv : ServerConfig} (bare : isBareKey name = true)
    (faithful : ∀ f ∈ serverFields srv, f.2.Faithful) : WritableServer name srv := by
  have given : ∀ {key : String} {field : Option String}, (∀ f ∈ optionalField key .text field, f.2.Faithful) →
      ∀ s, field = some s → isPlain s = true :=
    fun each s some_ => each _ (mem_optionalField.mpr ⟨s, some_, rfl⟩)
  simp only [serverFields, List.forall_mem_append, List.forall_mem_cons] at faithful
  obtain ⟨⟨⟨⟨⟨⟨⟨⟨⟨⟨⟨name_, host, -, user, -⟩, keyPath⟩, certPath⟩, passwordEnv⟩, jumpHost⟩, -⟩, defaultCwd⟩, env⟩, -⟩, -⟩,
    note⟩ := faithful
  refine ⟨bare, name_, host, user, given keyPath, given certPath, given passwordEnv, given jumpHost, given defaultCwd,
    fun e member => ?_, given note⟩
  have pairs := env ("default_env", .pairs srv.defaultEnv.items) (by
    rw [envField, if_neg (by simpa using List.ne_nil_of_mem member)]
    exact List.mem_singleton_self _)
  exact pairs.2.1 e member

theorem writableSettings_of_faithful {s : GlobalSettings} (faithful : ∀ f ∈ settingsFields s, f.2.Faithful) :
    WritableSettings s := by
  simp only [settingsFields, List.forall_mem_cons] at faithful
  obtain ⟨known, -, audit, state, -, -, -, -, encoding, -⟩ := faithful
  exact ⟨known, audit, state, encoding⟩

theorem keyed_serverFields {srv : ServerConfig} (bare : ∀ v ∈ srv.defaultEnv.items, isBareKey v.1 = true) {f : Field}
    (member : f ∈ serverFields srv) : f.2.Keyed := by
  simp only [serverFields, List.mem_append, mem_optionalField, List.mem_cons, List.not_mem_nil, or_false] at member
  rcases member with
    ((((((((((rfl | rfl | rfl | rfl | rfl) | ⟨s, -, rfl⟩) | ⟨s, -, rfl⟩) | ⟨s, -, rfl⟩) | ⟨s, -, rfl⟩) |
      ⟨p, -, rfl⟩) | ⟨s, -, rfl⟩) | env) | ⟨n, -, rfl⟩) | ⟨n, -, rfl⟩) | ⟨s, -, rfl⟩
  all_goals first | exact trivial | skip
  unfold envField at env
  split at env
  · cases env
  · rename_i nonempty
    cases List.mem_singleton.mp env
    exact ⟨by simpa using nonempty, bare, srv.defaultEnv.nodup⟩

theorem shows_settings : Shows ["settings"] fun t => documentTable t [] := by
  intro s path t held
  refine ⟨rfl, fun e member key => ?_⟩
  cases List.mem_singleton.mp member
  exact held

theorem shows_server {settings servers : Table} {name : String} (fresh : lookup name servers = none) :
    Shows ["servers", name] fun t => documentTable settings (servers ++ [(name, .table t)]) := by
  intro s path t held
  have inner : HoldsAt s (name :: path) (.table (servers ++ [(name, .table t)])) := holdsAt_fresh fresh held
  have outer : documentTable settings (servers ++ [(name, .table t)]) =
      [("settings", .table settings), ("servers", .table (servers ++ [(name, .table t)]))] := by
    simp [documentTable]
  show HoldsAt s ("servers" :: name :: path) (.table (documentTable settings (servers ++ [(name, .table t)])))
  rw [outer]
  refine ⟨rfl, fun e member key => ?_⟩
  rcases List.mem_cons.mp member with rfl | member
  · exact absurd (show "settings" = "servers" from key) (by decide)
  · cases List.mem_singleton.mp member
    exact inner

/-- What is behind a server's section starts with a blank line. -/
theorem continues_servers (todo : List (String × ServerConfig)) :
    Continues (linesText (todo.flatMap fun e => "" :: serverBody e)) := by
  cases todo with
  | nil => exact .inl rfl
  | cons e todo => exact .inr ⟨'\n', _, rfl, by decide, by decide, by decide⟩

/-- The section of a server that is not writable, whatever comes behind it. -/
theorem misread_server (settings : Table) {done : List (String × ServerConfig)} {e : String × ServerConfig}
    (bareName : isBareKey e.1 = true) (env : ∀ v ∈ e.2.defaultEnv.items, isBareKey v.1 = true)
    (bad : ¬ WritableServer e.1 e.2) (new : e.1 ∉ done.map Prod.fst) {flags : Flags}
    (marks : MarksOf (done.map Prod.fst) flags) (header : Key) {behind : List Char} (continues : Continues behind) {n : Nat}
    {result : Table} (read : statements n ⟨documentTable settings (done.map serverEntry), flags, [], header⟩
      (replaceCrLf (linesText ("" :: serverBody e) ++ behind)) = .ok result) :
    ∃ f ∈ serverFields e.2, f.2.ChangedAt ["servers", e.1, f.1] result := by
  have fresh := lookup_serverEntry new
  -- the header alone, then the fields, of which one is not faithful
  have opened := @reads_server settings done e.1 bareName new [] (by simp) (by simp) (by simp) flags marks header
  have split : linesText ("" :: serverBody e) ++ behind =
      linesText ["", "[" ++ ("servers." ++ e.1) ++ "]"] ++ (linesText ((serverFields e.2).map fieldLine) ++ behind) := by
    simp [linesText, serverBody]
  have clean : ∀ line ∈ ["", "[" ++ ("servers." ++ e.1) ++ "]"], '\r' ∉ line.toList := by
    intro line member
    rcases List.mem_cons.mp member with rfl | member
    · simp
    · rw [List.mem_singleton.mp member]
      simp only [String.toList_append, List.mem_append, not_or]
      exact ⟨⟨by decide, by decide, return_not_mem_bare bareName⟩, by decide⟩
  rw [split] at read
  obtain ⟨m, after⟩ := (ReadsAll.cons (reads_blank _) opened).continue clean read
  have badField : ∃ f ∈ serverFields e.2, ¬ f.2.Faithful := by
    by_contra all
    refine bad (writableServer_of_faithful bareName fun f member => ?_)
    by_contra notFaithful
    exact all ⟨f, member, notFaithful⟩
  exact misread_fields (fun f => bare_serverFields) (fun f => keyed_serverFields env) badField
    (distinct_serverFields e.2) (focus_server fresh) (shows_server fresh) (fun f _ => lookup_nil f.1)
    (by simpa [freezeAll, Flags.has, Flags.set] using marks.not_frozen e.1) continues after

/-- **The servers in `todo`, of which one is not writable**, behind those in `done`. -/
theorem misread_servers (settings : Table) {todo : List (String × ServerConfig)} (done : List (String × ServerConfig))
    (names : ∀ e ∈ todo, isBareKey e.1 = true) (env : ∀ e ∈ todo, ∀ v ∈ e.2.defaultEnv.items, isBareKey v.1 = true)
    (bad : ∃ e ∈ todo, ¬ WritableServer e.1 e.2) (distinct : ((done ++ todo).map Prod.fst).Nodup) {flags : Flags}
    (marks : MarksOf (done.map Prod.fst) flags) (header : Key) {n : Nat} {result : Table}
    (read : statements n ⟨documentTable settings (done.map serverEntry), flags, [], header⟩
      (replaceCrLf (linesText (todo.flatMap fun e => "" :: serverBody e))) = .ok result) :
    ∃ e ∈ todo, ∃ f ∈ serverFields e.2, f.2.ChangedAt ["servers", e.1, f.1] result := by
  induction todo generalizing done flags header n with
  | nil =>
    obtain ⟨e, member, -⟩ := bad
    cases member
  | cons e todo ih =>
    have here : e ∈ e :: todo := List.mem_cons_self
    have new := new_of_nodup distinct
    have text : linesText ((e :: todo).flatMap fun e => "" :: serverBody e) =
        linesText ("" :: serverBody e) ++ linesText (todo.flatMap fun e => "" :: serverBody e) := by
      simp [linesText]
    rw [text] at read
    by_cases writable : WritableServer e.1 e.2
    · have server := reads_server settings (names e here) new (fun f => bare_serverFields)
        (fun f => faithful_serverFields writable) (distinct_serverFields e.2) marks header
      have alone : ∀ other ∈ [e], WritableServer other.1 other.2 := fun other same => List.mem_singleton.mp same ▸ writable
      have clean : ∀ line ∈ "" :: serverBody e, '\r' ∉ line.toList := fun line member =>
        clean_servers alone line (by simpa using member)
      obtain ⟨m, after⟩ := (ReadsAll.cons (reads_blank _) server).continue clean read
      have badRest : ∃ f ∈ todo, ¬ WritableServer f.1 f.2 := by
        obtain ⟨f, member, notWritable⟩ := bad
        rcases List.mem_cons.mp member with rfl | later
        · exact absurd writable notWritable
        · exact ⟨f, later, notWritable⟩
      have state : documentTable settings (done.map serverEntry ++ [(e.1, .table (fieldTable (serverFields e.2)))]) =
          documentTable settings ((done ++ [e]).map serverEntry) := by simp [serverEntry]
      rw [state] at after
      obtain ⟨f, member, found⟩ := ih (done ++ [e]) (fun f member => names f (List.mem_cons_of_mem _ member))
        (fun f member => env f (List.mem_cons_of_mem _ member)) badRest (by simpa using distinct)
        (by simpa using marks.server e.1 (serverFields e.2)) _ after
      exact ⟨f, List.mem_cons_of_mem _ member, found⟩
    · have changed := misread_server settings (names e here) (env e here) writable new marks header
        (continues_servers todo) read
      exact ⟨e, here, changed⟩

/-- **A configuration with bare keys that is not writable is changed by its text.** -/
theorem changedIn_of_loads {cfg : AppConfig} (bare : BareKeys cfg) (bad : ¬ Writable cfg) {t : Table}
    (read : loads (appConfigToToml cfg) = .ok t) : ChangedIn cfg t := by
  have text : (appConfigToToml cfg).toList = linesText ("[settings]" :: (settingsFields cfg.settings).map fieldLine) ++
      linesText (cfg.servers.items.flatMap fun e => "" :: serverBody e) := by
    rw [appConfigToToml, configLines_eq, toList_intercalate_lines]
    simp [linesText]
  rw [loads, text] at read
  by_cases writable : WritableSettings cfg.settings
  · have section_ := reads_settings (fun f => bare_settingsFields) (fun f => faithful_settingsFields writable)
      (distinct_settingsFields cfg.settings)
    have clean : ∀ line ∈ "[settings]" :: (settingsFields cfg.settings).map fieldLine, '\r' ∉ line.toList := by
      intro line member
      rcases List.mem_cons.mp member with rfl | field
      · decide
      · obtain ⟨f, inside, rfl⟩ := List.mem_map.mp field
        exact return_not_mem_fieldLine (bare_settingsFields inside) (faithful_settingsFields writable inside)
    obtain ⟨m, after⟩ := section_.continue clean read
    have badServer : ∃ e ∈ cfg.servers.items, ¬ WritableServer e.1 e.2 := by
      by_contra all
      refine bad ⟨writable, fun e member => ?_⟩
      by_contra notWritable
      exact all ⟨e, member, notWritable⟩
    obtain ⟨e, listed, f, member, changed⟩ := misread_servers (fieldTable (settingsFields cfg.settings)) [] bare.names
      bare.env badServer cfg.servers.nodup (marks_settings cfg.settings) _ after
    exact .server e listed f member changed
  · have opened : ReadsAll ("[settings]" :: [].map fieldLine) _ _ := reads_settings (by simp) (by simp) (by simp)
    have split : linesText ("[settings]" :: (settingsFields cfg.settings).map fieldLine) ++
        linesText (cfg.servers.items.flatMap fun e => "" :: serverBody e) = linesText ["[settings]"] ++
          (linesText ((settingsFields cfg.settings).map fieldLine) ++
            linesText (cfg.servers.items.flatMap fun e => "" :: serverBody e)) := by
      simp [linesText]
    rw [split] at read
    obtain ⟨m, after⟩ := opened.continue (fun line member => List.mem_singleton.mp member ▸ by decide) read
    have badField : ∃ f ∈ settingsFields cfg.settings, ¬ f.2.Faithful := by
      by_contra all
      refine writable (writableSettings_of_faithful fun f member => ?_)
      by_contra notFaithful
      exact all ⟨f, member, notFaithful⟩
    have keyed : ∀ f ∈ settingsFields cfg.settings, f.2.Keyed := by
      simp [settingsFields, Emitted.Keyed]
    obtain ⟨f, member, changed⟩ := misread_fields (fun f => bare_settingsFields) keyed badField
      (distinct_settingsFields cfg.settings) focus_settings shows_settings (fun f _ => lookup_nil f.1) rfl
      (continues_servers cfg.servers.items) after
    exact .settings f member changed

/-- **With bare keys a configuration comes back exactly when it is writable.** -/
theorem roundTrips_iff_writable (rt : Runtime) {cfg : AppConfig} (bare : BareKeys cfg) :
    RoundTrips rt cfg ↔ Writable cfg := by
  refine ⟨?_, roundTrips_of_writable rt⟩
  rintro ⟨t, read, valid⟩
  by_contra bad
  exact (changedIn_of_loads bare bad read).not_valid valid

/-- **The written text gives the configuration back when it is writable, and with bare
keys only then.** -/
theorem roundTrips_exact (rt : Runtime) (cfg : AppConfig) :
    (Writable cfg → RoundTrips rt cfg) ∧ (BareKeys cfg → RoundTrips rt cfg → Writable cfg) :=
  ⟨roundTrips_of_writable rt, fun bare => (roundTrips_iff_writable rt bare).mp⟩

/-- A server whose note quotes a word. -/
def quotedNote : AppConfig :=
  { servers := Dict.empty.insert "web"
      { name := "web", host := "10.0.0.5", user := "deploy", authType := .agent, note := some "the \"old\" box" } }

/-- The quotes in the note end the string. -/
theorem quotedNote_breaks : ¬ ∀ (rt : Runtime) (cfg : AppConfig), (∀ e ∈ cfg.servers.items, e.1 = e.2.name) →
    expandPathsInSettings rt cfg.settings = some cfg.settings → expandServers rt cfg.servers = some cfg.servers →
      RoundTrips rt cfg := by
  intro roundTrips
  have bare : BareKeys quotedNote := ⟨by decide, by decide⟩
  have back : RoundTrips .inert quotedNote := roundTrips _ _ (by decide) rfl rfl
  have writable := (roundTrips_iff_writable .inert bare).mp back
  have plain := (writable.servers _ (List.mem_singleton_self _)).note "the \"old\" box" rfl
  exact absurd plain (by decide)

end McpSsh
