import McpSsh.Proxy

/-!
# Pins and proxies

The pool's pins are a set, so the first operation that unpins a server ends the
pinning of all its proxies. As long as an operation unpins no server that another
proxy relies on, and leaves no pin that nobody will take away, a server is pinned
exactly while it has a proxy.
-/

set_option autoImplicit false

namespace McpSsh

open Base

/-! ## Pins in balance -/

/-- What has to be pinned is pinned, and a pin stands for something that has to be
pinned or for an operation that takes it away. -/
structure Balanced (pinned : List String) (kept releasing : String → Prop) : Prop where
  held : ∀ server, kept server → server ∈ pinned
  justified : ∀ server ∈ pinned, kept server ∨ releasing server

namespace Balanced

variable {pinned : List String} {kept kept' releasing releasing' : String → Prop}

theorem mono (balanced : Balanced pinned kept releasing) (fewer : ∀ server, kept' server → kept server)
    (enough : ∀ server ∈ pinned, kept server ∨ releasing server → kept' server ∨ releasing' server) :
    Balanced pinned kept' releasing' :=
  ⟨fun server keep => balanced.held server (fewer server keep),
    fun server member => enough server member (balanced.justified server member)⟩

theorem pin (balanced : Balanced pinned kept releasing) {name : String} (now : kept' name)
    (others : ∀ server, kept' server → server = name ∨ kept server)
    (enough : ∀ server, kept server ∨ releasing server → kept' server ∨ releasing' server) :
    Balanced (name :: pinned) kept' releasing' := by
  constructor
  · intro server keep
    rcases others server keep with rfl | before
    · exact List.mem_cons_self
    · exact List.mem_cons_of_mem _ (balanced.held server before)
  · intro server member
    rcases List.mem_cons.mp member with rfl | before
    · exact .inl now
    · exact enough server (balanced.justified server before)

theorem unpin (balanced : Balanced pinned kept releasing) {name : String}
    (fewer : ∀ server, kept' server → kept server ∧ server ≠ name)
    (enough : ∀ server, server ≠ name → kept server ∨ releasing server → kept' server ∨ releasing' server) :
    Balanced (pinned.filter (· ≠ name)) kept' releasing' := by
  constructor
  · intro server keep
    obtain ⟨before, other⟩ := fewer server keep
    simp [balanced.held server before, other]
  · intro server member
    obtain ⟨before, other⟩ := List.mem_filter.mp member
    exact enough server (by simpa using other) (balanced.justified server before)

end Balanced

/-- Dropping the element at `i` from a list with an `x` of a kind leaves an `x` of
the kind, or the element was of the kind. -/
theorem exists_eraseIdx {α : Type} {p : α → Prop} {l : List α} {i : Nat} {a : α} (at_ : l[i]? = some a)
    (some_ : ∃ x ∈ l, p x) : p a ∨ ∃ x ∈ l.eraseIdx i, p x := by
  obtain ⟨x, member, kind⟩ := some_
  obtain ⟨j, there⟩ := List.getElem?_of_mem member
  by_cases same : j = i
  · subst same
    cases at_.symm.trans there
    exact .inl kind
  · exact .inr ⟨x, List.mem_eraseIdx_iff_getElem?.mpr ⟨j, same, there⟩, kind⟩

/-- Replacing the element at `i` by one of the same kind keeps whether the kind occurs. -/
theorem exists_set_iff {α : Type} {p : α → Prop} {l : List α} {i : Nat} {a b : α} (at_ : l[i]? = some a)
    (same : p b ↔ p a) : (∃ x ∈ l.set i b, p x) ↔ ∃ x ∈ l, p x := by
  have inside : i < l.length := (List.getElem?_eq_some_iff.mp at_).1
  constructor
  · rintro ⟨x, member, kind⟩
    rcases List.mem_or_eq_of_mem_set member with old | rfl
    · exact ⟨x, old, kind⟩
    · exact ⟨a, List.mem_of_getElem? at_, same.mp kind⟩
  · rintro ⟨x, member, kind⟩
    obtain ⟨j, there⟩ := List.getElem?_of_mem member
    by_cases here : i = j
    · subst here
      cases at_.symm.trans there
      exact ⟨b, List.mem_set inside b, same.mpr kind⟩
    · exact ⟨x, List.mem_of_getElem? ((List.getElem?_set_ne here).trans there), kind⟩

namespace ProxyManager

/-! ## Who relies on a pin -/

variable (s : ProxyManager) (server : String)

/-- A call of `close_all` in progress has the proxy on its list. -/
def Doomed (record : ProxyRecord) : Prop := ∃ call ∈ s.closing, record ∈ call.waiting ++ call.released

/-- A proxy of the server is registered that no call of `close_all` is closing. -/
def Live : Prop := ∃ id record, s.proxies.get? id = some record ∧ record.server = server ∧ ¬ s.Doomed record

/-- A proxy of the server is being started. -/
def Starting : Prop := ∃ args ∈ s.starting, args.server = server

/-- A call of `stop_proxy` or `close_all` is going to unpin the server. -/
def Releasing : Prop :=
  (∃ record ∈ s.stopping, record.server = server) ∨ ∃ call ∈ s.closing, ∃ record ∈ call.waiting, record.server = server

def Kept : Prop := s.Live server ∨ s.Starting server

/-- The pins are in balance with the proxies and the operations in progress. -/
def Inv : Prop := Balanced s.pool.pinned s.Kept s.Releasing

/-- An operation that unpins a server finds no other proxy of it, one that fails
without unpinning leaves a proxy of the server or an operation that unpins it;
no proxy is registered under an id in use, and none besides its own when `close_all`
ends. -/
def Safe : ProxyEvent → Prop
  | .start args => args.incomplete = true → ¬ s.Kept args.server
  | .forwarded call outcome => ∀ args, s.starting[call]? = some args →
      match outcome with
      | .listening id => id ∉ s.proxies.keys ∧ ∀ record, s.Doomed record → record.id ≠ id
      | .raises => ¬ Kept { s with starting := s.starting.eraseIdx call } args.server
      | .cancelled => Kept { s with starting := s.starting.eraseIdx call } args.server ∨ s.Releasing args.server
  | .stopped call raises => ∀ record, s.stopping[call]? = some record →
      if raises then record.server ∈ s.pool.pinned → s.Kept record.server ∨
        Releasing { s with stopping := s.stopping.eraseIdx call } record.server
      else ¬ s.Kept record.server
  | .closedOne call => ∀ record waiting released, s.closing[call]? = some ⟨record :: waiting, released⟩ →
      ¬ s.Kept record.server ∧ (waiting = [] → ∀ server, ¬ s.Live server)
  | _ => True

/-- No operation on proxies is in progress. -/
def Idle : Prop := s.starting = [] ∧ s.stopping = [] ∧ s.closing = []

/-- A proxy of the server is registered. -/
def HasProxy : Prop := ∃ id record, s.proxies.get? id = some record ∧ record.server = server

/-- A server is pinned exactly while it has a proxy: then closing it changes nothing
in the pool, and otherwise its connection is closed. -/
structure PinnedExactly : Prop where
  pinned : ∀ server, server ∈ s.pool.pinned ↔ s.HasProxy server
  keeps : ∀ server, s.HasProxy server → s.pool.close server = { s.pool with ended := [] }
  closes : ∀ server c, ¬ s.HasProxy server → (s.pool.slots.slot server).connection = some c → c ∉ s.pool.closed →
    (server, c) ∈ (s.pool.close server).closing

end ProxyManager

/-- The pool leaves its pins alone. -/
theorem World.pinned_step {ctx : PoolContext} {rt : Runtime} {w w' : World} {event : PoolEvent}
    (noPin : ∀ name, event ≠ .pin name) (noUnpin : ∀ name, event ≠ .unpin name)
    (stepped : w.step ctx rt event = some w') : w'.pinned = w.pinned := by
  cases event with
  | pin name => exact absurd rfl (noPin name)
  | unpin name => exact absurd rfl (noUnpin name)
  | dialed task outcome =>
    obtain ⟨frame, rest, -, rfl⟩ := World.step_dialed stepped
    cases outcome with
    | failed e lost => rfl
    | up key appends lost =>
      unfold World.dialed
      simp only
      split <;> rfl
  | lost c =>
    obtain ⟨conn, -, -, rfl⟩ := World.step_lost stepped
    rfl
  | close name =>
    cases stepped
    unfold World.close
    split
    · rfl
    split
    · split <;> rfl
    · rfl
  | closed call =>
    obtain ⟨name, c, -, -, rfl⟩ := World.step_closed stepped
    rfl
  | registry op =>
    cases stepped
    rfl
  | get name =>
    cases stepped
    rfl
  | edit hosts =>
    cases stepped
    rfl

namespace ProxyManager

variable {s s' : ProxyManager} {ctx : PoolContext} {rt : Runtime}

theorem Inv.start (inv : s.Inv) {args : ProxyArgs} (safe : args.incomplete = true → ¬ s.Kept args.server) :
    (s.start args).Inv := by
  unfold ProxyManager.start
  split
  · rename_i incomplete
    have free := safe incomplete
    -- the pin is set and removed at once
    have pins : ((s.pin args.server).unpin args.server).pool.pinned = s.pool.pinned.filter (· ≠ args.server) := by
      simp [ProxyManager.pin, ProxyManager.unpin]
    unfold Inv
    rw [pins]
    refine Balanced.unpin inv (fun server keep => ⟨keep, ?_⟩) fun _ _ still => still
    rintro rfl
    exact free keep
  · refine Balanced.pin inv (.inr ⟨args, by simp, rfl⟩) ?_ ?_
    · rintro server (live | ⟨other, member, named⟩)
      · exact .inr (.inl live)
      · rcases List.mem_append.mp member with old | new
        · exact .inr (.inr ⟨other, old, named⟩)
        · obtain rfl := List.mem_singleton.mp new
          exact .inl named.symm
    · rintro server ((live | ⟨other, member, named⟩) | releasing)
      · exact .inl (.inl live)
      · exact .inl (.inr ⟨other, List.mem_append_left _ member, named⟩)
      · exact .inr releasing

theorem starting_eraseIdx {call : Nat} {args : ProxyArgs} (found : s.starting[call]? = some args) {server : String}
    (starting : s.Starting server) :
    args.server = server ∨ Starting { s with starting := s.starting.eraseIdx call } server :=
  exists_eraseIdx found starting

theorem starting_of_eraseIdx {call : Nat} {server : String}
    (starting : Starting { s with starting := s.starting.eraseIdx call } server) : s.Starting server := by
  obtain ⟨other, member, named⟩ := starting
  exact ⟨other, List.mem_of_mem_eraseIdx member, named⟩

theorem Inv.forwarded (inv : s.Inv) {call : Nat} {args : ProxyArgs} {outcome : ForwardOutcome}
    (found : s.starting[call]? = some args) (safe : s.Safe (.forwarded call outcome)) :
    (s.forwarded call args outcome).Inv := by
  have here := safe args found
  have calling : s.Starting args.server := ⟨args, List.mem_of_getElem? found, rfl⟩
  cases outcome with
  | listening id =>
    obtain ⟨fresh, unused⟩ := here
    have new : Live (s.forwarded call args (.listening id)) args.server := by
      refine ⟨id, { args with id }, by simp [ProxyManager.forwarded], rfl, fun doomed => ?_⟩
      exact unused _ doomed rfl
    have older : ∀ server, s.Live server → Live (s.forwarded call args (.listening id)) server := by
      rintro server ⟨key, record, stored, named, free⟩
      have apart : key ≠ id := by
        rintro rfl
        exact fresh (Dict.mem_keys_of_get? stored)
      exact ⟨key, record, by simp [ProxyManager.forwarded, Dict.get?_insert, apart, stored], named, free⟩
    refine Balanced.mono inv ?_ ?_
    · rintro server (⟨key, record, stored, named, free⟩ | starting)
      · simp only [ProxyManager.forwarded, Dict.get?_insert] at stored
        split at stored
        · cases stored
          exact .inr (named ▸ calling)
        · exact .inl ⟨key, record, stored, named, free⟩
      · exact .inr (starting_of_eraseIdx starting)
    · rintro server - ((live | starting) | releasing)
      · exact .inl (.inl (older server live))
      · rcases starting_eraseIdx found starting with rfl | other
        · exact .inl (.inl new)
        · exact .inl (.inr other)
      · exact .inr releasing
  | raises =>
    refine Balanced.unpin inv (fun server keep => ⟨?_, ?_⟩) ?_
    · exact keep.imp_right starting_of_eraseIdx
    · rintro rfl
      exact here keep
    · rintro server other ((live | starting) | releasing)
      · exact .inl (.inl live)
      · rcases starting_eraseIdx found starting with same | more
        · exact absurd same.symm other
        · exact .inl (.inr more)
      · exact .inr releasing
  | cancelled =>
    refine Balanced.mono inv (fun server keep => keep.imp_right starting_of_eraseIdx) ?_
    rintro server - ((live | starting) | releasing)
    · exact .inl (.inl live)
    · rcases starting_eraseIdx found starting with rfl | more
      · exact here
      · exact .inl (.inr more)
    · exact .inr releasing

theorem Inv.stop (inv : s.Inv) (id : String) : (s.stop id).Inv := by
  unfold ProxyManager.stop
  split
  · rename_i record stored
    refine Balanced.mono inv ?_ ?_
    · rintro server (⟨key, other, there, named, free⟩ | starting)
      · simp only [Dict.get?_erase] at there
        split at there
        · cases there
        · exact .inl ⟨key, other, there, named, free⟩
      · exact .inr starting
    · rintro server - ((⟨key, other, there, named, free⟩ | starting) | (⟨other, member, named⟩ | closing))
      · by_cases same : key = id
        · subst same
          cases stored.symm.trans there
          exact .inr (.inl ⟨{ record with active := false }, by simp, named⟩)
        · exact .inl (.inl ⟨key, other, by simp [Dict.get?_erase, same, there], named, free⟩)
      · exact .inl (.inr starting)
      · exact .inr (.inl ⟨other, List.mem_append_left _ member, named⟩)
      · exact .inr (.inr closing)
  · exact inv

theorem Inv.stopped (inv : s.Inv) {call : Nat} {record : ProxyRecord} {raises : Bool}
    (found : s.stopping[call]? = some record) (safe : s.Safe (.stopped call raises)) :
    (s.stopped call record raises).Inv := by
  have here := safe record found
  have releases : ∀ server, s.Releasing server → server = record.server ∨
      Releasing { s with stopping := s.stopping.eraseIdx call } server := by
    rintro server (stopping | closing)
    · rcases exists_eraseIdx found stopping with same | more
      · exact .inl same.symm
      · exact .inr (.inl more)
    · exact .inr (.inr closing)
  cases raises with
  | true =>
    refine Balanced.mono inv (fun _ keep => keep) ?_
    rintro server member (keep | releasing)
    · exact .inl keep
    · rcases releases server releasing with rfl | more
      · exact here member
      · exact .inr more
  | false =>
    refine Balanced.unpin inv (fun server keep => ⟨keep, ?_⟩) ?_
    · rintro rfl
      exact here keep
    · rintro server other (keep | releasing)
      · exact .inl keep
      · exact .inr ((releases server releasing).resolve_left other)

theorem Inv.closeAll (inv : s.Inv) : s.closeAll.Inv := by
  unfold ProxyManager.closeAll
  split
  · exact inv
  · have doomed : ∀ record, s.Doomed record → Doomed { s with closing := s.closing ++ [⟨s.proxies.values, []⟩] } record :=
      fun record ⟨call, member, inside⟩ => ⟨call, List.mem_append_left _ member, inside⟩
    refine Balanced.mono inv ?_ ?_
    · rintro server (⟨key, record, stored, named, free⟩ | starting)
      · exact .inl ⟨key, record, stored, named, fun before => free (doomed record before)⟩
      · exact .inr starting
    · rintro server - ((⟨key, record, stored, named, -⟩ | starting) | (stopping | ⟨call, member, record, waits, named⟩))
      · have listed : record ∈ s.proxies.values := List.mem_map.mpr ⟨_, Dict.get?_eq_some_iff.mp stored, rfl⟩
        exact .inr (.inr ⟨⟨s.proxies.values, []⟩, by simp, record, listed, named⟩)
      · exact .inl (.inr starting)
      · exact .inr (.inl stopping)
      · exact .inr (.inr ⟨call, List.mem_append_left _ member, record, waits, named⟩)

theorem Inv.closedOne (inv : s.Inv) {call : Nat} {record : ProxyRecord} {waiting released : List ProxyRecord}
    (found : s.closing[call]? = some ⟨record :: waiting, released⟩) (safe : s.Safe (.closedOne call)) :
    (s.closedOne call record waiting released).Inv := by
  obtain ⟨free, last⟩ := safe record waiting released found
  have inside : call < s.closing.length := (List.getElem?_eq_some_iff.mp found).1
  unfold ProxyManager.closedOne
  simp only
  split
  · rename_i empty
    have none_ := last empty
    refine Balanced.unpin inv ?_ ?_
    · rintro server (⟨key, other, stored, -⟩ | starting)
      · cases stored
      · refine ⟨.inr starting, ?_⟩
        rintro rfl
        exact free (.inr starting)
    · rintro server other ((live | starting) | (stopping | closing))
      · exact absurd live (none_ server)
      · exact .inl (.inr starting)
      · exact .inr (.inl stopping)
      · rcases exists_eraseIdx found closing with ⟨first, waits, named⟩ | more
        · simp only [empty, List.mem_singleton] at waits
          exact absurd (waits ▸ named).symm other
        · exact .inr (.inr more)
  · have doomed : ∀ r, Doomed { s.unpin record.server with
        closing := s.closing.set call ⟨waiting, record :: released⟩ } r ↔ s.Doomed r := by
      intro r
      refine exists_set_iff found ?_
      simp only [List.mem_append, List.mem_cons]
      tauto
    refine Balanced.unpin inv ?_ ?_
    · rintro server keep
      have before : s.Kept server := by
        rcases keep with ⟨key, other, stored, named, apart⟩ | starting
        · exact .inl ⟨key, other, stored, named, fun inside => apart ((doomed other).mpr inside)⟩
        · exact .inr starting
      refine ⟨before, ?_⟩
      rintro rfl
      exact free before
    · rintro server other ((⟨key, r, stored, named, apart⟩ | starting) | (stopping | closing))
      · exact .inl (.inl ⟨key, r, stored, named, fun inside => apart ((doomed r).mp inside)⟩)
      · exact .inl (.inr starting)
      · exact .inr (.inl stopping)
      · refine .inr (.inr ((exists_set_iff found ?_).mpr closing))
        simp [Ne.symm other]

theorem step_pool {event : PoolEvent} (noPin : ∀ name, event ≠ .pin name) (noUnpin : ∀ name, event ≠ .unpin name) :
    s.step ctx rt (.pool event) = (s.pool.step ctx rt event).map fun pool => { s with pool } := by
  cases event with
  | pin name => exact absurd rfl (noPin name)
  | unpin name => exact absurd rfl (noUnpin name)
  | _ => rfl

/-- **One safe step keeps the pins in balance.** -/
theorem Inv.step (inv : s.Inv) {event : ProxyEvent} (safe : s.Safe event)
    (stepped : s.step ctx rt event = some s') : s'.Inv := by
  cases event with
  | pool event =>
    have noPin : ∀ name, event ≠ .pin name := by
      rintro name rfl
      cases stepped
    have noUnpin : ∀ name, event ≠ .unpin name := by
      rintro name rfl
      cases stepped
    rw [step_pool noPin noUnpin] at stepped
    obtain ⟨pool, ran, rfl⟩ := Option.map_eq_some_iff.mp stepped
    have same := World.pinned_step noPin noUnpin ran
    unfold Inv
    rw [same]
    exact inv
  | start args =>
    simp only [ProxyManager.step] at stepped
    split at stepped
    · cases stepped
      exact inv.start safe
    · cases stepped
  | forwarded call outcome =>
    obtain ⟨args, found, rfl⟩ := Option.map_eq_some_iff.mp stepped
    exact inv.forwarded found safe
  | stop id =>
    cases stepped
    exact inv.stop id
  | stopped call raises =>
    obtain ⟨record, found, rfl⟩ := Option.map_eq_some_iff.mp stepped
    exact inv.stopped found safe
  | closeAll =>
    cases stepped
    exact inv.closeAll
  | closedOne call =>
    simp only [ProxyManager.step] at stepped
    split at stepped
    · rename_i record waiting released found
      cases stepped
      exact inv.closedOne found safe
    · cases stepped

/-- Between operations, the balance is between pins and proxies. -/
theorem Inv.pinnedExactly (inv : s.Inv) (idle : s.Idle) : s.PinnedExactly := by
  obtain ⟨noStart, noStop, noClose⟩ := idle
  have pinned : ∀ server, server ∈ s.pool.pinned ↔ s.HasProxy server := by
    intro server
    constructor
    · intro member
      rcases inv.justified server member with (⟨key, record, stored, named, -⟩ | starting) | releasing
      · exact ⟨key, record, stored, named⟩
      · simp [Starting, noStart] at starting
      · simp [Releasing, noStop, noClose] at releasing
    · rintro ⟨key, record, stored, named⟩
      exact inv.held server (.inl ⟨key, record, stored, named, by simp [Doomed, noClose]⟩)
  refine ⟨pinned, fun server has => ?_, fun server c none_ slot alive => ?_⟩
  · exact if_pos ((pinned server).mpr has)
  · have free : server ∉ s.pool.pinned := fun member => none_ ((pinned server).mp member)
    simp [World.close, free, slot, alive]

/-- **In every run of safe steps, a server is pinned exactly while it has a proxy**,
whenever no operation on proxies is in progress. -/
theorem pinnedExactly_run (ctx : PoolContext) (rt : Runtime) (store : Store) (hosts : HostsFile)
    (events : List ProxyEvent) (s : ProxyManager) (run : Run (guard (system ctx rt) Safe) (init store hosts) events s)
    (idle : s.Idle) : s.PinnedExactly := by
  have keep : ∀ (s : ProxyManager) (event : ProxyEvent) (s' : ProxyManager), s.Inv →
      guard (system ctx rt) Safe s event s' → s'.Inv := fun _ _ _ inv step => inv.step step.2 step.1
  have start : (init store hosts).Inv := by
    refine ⟨?_, fun server member => by cases member⟩
    rintro server (⟨key, record, stored, -⟩ | ⟨args, member, -⟩)
    · cases stored
    · cases member
  exact (run.preserves keep start).pinnedExactly idle

/-! ## Two runs -/

def webServer : ServerConfig := { name := "web", host := "10.0.0.1", user := "root", authType := .agent }

/-- A SOCKS proxy through the server. -/
def socksArgs : ProxyArgs := { server := "web", type := .socks5, localPort := 1080 }

/-- A process with an SSH agent. -/
def agentContext : PoolContext := ⟨{}, fun _ => some "agent.sock", id, 10⟩

/-- One proxy is started. -/
def oneProxy : List ProxyEvent :=
  [.pool (.registry (.addEphemeral webServer)), .pool (.get "web"), .pool (.dialed 0 (.up none true false)),
    .start socksArgs, .forwarded 0 (.listening "prx-1")]

/-- A second proxy is started on another server. -/
def proxyEach : List ProxyEvent :=
  oneProxy ++ [.pool (.registry (.addEphemeral { webServer with name := "db", host := "10.0.0.2" })),
    .pool (.get "db"), .pool (.dialed 0 (.up none true false)), .start { socksArgs with server := "db" },
    .forwarded 0 (.listening "prx-2")]

theorem pinnedExactly_each : ∃ s, Run (guard (system agentContext .inert) Safe) (init .blank .missing) proxyEach s ∧
    s.PinnedExactly := by
  have run : ∃ s, Run (guard (system agentContext .inert) Safe) (init .blank .missing) proxyEach s ∧ s.Idle := by
    refine ⟨_, .step ⟨rfl, trivial⟩ (.step ⟨rfl, trivial⟩ (.step ⟨rfl, trivial⟩ (.step ⟨rfl, ?_⟩ (.step ⟨rfl, ?_⟩
      (.step ⟨rfl, trivial⟩ (.step ⟨rfl, trivial⟩ (.step ⟨rfl, trivial⟩ (.step ⟨rfl, ?_⟩ (.step ⟨rfl, ?_⟩
        (.refl _)))))))))), rfl, rfl, rfl⟩
    · intro incomplete
      cases incomplete
    · rintro args ⟨⟩
      refine ⟨by decide +kernel, ?_⟩
      rintro record ⟨call, member, -⟩
      cases member
    · intro incomplete
      cases incomplete
    · rintro args ⟨⟩
      refine ⟨by decide +kernel, ?_⟩
      rintro record ⟨call, member, -⟩
      cases member
  obtain ⟨s, run, idle⟩ := run
  exact ⟨s, run, pinnedExactly_run _ _ _ _ _ s run idle⟩

/-- A second proxy is started on the same server, and the first one stopped. -/
def twoProxies : List ProxyEvent :=
  oneProxy ++ [.pool (.get "web"), .start { socksArgs with localPort := 1081 }, .forwarded 0 (.listening "prx-2"),
    .stop "prx-1", .stopped 0 false]

/-- The second proxy's server is no longer pinned. -/
theorem stop_unpins_other_proxy : ¬ ∀ (ctx : PoolContext) (rt : Runtime) (store : Store) (hosts : HostsFile)
    (events : List ProxyEvent) (s : ProxyManager), Run (system ctx rt) (init store hosts) events s → s.Idle →
      s.PinnedExactly := by
  intro exactly
  have run : ∃ s, Run (system agentContext .inert) (init .blank .missing) twoProxies s ∧ s.Idle ∧
      s.pool.pinned = [] ∧ (s.proxies.get? "prx-2").map (fun record => record.server) = some "web" :=
    ⟨_, .step rfl (.step rfl (.step rfl (.step rfl (.step rfl (.step rfl (.step rfl (.step rfl (.step rfl (.step rfl
      (.refl _)))))))))), ⟨rfl, rfl, rfl⟩, by decide +kernel, by decide +kernel⟩
  obtain ⟨s, run, idle, noPin, proxy⟩ := run
  obtain ⟨record, stored, named⟩ := Option.map_eq_some_iff.mp proxy
  have pinned := ((exactly _ _ _ _ _ s run idle).pinned "web").mpr ⟨"prx-2", record, stored, named⟩
  rw [noPin] at pinned
  cases pinned

end ProxyManager

end McpSsh
