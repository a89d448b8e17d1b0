import McpSsh.Pool
import Mathlib.Data.List.Chain

/-!
# Pooled connections and the registry

The pool caches connections by name, and the registry may rebind names. A
connection relies on the names it was dialed for and tunnelled through; as long as
no registry operation rebinds a name that a pooled connection or a call in progress
relies on, every connection that `get_connection` returns is the one the registry
asks for.
-/

set_option autoImplicit false

namespace McpSsh

open Base

/-! ## What a connection relies on -/

/-- The part of a configuration that decides where a dial ends up. -/
structure Dial where
  host : String
  port : Int
  user : String
  jumpHost : Option String

def ServerConfig.dial (cfg : ServerConfig) : Dial := ⟨cfg.host, cfg.port, cfg.user, cfg.jumpHost⟩

/-- Where the registry sends a dial of `name`. -/
def Registry.dial? (r : Registry) (name : String) : Option Dial := (r.find? name).map ServerConfig.dial

/-- Where a connection was dialed to, and the name its tunnel was opened for. -/
def Connection.dial (conns : List Connection) (conn : Connection) : Dial :=
  ⟨conn.host, conn.args.port, conn.args.username, conn.args.tunnel.bind fun t => conns[t]?.map Connection.name⟩

/-- A connection relies on its own name and on those of its tunnel, each as it was
dialed. -/
inductive ReliesOn (conns : List Connection) : ConnId → String → Dial → Prop where
  | own {c : ConnId} {conn : Connection} (opened : conns[c]? = some conn) :
      ReliesOn conns c conn.name (conn.dial conns)
  | tunnel {c t : ConnId} {conn : Connection} {name : String} {dial : Dial} (opened : conns[c]? = some conn)
      (through : conn.args.tunnel = some t) (relies : ReliesOn conns t name dial) : ReliesOn conns c name dial

/-- The registry still sends dials where the connection's own and its tunnels' went. -/
def Upheld (r : Registry) (conns : List Connection) (c : ConnId) : Prop :=
  ∀ name dial, ReliesOn conns c name dial → r.dial? name = some dial

/-- The host, port and user of the configuration. -/
structure Connection.Matches (conn : Connection) (cfg : ServerConfig) : Prop where
  host : conn.host = cfg.host
  port : conn.args.port = cfg.port
  user : conn.args.username = cfg.user

/-- The connection was dialed with the configuration that the name resolves to,
through a connection that is what the jump host's name resolves to. -/
inductive Fresh (r : Registry) (conns : List Connection) : String → ConnId → Prop where
  | direct {name : String} {c : ConnId} {conn : Connection} {cfg : ServerConfig}
      (resolves : r.find? name = some cfg) (opened : conns[c]? = some conn) (same : conn.Matches cfg)
      (noJump : cfg.jumpHost = none) (noTunnel : conn.args.tunnel = none) : Fresh r conns name c
  | tunnelled {name jump : String} {c t : ConnId} {conn : Connection} {cfg : ServerConfig}
      (resolves : r.find? name = some cfg) (opened : conns[c]? = some conn) (same : conn.Matches cfg)
      (jumps : cfg.jumpHost = some jump) (through : conn.args.tunnel = some t) (tunnel : Fresh r conns jump t) :
      Fresh r conns name c

/-- Every tunnel was opened before what goes through it. -/
def Backward (conns : List Connection) : Prop :=
  ∀ (c t : ConnId) conn, conns[c]? = some conn → conn.args.tunnel = some t → t < c

/-- **A connection that is upheld is what its name asks for.** -/
theorem Upheld.fresh {r : Registry} {conns : List Connection} (backward : Backward conns) {c : ConnId}
    {conn : Connection} (opened : conns[c]? = some conn) (upheld : Upheld r conns c) : Fresh r conns conn.name c := by
  induction c using Nat.strongRecOn generalizing conn with
  | ind c ih =>
    obtain ⟨cfg, resolves, dials⟩ := Option.map_eq_some_iff.mp (upheld _ _ (.own opened))
    have same : conn.Matches cfg :=
      ⟨(congrArg Dial.host dials).symm, (congrArg Dial.port dials).symm, (congrArg Dial.user dials).symm⟩
    have jump : cfg.jumpHost = conn.args.tunnel.bind fun t => conns[t]?.map Connection.name :=
      congrArg Dial.jumpHost dials
    cases through : conn.args.tunnel with
    | none => exact .direct resolves opened same (by simpa [through] using jump) through
    | some t =>
      have earlier := backward c t conn opened through
      have inside : t < conns.length := Nat.lt_trans earlier (List.getElem?_eq_some_iff.mp opened).1
      have openedTunnel : conns[t]? = some conns[t] := List.getElem?_eq_getElem inside
      refine .tunnelled resolves opened same ?_ through
        (ih t earlier openedTunnel fun name dial relies => upheld name dial (.tunnel opened through relies))
      simpa [through, openedTunnel] using jump

section

variable {conns : List Connection} {conn : Connection}

theorem getElem?_concat_of_lt {c : ConnId} (old : c < conns.length) (new : Connection) :
    (conns ++ [new])[c]? = conns[c]? := List.getElem?_append_left old

/-- Opening a connection changes nothing for the earlier ones. -/
theorem dial_concat (backward : Backward conns) {c : ConnId} (opened : conns[c]? = some conn) (new : Connection) :
    conn.dial (conns ++ [new]) = conn.dial conns := by
  have inside := (List.getElem?_eq_some_iff.mp opened).1
  cases through : conn.args.tunnel with
  | none => simp [Connection.dial, through]
  | some t =>
    have earlier := backward c t conn opened through
    have old : t < conns.length := Nat.lt_trans earlier inside
    simp [Connection.dial, through, getElem?_concat_of_lt old]

theorem ReliesOn.of_concat (backward : Backward conns) {c : ConnId} (old : c < conns.length) {new : Connection}
    {name : String} {dial : Dial} (relies : ReliesOn (conns ++ [new]) c name dial) : ReliesOn conns c name dial := by
  induction relies with
  | own opened =>
    rw [getElem?_concat_of_lt old] at opened
    rw [dial_concat backward opened]
    exact .own opened
  | @tunnel c t conn name dial opened through _ ih =>
    rw [getElem?_concat_of_lt old] at opened
    have earlier := backward c t conn opened through
    have inside : t < conns.length := Nat.lt_trans earlier old
    exact .tunnel opened through (ih inside)

theorem Upheld.concat {r : Registry} (backward : Backward conns) {c : ConnId} (old : c < conns.length)
    (upheld : Upheld r conns c) (new : Connection) : Upheld r (conns ++ [new]) c :=
  fun name dial relies => upheld name dial (relies.of_concat backward old)

end

/-! ## Pooled connections -/

namespace Slots

theorem pooled_eq_some_iff {slots : Slots} {closed : List ConnId} {name : String} {c : ConnId} :
    slots.pooled closed name = some c ↔ ∃ slot, slots.get? name = some slot ∧ slot.status = .connected ∧
      slot.connection = some c ∧ c ∉ closed := by
  unfold pooled slot
  cases found : slots.get? name with
  | none => simp
  | some slot =>
    simp only [Option.getD_some, Option.some.injEq, exists_eq_left']
    split
    · rename_i connected
      simp [Option.filter_eq_some_iff, connected]
    · rename_i other
      simp [other]

/-- `slots'` hands out no connection that `slots` does not. -/
def Fewer (closed : List ConnId) (slots slots' : Slots) : Prop :=
  ∀ name c, slots'.pooled closed name = some c → slots.pooled closed name = some c

theorem Fewer.refl (closed : List ConnId) (slots : Slots) : Fewer closed slots slots := fun _ _ pooled => pooled

theorem Fewer.trans {closed : List ConnId} {a b c : Slots} (first : Fewer closed a b) (second : Fewer closed b c) :
    Fewer closed a c := fun name d pooled => first name d (second name d pooled)

/-- A slot that is not connected hands out nothing. -/
theorem fewer_insert {closed : List ConnId} (slots : Slots) (name : String) {slot : Slot}
    (off : slot.status ≠ .connected) : Fewer closed slots (slots.insert name slot) := by
  intro other c pooled
  obtain ⟨found, here, connected, rest⟩ := pooled_eq_some_iff.mp pooled
  rw [Dict.get?_insert] at here
  split at here
  · cases here
    exact absurd connected off
  · exact pooled_eq_some_iff.mpr ⟨found, here, connected, rest⟩

theorem fewer_setStatus {closed : List ConnId} (slots : Slots) (name : String) {status : ConnectionStatus}
    (off : status ≠ .connected) : Fewer closed slots (slots.setStatus name status) :=
  fewer_insert slots name off

theorem fewer_clear {closed : List ConnId} (slots : Slots) (name : String) :
    Fewer closed slots (slots.clear name) := by
  unfold clear
  split
  · exact fewer_insert slots name (by simp)
  · exact .refl _ _

theorem fewer_handleFailure {closed : List ConnId} (slots : Slots) (name : String) (e : PoolError) :
    Fewer closed slots (slots.handleFailure name e).1 := by
  unfold handleFailure
  split <;> first | exact fewer_setStatus slots name (by simp) | exact .refl _ _

theorem fewer_raiseThrough {closed : List ConnId} (e : PoolError) (frames : List Frame) (slots : Slots) :
    Fewer closed slots (raiseThrough e frames slots).1 := by
  induction frames generalizing e slots with
  | nil => exact .refl _ _
  | cons frame frames ih => exact (fewer_handleFailure slots frame.name e).trans (ih _ _)

/-- A closed connection is not handed out. -/
theorem pooled_cons {closed : List ConnId} {slots : Slots} {name : String} {c d : ConnId}
    (pooled : slots.pooled (d :: closed) name = some c) : slots.pooled closed name = some c := by
  obtain ⟨slot, found, connected, stored, open_⟩ := pooled_eq_some_iff.mp pooled
  exact pooled_eq_some_iff.mpr ⟨slot, found, connected, stored, fun gone => open_ (List.mem_cons_of_mem _ gone)⟩

end Slots

/-! ## Calls in progress -/

/-- The arguments of a frame are those of its configuration. -/
structure Frame.Built (f : Frame) : Prop where
  port : f.args.port = f.cfg.port
  user : f.args.username = f.cfg.user

/-- A frame that dials has the tunnel its configuration asks for. -/
def Frame.Tunnelled (conns : List Connection) (f : Frame) : Prop :=
  match f.cfg.jumpHost with
  | none => f.args.tunnel = none
  | some jump => ∃ t conn, f.args.tunnel = some t ∧ conns[t]? = some conn ∧ conn.name = jump

/-- The stack of a call: the first frame dials, each other one waits for the one
before it. -/
structure Linked (conns : List Connection) (frames : List Frame) : Prop where
  built : ∀ f ∈ frames, f.Built
  dialing : ∀ f ∈ frames.head?, f.Tunnelled conns
  waiting : frames.IsChain fun inner outer => outer.cfg.jumpHost = some inner.name
  bare : ∀ f ∈ frames.tail, f.args.tunnel = none

/-- The registry still has for every frame what it looked up, and the frames'
tunnels are upheld. -/
def StackUpheld (r : Registry) (conns : List Connection) (frames : List Frame) : Prop :=
  ∀ f ∈ frames, r.dial? f.name = some f.cfg.dial ∧ ∀ t, f.args.tunnel = some t → Upheld r conns t

/-- What every step keeps true of the slots. -/
def SlotsFine (r : Registry) (conns : List Connection) (closed : List ConnId) (slots : Slots) : Prop :=
  ∀ name c, slots.pooled closed name = some c →
    ∃ conn, conns[c]? = some conn ∧ conn.name = name ∧ (r.find? name = none ∨ Upheld r conns c)

theorem Frame.Tunnelled.concat {conns : List Connection} {f : Frame} (tunnelled : f.Tunnelled conns)
    (new : Connection) : f.Tunnelled (conns ++ [new]) := by
  unfold Frame.Tunnelled at tunnelled ⊢
  split
  · rename_i noJump
    simpa [noJump] using tunnelled
  · rename_i jump jumps
    simp only [jumps] at tunnelled
    obtain ⟨t, conn, through, opened, named⟩ := tunnelled
    exact ⟨t, conn, through, by rw [getElem?_concat_of_lt (List.getElem?_eq_some_iff.mp opened).1, opened], named⟩

/-- The tunnel of a dialing frame was opened before. -/
theorem Frame.Tunnelled.lt {conns : List Connection} {f : Frame} (tunnelled : f.Tunnelled conns) {t : ConnId}
    (through : f.args.tunnel = some t) : t < conns.length := by
  unfold Frame.Tunnelled at tunnelled
  split at tunnelled
  · simp [through] at tunnelled
  · obtain ⟨t', conn, through', opened, -⟩ := tunnelled
    obtain rfl : t' = t := by simpa [through'] using through
    exact (List.getElem?_eq_some_iff.mp opened).1

theorem Linked.single {conns : List Connection} {f : Frame} (built : f.Built) (dials : f.Tunnelled conns) :
    Linked conns [f] :=
  ⟨by simpa using built, by simpa using dials, by simp, by simp⟩

/-- A frame that waits for the last one of the stack. -/
theorem Linked.concat {conns : List Connection} {frames : List Frame} {outer : Frame} {jump : String}
    (linked : Linked conns frames) (last : frames.getLast?.map Frame.name = some jump) (built : outer.Built)
    (waits : outer.cfg.jumpHost = some jump) (bare : outer.args.tunnel = none) : Linked conns (frames ++ [outer]) := by
  cases frames with
  | nil => simp at last
  | cons first frames =>
    refine ⟨fun f member => ?_, fun f head => linked.dialing f (by simpa using head), ?_, fun f member => ?_⟩
    · rcases List.mem_append.mp member with old | new
      · exact linked.built f old
      · obtain rfl := List.mem_singleton.mp new
        exact built
    · refine linked.waiting.append (by simp) ?_
      intro f outermost g this
      simp only [List.head?_cons, Option.mem_def, Option.some.injEq] at this
      subst this
      rw [Option.mem_def.mp outermost, Option.map_some, Option.some.injEq] at last
      rw [waits, last]
    · rcases List.mem_append.mp member with old | new
      · exact linked.bare f old
      · obtain rfl := List.mem_singleton.mp new
        exact bare

theorem StackUpheld.concat {r : Registry} {conns : List Connection} {frames : List Frame} {outer : Frame}
    (upheld : StackUpheld r conns frames) (dialed : r.dial? outer.name = some outer.cfg.dial)
    (bare : outer.args.tunnel = none) : StackUpheld r conns (frames ++ [outer]) := by
  intro f member
  rcases List.mem_append.mp member with old | new
  · exact upheld f old
  · obtain rfl := List.mem_singleton.mp new
    exact ⟨dialed, by simp [bare]⟩

/-- The next frame of a stack dials through the connection of the first one. -/
theorem Linked.deliver {conns : List Connection} {frame outer : Frame} {rest : List Frame}
    (linked : Linked conns (frame :: outer :: rest)) {c : ConnId} {conn : Connection} (opened : conns[c]? = some conn)
    (named : conn.name = frame.name) :
    Linked conns ({ outer with args := { outer.args with tunnel := some c } } :: rest) := by
  obtain ⟨built, -, waiting, bare⟩ := linked
  obtain ⟨jumps, waiting⟩ := List.isChain_cons_cons.mp waiting
  have builtOuter := built outer (by simp)
  refine ⟨fun f member => ?_, fun f first => ?_, ?_, fun f member => bare f (List.mem_cons_of_mem _ member)⟩
  · rcases List.mem_cons.mp member with rfl | inside
    · exact ⟨builtOuter.port, builtOuter.user⟩
    · exact built f (by simp [inside])
  · simp only [List.head?_cons, Option.mem_def, Option.some.injEq] at first
    subst first
    simp only [Frame.Tunnelled, jumps]
    exact ⟨c, conn, rfl, opened, named⟩
  · cases rest with
    | nil => simp
    | cons next rest =>
      obtain ⟨jumps, waiting⟩ := List.isChain_cons_cons.mp waiting
      exact List.isChain_cons_cons.mpr ⟨jumps, waiting⟩

theorem StackUpheld.deliver {r : Registry} {conns : List Connection} {frame outer : Frame} {rest : List Frame}
    (stack : StackUpheld r conns (frame :: outer :: rest)) {c : ConnId} (upheld : Upheld r conns c) :
    StackUpheld r conns ({ outer with args := { outer.args with tunnel := some c } } :: rest) := by
  intro f member
  rcases List.mem_cons.mp member with rfl | inside
  · refine ⟨(stack outer (by simp)).1, fun t through => ?_⟩
    obtain rfl : c = t := by simpa using through
    exact upheld
  · exact stack f (by simp [inside])

theorem connectArgs_built {ctx : PoolContext} {hosts : HostsFile} {cfg : ServerConfig} {args : ConnectArgs}
    (made : connectArgs ctx hosts cfg = .ok args) :
    args.port = cfg.port ∧ args.username = cfg.user ∧ args.tunnel = none := by
  unfold connectArgs at made
  split at made
  · cases made
  split at made
  · cases made
  · cases made
    exact ⟨rfl, rfl, rfl⟩

/-- What a call of `get_connection` leaves behind at its first interruption. -/
structure EnterSpec (r : Registry) (conns : List Connection) (closed : List ConnId) (name : String) (slots : Slots)
    (e : Entered) : Prop where
  fewer : Slots.Fewer closed slots e.slots
  ended : ∀ n c, (n, .ok c) ∈ e.ended → slots.pooled closed n = some c ∧ (r.find? n).isSome
  returned : ∀ c, e.progress = .returned c → slots.pooled closed name = some c ∧ (r.find? name).isSome
  suspended : ∀ frames, e.progress = .suspended frames →
    Linked conns frames ∧ StackUpheld r conns frames ∧ frames.getLast?.map Frame.name = some name

theorem enter_spec (ctx : PoolContext) {r : Registry} {conns : List Connection} {closed : List ConnId}
    (hosts : HostsFile) (fuel : Nat) (name : String) (slots : Slots) (fine : SlotsFine r conns closed slots) :
    EnterSpec r conns closed name slots (enter ctx r closed hosts fuel name slots) := by
  induction fuel generalizing name slots with
  | zero => exact ⟨.refl _ _, by simp [enter], by simp [enter], by simp [enter]⟩
  | succ fuel ih =>
    unfold enter
    split
    · exact ⟨.refl _ _, by simp, by simp, by simp⟩
    rename_i cfg looked
    have found := Registry.get_ok_iff.mp looked
    split
    · rename_i c pooled
      refine ⟨.refl _ _, ?_, ?_, by simp⟩
      · intro n d member
        simp only [List.mem_singleton, Prod.mk.injEq, Except.ok.injEq] at member
        obtain ⟨rfl, rfl⟩ := member
        exact ⟨pooled, by simp [found]⟩
      · rintro d ⟨⟩
        exact ⟨pooled, by simp [found]⟩
    have connecting : Slots.Fewer closed slots (slots.setStatus name .connecting) :=
      Slots.fewer_setStatus slots name (by simp)
    have dialed : r.dial? name = some cfg.dial := by simp [Registry.dial?, found]
    split
    · exact ⟨connecting.trans (Slots.fewer_handleFailure _ _ _), by simp, by simp, by simp⟩
    rename_i args made
    obtain ⟨port, user, bare⟩ := connectArgs_built made
    split
    · rename_i noJump
      refine ⟨connecting, by simp, by simp, ?_⟩
      rintro frames ⟨⟩
      refine ⟨.single ⟨port, user⟩ (by simpa [Frame.Tunnelled, noJump] using bare), ?_, rfl⟩
      simpa [StackUpheld, bare] using dialed
    rename_i jump jumps
    have inner := ih jump (slots.setStatus name .connecting) fun n c pooled => fine n c (connecting n c pooled)
    have ended : ∀ n c, (n, .ok c) ∈ (enter ctx r closed hosts fuel jump (slots.setStatus name .connecting)).ended →
        slots.pooled closed n = some c ∧ (r.find? n).isSome := fun n c member =>
      (inner.ended n c member).imp_left (connecting n c)
    simp only
    split
    · rename_i t returned
      obtain ⟨pooled, registered⟩ := inner.returned t returned
      obtain ⟨conn, opened, named, upheld⟩ := fine jump t (connecting jump t pooled)
      refine ⟨connecting.trans inner.fewer, ended, by simp, ?_⟩
      rintro frames ⟨⟩
      have standing : Upheld r conns t := upheld.resolve_left fun missing => by simp [missing] at registered
      refine ⟨.single ⟨port, user⟩ ?_, ?_, rfl⟩
      · simpa [Frame.Tunnelled, jumps] using ⟨conn, opened, named⟩
      · simpa [StackUpheld] using ⟨dialed, standing⟩
    · refine ⟨connecting.trans (inner.fewer.trans (Slots.fewer_handleFailure _ _ _)), fun n c member => ?_,
        by simp, by simp⟩
      simp only [List.mem_append, List.mem_singleton, Prod.mk.injEq, reduceCtorEq, and_false, or_false] at member
      exact ended n c member
    · rename_i frames suspended
      obtain ⟨linked, upheld, last⟩ := inner.suspended frames suspended
      refine ⟨connecting.trans inner.fewer, ended, by simp, ?_⟩
      rintro all ⟨⟩
      exact ⟨linked.concat last ⟨port, user⟩ jumps bare, upheld.concat dialed bare, by simp⟩

/-! ## Runs -/

namespace World

/-- A registry operation rebinds no name that is relied on: every pooled connection
whose own name stays registered is upheld after it, and so is every call in
progress. -/
def Harmless (rt : Runtime) (w : World) : PoolEvent → Prop
  | .registry op =>
    (∀ name c, w.slots.pooled w.closed name = some c → (w.store.after rt op).registry.find? name = none ∨
      Upheld (w.store.after rt op).registry w.conns c) ∧
    ∀ frames ∈ w.tasks, StackUpheld (w.store.after rt op).registry w.conns frames
  | _ => True

/-- What every step of a harmless run preserves. -/
structure Fine (w : World) : Prop where
  backward : Backward w.conns
  slots : SlotsFine w.store.registry w.conns w.closed w.slots
  linked : ∀ frames ∈ w.tasks, Linked w.conns frames
  tasks : ∀ frames ∈ w.tasks, StackUpheld w.store.registry w.conns frames

/-- The calls that ended in the last step returned fresh connections. -/
def AnswersFresh (w : World) : Prop :=
  ∀ name c, (name, .ok c) ∈ w.ended → Fresh w.store.registry w.conns name c

variable {ctx : PoolContext} {rt : Runtime} {w : World}

/-- A step that opens no connection, starts no call and pools nothing. -/
theorem Fine.quiet (fine : w.Fine) {w' : World} (store : w'.store = w.store) (conns : w'.conns = w.conns)
    (tasks : ∀ frames ∈ w'.tasks, frames ∈ w.tasks)
    (pooled : ∀ name c, w'.slots.pooled w'.closed name = some c → w.slots.pooled w.closed name = some c) : w'.Fine := by
  refine ⟨conns ▸ fine.backward, fun name c here => ?_, fun frames member => ?_, fun frames member => ?_⟩
  · rw [store, conns]
    exact fine.slots name c (pooled name c here)
  · rw [conns]
    exact fine.linked frames (tasks frames member)
  · rw [store, conns]
    exact fine.tasks frames (tasks frames member)

theorem Fine.get (fine : w.Fine) (name : String) : (w.get ctx name).Fine ∧ (w.get ctx name).AnswersFresh := by
  have spec := enter_spec ctx w.hosts ctx.recursionLimit name w.slots fine.slots
  have calls : ∀ frames ∈ (w.get ctx name).tasks, frames ∈ w.tasks ∨
      (Linked w.conns frames ∧ StackUpheld w.store.registry w.conns frames) := by
    intro frames member
    simp only [World.get] at member
    split at member
    · rename_i new suspended
      obtain ⟨linked, upheld, -⟩ := spec.suspended new suspended
      rcases List.mem_append.mp member with old | added
      · exact .inl old
      · obtain rfl := List.mem_singleton.mp added
        exact .inr ⟨linked, upheld⟩
    · exact .inl member
  refine ⟨⟨fine.backward, fun n c pooled => fine.slots n c (spec.fewer n c pooled), fun frames member => ?_,
    fun frames member => ?_⟩, fun n c member => ?_⟩
  · rcases calls frames member with old | ⟨linked, -⟩
    · exact fine.linked frames old
    · exact linked
  · rcases calls frames member with old | ⟨-, upheld⟩
    · exact fine.tasks frames old
    · exact upheld
  · obtain ⟨pooled, registered⟩ := spec.ended n c member
    obtain ⟨conn, opened, rfl, upheld⟩ := fine.slots n c pooled
    exact (upheld.resolve_left fun missing => by simp [missing] at registered).fresh fine.backward opened

theorem mem_raiseThrough {e : PoolError} {frames : List Frame} {slots : Slots} {name : String} {c : ConnId} :
    (name, .ok c) ∉ (raiseThrough e frames slots).2 := by
  induction frames generalizing e slots with
  | nil => simp [raiseThrough]
  | cons frame frames ih => simp [raiseThrough, ih]

theorem Fine.fail (fine : w.Fine) (task : Nat) (frames : List Frame) (e : PoolError) :
    (w.fail task frames e).Fine ∧ (w.fail task frames e).AnswersFresh :=
  ⟨fine.quiet rfl rfl (fun _ member => List.mem_of_mem_eraseIdx member) (Slots.fewer_raiseThrough e frames w.slots),
    fun _ _ member => absurd member mem_raiseThrough⟩

/-- Opening a connection keeps everything as it is. -/
theorem Fine.open (fine : w.Fine) (new : Connection) (earlier : ∀ t, new.args.tunnel = some t → t < w.conns.length) :
    ({ w with conns := w.conns ++ [new] } : World).Fine := by
  refine ⟨?_, fun name c pooled => ?_, fun frames member => ?_, fun frames member f inside => ?_⟩
  · intro c t conn opened through
    by_cases old : c < w.conns.length
    · rw [getElem?_concat_of_lt old] at opened
      exact fine.backward c t conn opened through
    · have last : c = w.conns.length := by
        have bound := (List.getElem?_eq_some_iff.mp opened).1
        rw [List.length_append, List.length_singleton] at bound
        exact Nat.le_antisymm (Nat.lt_succ_iff.mp bound) (Nat.not_lt.mp old)
      subst last
      simp only [List.getElem?_concat_length, Option.some.injEq] at opened
      subst opened
      exact earlier t through
  · obtain ⟨conn, opened, named, upheld⟩ := fine.slots name c pooled
    have old := (List.getElem?_eq_some_iff.mp opened).1
    refine ⟨conn, by rw [getElem?_concat_of_lt old, opened], named, ?_⟩
    exact upheld.imp_right fun upheld => upheld.concat fine.backward old new
  · have linked := fine.linked frames member
    exact ⟨linked.built, fun f first => (linked.dialing f first).concat new, linked.waiting, linked.bare⟩
  · obtain ⟨dial, upheld⟩ := fine.tasks frames member f inside
    refine ⟨dial, fun t through => (upheld t through).concat fine.backward ?_ new⟩
    have linked := fine.linked frames member
    cases frames with
    | nil => cases inside
    | cons first rest =>
      rcases List.mem_cons.mp inside with rfl | waiting
      · exact (linked.dialing f (by simp)).lt through
      · simp [linked.bare f waiting] at through

/-- The connection that a dialing frame opens relies on nothing but what the frame
relies on. -/
theorem Fine.upheld_new (fine : w.Fine) {frame : Frame} {rest : List Frame} (call : frame :: rest ∈ w.tasks) :
    Upheld w.store.registry (w.conns ++ [⟨frame.name, frame.cfg.host, frame.args⟩]) w.conns.length := by
  have linked := fine.linked _ call
  obtain ⟨dial, tunnels⟩ := fine.tasks _ call frame (by simp)
  have built := linked.built frame (by simp)
  have dialing := linked.dialing frame (by simp)
  intro name d relies
  cases relies with
  | own opened =>
    simp only [List.getElem?_concat_length, Option.some.injEq] at opened
    subst opened
    rw [dial]
    simp only [Connection.dial, ServerConfig.dial, built.port, built.user, Option.some.injEq, Dial.mk.injEq, true_and]
    unfold Frame.Tunnelled at dialing
    split at dialing
    · rename_i noJump
      simp [noJump, dialing]
    · rename_i jump jumps
      obtain ⟨t, conn, through, opened, named⟩ := dialing
      simp [jumps, through, getElem?_concat_of_lt (List.getElem?_eq_some_iff.mp opened).1, opened, named]
  | tunnel opened through relies =>
    simp only [List.getElem?_concat_length, Option.some.injEq] at opened
    subst opened
    exact tunnels _ through name d (relies.of_concat fine.backward (dialing.lt through))

/-- A frame returns the connection it opened. -/
theorem Fine.deliver (fine : w.Fine) {task : Nat} {frame : Frame} {rest : List Frame} (call : frame :: rest ∈ w.tasks)
    {c : ConnId} {conn : Connection} (opened : w.conns[c]? = some conn) (named : conn.name = frame.name)
    (upheld : Upheld w.store.registry w.conns c) :
    (w.deliver task frame rest c).Fine ∧ (w.deliver task frame rest c).AnswersFresh := by
  have calls : ∀ frames ∈ (w.deliver task frame rest c).tasks, frames ∈ w.tasks ∨
      (Linked w.conns frames ∧ StackUpheld w.store.registry w.conns frames) := by
    intro frames member
    cases rest with
    | nil => exact .inl (List.mem_of_mem_eraseIdx member)
    | cons outer rest =>
      rcases List.mem_or_eq_of_mem_set member with old | rfl
      · exact .inl old
      exact .inr ⟨(fine.linked _ call).deliver opened named, (fine.tasks _ call).deliver upheld⟩
  refine ⟨⟨fine.backward, fun name d pooled => ?_, fun frames member => ?_, fun frames member => ?_⟩,
    fun name d member => ?_⟩
  · obtain ⟨slot, found, connected, stored, open_⟩ := Slots.pooled_eq_some_iff.mp pooled
    change (w.slots.insert frame.name ⟨some c, .connected⟩).get? name = some slot at found
    rw [Dict.get?_insert] at found
    split at found
    · rename_i same
      cases found
      obtain rfl : c = d := by simpa using stored
      exact ⟨conn, opened, by rw [named, same], .inr upheld⟩
    · exact fine.slots name d (Slots.pooled_eq_some_iff.mpr ⟨slot, found, connected, stored, open_⟩)
  · rcases calls frames member with old | ⟨linked, -⟩
    · exact fine.linked frames old
    · exact linked
  · rcases calls frames member with old | ⟨-, stack⟩
    · exact fine.tasks frames old
    · exact stack
  · simp only [World.deliver, List.mem_singleton, Prod.mk.injEq, Except.ok.injEq] at member
    obtain ⟨rfl, rfl⟩ := member
    rw [← named]
    exact upheld.fresh fine.backward opened

theorem Fine.dialed (fine : w.Fine) {task : Nat} {frame : Frame} {rest : List Frame} (call : frame :: rest ∈ w.tasks)
    (outcome : DialOutcome) :
    (w.dialed ctx task frame rest outcome).Fine ∧ (w.dialed ctx task frame rest outcome).AnswersFresh := by
  cases outcome with
  | failed e lost =>
    have settled : ({ w with slots := if lost then w.slots.clear frame.name else w.slots } : World).Fine := by
      refine fine.quiet rfl rfl (fun _ member => member) fun name c pooled => ?_
      cases lost with
      | false => exact pooled
      | true => exact Slots.fewer_clear w.slots frame.name name c pooled
    exact settled.fail task (frame :: rest) e.toPoolError
  | up key appends lost =>
    have linked := fine.linked _ call
    have opened := fine.open ⟨frame.name, frame.cfg.host, frame.args⟩ fun t through =>
      (linked.dialing frame (by simp)).lt through
    -- the connection is open, whether or not it is lost again at once
    have settled : ({ w with
        conns := w.conns ++ [⟨frame.name, frame.cfg.host, frame.args⟩]
        closed := if lost then w.conns.length :: w.closed else w.closed
        slots := if lost then w.slots.clear frame.name else w.slots } : World).Fine := by
      refine opened.quiet rfl rfl (fun _ member => member) fun name c pooled => ?_
      cases lost with
      | false => exact pooled
      | true => exact Slots.fewer_clear w.slots frame.name name c (Slots.pooled_cons pooled)
    unfold World.dialed
    simp only
    split
    · exact settled.fail task _ _
    · rename_i hosts recorded
      exact Fine.deliver (w := { w with
          conns := w.conns ++ [⟨frame.name, frame.cfg.host, frame.args⟩]
          closed := if lost then w.conns.length :: w.closed else w.closed
          slots := if lost then w.slots.clear frame.name else w.slots
          hosts })
        (settled.quiet rfl rfl (fun _ member => member) fun _ _ pooled => pooled) call
        List.getElem?_concat_length rfl (fine.upheld_new call)

/-- **One harmless step keeps the pool fine and returns only fresh connections.** -/
theorem Fine.step (fine : w.Fine) {event : PoolEvent} {w' : World} (harmless : w.Harmless rt event)
    (stepped : w.step ctx rt event = some w') : w'.Fine ∧ w'.AnswersFresh := by
  -- a step in which no call ends
  have silent : ∀ w' : World, w'.ended = [] → w'.AnswersFresh := fun _ none_ _ _ member => by
    rw [none_] at member
    cases member
  cases event with
  | registry op =>
    cases stepped
    exact ⟨⟨fine.backward, fun name c pooled => by
        obtain ⟨conn, opened, named, -⟩ := fine.slots name c pooled
        exact ⟨conn, opened, named, harmless.1 name c pooled⟩, fine.linked, harmless.2⟩, silent _ rfl⟩
  | get name =>
    cases stepped
    exact fine.get name
  | dialed task outcome =>
    obtain ⟨frame, rest, found, rfl⟩ := step_dialed stepped
    exact fine.dialed (List.mem_of_getElem? found) outcome
  | lost c =>
    obtain ⟨conn, -, -, rfl⟩ := step_lost stepped
    exact ⟨fine.quiet rfl rfl (fun _ member => member) fun name d pooled =>
      Slots.fewer_clear w.slots conn.name name d (Slots.pooled_cons pooled), silent _ rfl⟩
  | close name =>
    cases stepped
    unfold World.close
    split
    · exact ⟨fine.quiet rfl rfl (fun _ member => member) fun _ _ pooled => pooled, silent _ rfl⟩
    split
    · split
      · exact ⟨fine.quiet rfl rfl (fun _ member => member) (Slots.fewer_clear w.slots name), silent _ rfl⟩
      · exact ⟨fine.quiet rfl rfl (fun _ member => member) fun _ _ pooled => pooled, silent _ rfl⟩
    · exact ⟨fine.quiet rfl rfl (fun _ member => member) (Slots.fewer_clear w.slots name), silent _ rfl⟩
  | closed call =>
    obtain ⟨name, c, -, -, rfl⟩ := step_closed stepped
    exact ⟨fine.quiet rfl rfl (fun _ member => member) (Slots.fewer_clear w.slots name), silent _ rfl⟩
  | pin name =>
    cases stepped
    exact ⟨fine.quiet rfl rfl (fun _ member => member) fun _ _ pooled => pooled, silent _ rfl⟩
  | unpin name =>
    cases stepped
    exact ⟨fine.quiet rfl rfl (fun _ member => member) fun _ _ pooled => pooled, silent _ rfl⟩
  | edit hosts =>
    cases stepped
    exact ⟨fine.quiet rfl rfl (fun _ member => member) fun _ _ pooled => pooled, silent _ rfl⟩

theorem fine_start (store : Store) (hosts : HostsFile) : (start store hosts).Fine ∧ (start store hosts).AnswersFresh :=
  ⟨⟨fun c t conn opened => by simp [start] at opened, fun name c pooled => by
      simp [start, Slots.pooled, Slots.slot] at pooled, by simp [start], by simp [start]⟩, by simp [AnswersFresh, start]⟩

/-- **In every run in which no registry operation rebinds a name that a pooled
connection or a call in progress relies on, every connection that `get_connection`
returns was dialed with the configuration its name resolves to**, and so were its
tunnels. -/
theorem getConnection_fresh (ctx : PoolContext) (rt : Runtime) (store : Store) (hosts : HostsFile)
    (events : List PoolEvent) (w : World)
    (run : Run (guard (system ctx rt) (Harmless rt)) (start store hosts) events w) (name : String) (c : ConnId)
    (returned : (name, .ok c) ∈ w.ended) : Fresh w.store.registry w.conns name c := by
  have keep : ∀ (w : World) (event : PoolEvent) (w' : World), w.Fine ∧ w.AnswersFresh →
      guard (system ctx rt) (Harmless rt) w event w' → w'.Fine ∧ w'.AnswersFresh :=
    fun _ _ _ before step => before.1.step step.2 step.1
  have kept : w.Fine ∧ w.AnswersFresh := run.preserves keep (fine_start store hosts)
  exact kept.2 name c returned

/-! ## Two runs -/

/-- A process with an SSH agent. -/
def sampleContext : PoolContext := ⟨{}, fun _ => some "agent.sock", id, 10⟩

def firstServer : ServerConfig := { name := "web", host := "10.0.0.1", user := "root", authType := .agent }

def secondServer : ServerConfig := { firstServer with host := "10.0.0.2" }

/-- Register a server and connect to it. -/
def connectFirst : List PoolEvent :=
  [.registry (.addEphemeral firstServer), .get "web", .dialed 0 (.up none true false)]

def behindServer : ServerConfig := { firstServer with name := "db", host := "10.1.0.1", jumpHost := some "web" }

/-- Register a server behind it, and connect through a tunnel. -/
def connectBehind : List PoolEvent :=
  connectFirst ++ [.registry (.addEphemeral behindServer), .get "db", .dialed 0 (.up none true false)]

/-- The tunnel is fresh, and the server is registered while its jump host is in use. -/
theorem getConnection_fresh_behind : ∃ w, Run (guard (system sampleContext .inert) (Harmless .inert))
    (start .blank .missing) connectBehind w ∧ Fresh w.store.registry w.conns "db" 1 := by
  have run : ∃ w, Run (guard (system sampleContext .inert) (Harmless .inert)) (start .blank .missing) connectBehind w ∧
      ("db", .ok 1) ∈ w.ended := by
    refine ⟨_, .step ⟨rfl, ?_, ?_⟩ (.step ⟨rfl, trivial⟩ (.step ⟨rfl, trivial⟩ (.step ⟨rfl, ?_, ?_⟩
      (.step ⟨rfl, trivial⟩ (.step ⟨rfl, trivial⟩ (.refl _)))))), ?_⟩
    · intro name c pooled
      simp [start, Slots.pooled, Slots.slot] at pooled
    · intro frames member
      cases member
    · -- what is pooled is the connection to the first server, which has no tunnel
      refine fun _ c _ => .inr fun name dial relies => ?_
      cases relies with
      | own opened =>
        cases c with
        | zero =>
          cases opened
          rfl
        | succ c => cases opened
      | tunnel opened through =>
        cases c with
        | zero =>
          cases opened
          cases through
        | succ c => cases opened
    · intro frames member
      cases member
    · decide +kernel
  obtain ⟨w, run, returned⟩ := run
  exact ⟨w, run, getConnection_fresh _ _ _ _ _ w run "db" 1 returned⟩

/-- Replace the server by another one and connect again. -/
def replaceFirst : List PoolEvent :=
  connectFirst ++ [.registry (.removeEphemeral "web"), .registry (.addEphemeral secondServer), .get "web"]

/-- The second server's name still gets the first server's connection. -/
theorem stale_connection_returned : ¬ ∀ (ctx : PoolContext) (rt : Runtime) (store : Store) (hosts : HostsFile)
    (events : List PoolEvent) (w : World), Run (system ctx rt) (start store hosts) events w →
      ∀ name c, (name, .ok c) ∈ w.ended → Fresh w.store.registry w.conns name c := by
  intro fresh
  have run : ∃ w, Run (system sampleContext .inert) (start .blank .missing) replaceFirst w ∧
      ("web", .ok 0) ∈ w.ended ∧ w.store.registry.find? "web" = some secondServer ∧
      w.conns.map Connection.host = ["10.0.0.1"] :=
    ⟨_, .step rfl (.step rfl (.step rfl (.step rfl (.step rfl (.step rfl (.refl _)))))), by decide +kernel,
      by decide +kernel, by decide +kernel⟩
  obtain ⟨w, run, returned, resolves, dialed⟩ := run
  have host : ∀ conn, w.conns[0]? = some conn → conn.host = "10.0.0.1" := by
    intro conn opened
    have member : conn.host ∈ w.conns.map Connection.host :=
      List.mem_map_of_mem (List.mem_of_getElem? opened)
    simpa [dialed] using member
  cases fresh _ _ _ _ _ w run "web" 0 returned with
  | direct now opened same =>
    cases resolves.symm.trans now
    exact absurd ((host _ opened).symm.trans same.host) (by decide)
  | tunnelled now opened same =>
    cases resolves.symm.trans now
    exact absurd ((host _ opened).symm.trans same.host) (by decide)

end World

end McpSsh
