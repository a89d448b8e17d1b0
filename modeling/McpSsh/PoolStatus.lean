import McpSsh.JumpGraph
import McpSsh.PoolFresh

/-!
# Status of a slot after a failed call

`get_connection` marks its slot as connecting and resets it when an exception comes
back, but only for the exceptions its `except` clauses name; the exception they raise
instead is not among them. What a call leaves behind therefore depends on what
was raised and on how many calls wait for the hop that raised it.
-/

set_option autoImplicit false

namespace McpSsh

open Base

/-! ## Exceptions on their way up -/

/-- The exceptions that `get_connection` passes on as they are. -/
def PoolError.passes : PoolError → Bool
  | .mcpSsh (.authError _) | .mcpSsh .hostKeyError | .mcpSsh (.serverNotFound _) => true
  | _ => false

/-- The exceptions that `get_connection` turns into its own `ConnectionError`. -/
def PoolError.translated : PoolError → Bool
  | .disconnect | .os => true
  | _ => false

namespace Slots

def status (slots : Slots) (name : String) : ConnectionStatus := (slots.slot name).status

variable (slots : Slots) (name other : String)

/-- What an operation on the slot of `name` leaves in any slot. -/
theorem slot_insert (new : Slot) :
    Slots.slot (slots.insert name new) other = if other = name then new else slots.slot other := by
  by_cases same : other = name <;> simp [Slots.slot, Dict.get?_insert, same]

theorem slot_setStatus (new : ConnectionStatus) : (slots.setStatus name new).slot other =
    if other = name then { slots.slot other with status := new } else slots.slot other := by
  rw [setStatus, slot_insert]
  split
  · rename_i same
    rw [same]
  · rfl

theorem slot_clear : (slots.clear name).slot other = if other = name then {} else slots.slot other := by
  unfold clear
  split
  · exact slot_insert slots name other _
  · rename_i absent
    split
    · rename_i same
      rw [same, Slots.slot, Dict.get?_eq_none_iff.mpr absent]
      rfl
    · rfl

@[simp] theorem status_setStatus (new : ConnectionStatus) :
    (slots.setStatus name new).status other = if other = name then new else slots.status other := by
  rw [status, slot_setStatus]
  split <;> rfl

@[simp] theorem status_store (c : ConnId) :
    (slots.store name c).status other = if other = name then .connected else slots.status other := by
  rw [status, store, slot_insert]
  split <;> rfl

@[simp] theorem status_clear :
    (slots.clear name).status other = if other = name then .disconnected else slots.status other := by
  rw [status, slot_clear]
  split <;> rfl

/-- The exception goes up through the calls for these names, the innermost first. -/
def unwind (names : List String) (p : Slots × PoolError) : Slots × PoolError :=
  names.foldl (fun p name => p.1.handleFailure name p.2) p

theorem raiseThrough_fst (e : PoolError) (frames : List Frame) (slots : Slots) :
    (raiseThrough e frames slots).1 = (unwind (frames.map Frame.name) (slots, e)).1 := by
  induction frames generalizing e slots with
  | nil => rfl
  | cons frame frames ih => exact ih _ _

theorem handleFailure_passes {e : PoolError} (passes : e.passes = true) :
    slots.handleFailure name e = (slots.setStatus name .disconnected, e) := by
  unfold PoolError.passes at passes
  split at passes
  · rfl
  · rfl
  · rfl
  · cases passes

theorem handleFailure_translated {e : PoolError} (translated : e.translated = true) :
    slots.handleFailure name e = (slots.setStatus name .disconnected, .mcpSsh (.connectionError name)) := by
  unfold PoolError.translated at translated
  split at translated
  · rfl
  · rfl
  · cases translated

theorem handleFailure_other {e : PoolError} (passes : e.passes = false) (translated : e.translated = false) :
    slots.handleFailure name e = (slots, e) := by
  unfold handleFailure
  split
  · cases passes
  · cases passes
  · cases passes
  · cases translated
  · cases translated
  · rfl

theorem unwind_passes {e : PoolError} (passes : e.passes = true) (names : List String) :
    (unwind names (slots, e)).1.status other = if other ∈ names then .disconnected else slots.status other := by
  induction names generalizing slots with
  | nil => rfl
  | cons name names ih =>
    rw [unwind, List.foldl_cons, handleFailure_passes slots name passes]
    refine (ih _).trans ?_
    by_cases here : other = name <;> by_cases later : other ∈ names <;> simp [here, later]

theorem unwind_other {e : PoolError} (passes : e.passes = false) (translated : e.translated = false)
    (names : List String) : unwind names (slots, e) = (slots, e) := by
  induction names with
  | nil => rfl
  | cons name names ih =>
    rw [unwind, List.foldl_cons, handleFailure_other slots name passes translated]
    exact ih

/-- **Which slots an exception resets on its way up**: all of them, the innermost
one, or none. -/
theorem status_unwind (e : PoolError) (names : List String) : (unwind names (slots, e)).1.status other =
    if e.passes = true ∧ other ∈ names ∨ e.translated = true ∧ names.head? = some other then .disconnected
    else slots.status other := by
  cases passes : e.passes with
  | true =>
    have kept : e.translated = false := by
      cases e <;> first | rfl | cases passes
    rw [unwind_passes slots other passes]
    simp [kept]
  | false =>
    cases translated : e.translated with
    | false => simp [unwind_other slots passes translated]
    | true =>
      cases names with
      | nil => simp [unwind]
      | cons name names =>
        rw [unwind, List.foldl_cons, handleFailure_translated slots name translated]
        have rest := unwind_other (slots.setStatus name .disconnected) (e := .mcpSsh (.connectionError name)) rfl rfl names
        rw [unwind] at rest
        simp [rest, eq_comm]

end Slots

/-! ## How far a call comes by itself -/

/-- The calls of `get_connection` that one call starts for its jump hosts, outermost
first, and the exception that stops them before the first dial. -/
structure Descent where
  entered : List (String × ServerConfig)
  stop : Option PoolError

def Descent.names (d : Descent) : List String := d.entered.map Prod.fst

section

variable (ctx : PoolContext) (r : Registry) (closed : List ConnId) (hosts : HostsFile)

/-- How far a call goes down the jump chain. -/
def descent (slots : Slots) : Nat → String → Descent
  | 0, _ => ⟨[], some .recursion⟩
  | fuel + 1, name =>
    match r.find? name with
    | none => ⟨[], some (.mcpSsh (.serverNotFound name))⟩
    | some cfg =>
      if (slots.pooled closed name).isSome then ⟨[], none⟩
      else
        match connectArgs ctx hosts cfg with
        | .error e => ⟨[(name, cfg)], some e⟩
        | .ok _ =>
          match cfg.jumpHost with
          | none => ⟨[(name, cfg)], none⟩
          | some jump =>
            let inner := descent slots fuel jump
            ⟨(name, cfg) :: inner.entered, inner.stop⟩

end

/-- Whether the connection went down before the call went on. -/
def DialOutcome.lost : DialOutcome → Bool
  | .failed _ lost | .up _ _ lost => lost

/-- How a dial ends for the call: with an exception, or with the new known_hosts file. -/
def DialOutcome.result (ctx : PoolContext) (hosts : HostsFile) (cfg : ServerConfig) :
    DialOutcome → Except PoolError HostsFile
  | .failed e _ => .error e.toPoolError
  | .up key appends _ =>
    match recordHostKey ctx hosts cfg appends key with
    | .error e => .error e.toPoolError
    | .ok hosts => .ok hosts

/-- An exception below `asyncssh` or in the preparation of a dial, whether the
connection went down before, and the names of the calls it goes up through. -/
structure Failure where
  exception : PoolError
  lost : Bool
  stack : List String

/-- The first dial of these calls that fails, the innermost call first. -/
def dialFailure (ctx : PoolContext) : HostsFile → List (String × ServerConfig) → List DialOutcome → Option Failure
  | hosts, (hop, cfg) :: waiting, outcome :: later =>
    match outcome.result ctx hosts cfg with
    | .error e => some ⟨e, outcome.lost, hop :: waiting.map Prod.fst⟩
    | .ok hosts => dialFailure ctx hosts waiting later
  | _, _, _ => none

/-- The calls that `get_connection(name)` starts. -/
def World.descent (ctx : PoolContext) (w : World) (name : String) : Descent :=
  McpSsh.descent ctx w.store.registry w.closed w.hosts w.slots ctx.recursionLimit name

/-- How a call of `get_connection(name)` fails whose dials end like this. -/
def World.callFailure (ctx : PoolContext) (w : World) (name : String) (outcomes : List DialOutcome) : Option Failure :=
  match (w.descent ctx name).stop with
  | some e => some ⟨e, false, (w.descent ctx name).names.reverse⟩
  | none => dialFailure ctx w.hosts (w.descent ctx name).entered.reverse outcomes

/-- What a failure makes of the status of a slot it goes through. -/
def Failure.leaves (f : Failure) (before : ConnectionStatus) (name : String) : ConnectionStatus :=
  if f.exception.passes = true ∨ f.stack.head? = some name ∧ (f.exception.translated = true ∨ f.lost = true) then
    .disconnected
  else before

/-- The exception is one that every call on its way passes on, or it is met by one
call only, which resets its slot. -/
def Failure.Handled (f : Failure) : Prop :=
  f.exception.passes = true ∨ f.stack = [] ∨
    f.stack.length = 1 ∧ (f.exception.translated = true ∨ f.lost = true)

/-- A handled failure resets every slot it goes through. -/
theorem Failure.Handled.leaves {f : Failure} (handled : f.Handled) {name : String} (member : name ∈ f.stack)
    {before : ConnectionStatus} : f.leaves before name = .disconnected := by
  rcases handled with passes | empty | ⟨single, resets⟩
  · simp [Failure.leaves, passes]
  · simp [empty] at member
  · obtain ⟨hop, stack⟩ := List.length_eq_one_iff.mp single
    obtain rfl : name = hop := by simpa [stack] using member
    exact if_pos (.inr ⟨by simp [stack], resets⟩)

/-- A failure that resets every slot it goes through is handled. -/
theorem Failure.handled_of_resets (f : Failure)
    (distinct : f.stack.Nodup ∨ f.exception.translated = false ∧ f.lost = false)
    (resets : ∀ name ∈ f.stack, f.leaves .connecting name ≠ .connecting) : f.Handled := by
  obtain ⟨e, lost, stack⟩ := f
  cases stack with
  | nil => exact .inr (.inl rfl)
  | cons hop waiting =>
    cases passes : e.passes with
    | true => exact .inl passes
    | false =>
      have first : e.translated = true ∨ lost = true := by
        by_contra neither
        have here := resets hop (by simp)
        simp [Failure.leaves, passes, neither] at here
      refine .inr (.inr ⟨?_, first⟩)
      -- a call that waits would stay as it is
      cases waiting with
      | nil => rfl
      | cons outer rest =>
        have same : hop = outer := by
          have second := resets outer (by simp)
          simp only [Failure.leaves, passes, List.head?_cons] at second
          by_contra other
          simp [other] at second
        rcases distinct with distinct | ⟨plain, kept⟩
        · simp [same] at distinct
        · rcases first with translated | gone
          · cases plain.symm.trans translated
          · cases kept.symm.trans gone

/-! ## The calls of one descent -/

section

variable {ctx : PoolContext} {r : Registry} {closed : List ConnId} {hosts : HostsFile} {slots : Slots}

/-- The descent reads nothing of the slots but which connections they hand out. -/
theorem descent_congr {slots' : Slots} (same : ∀ name, slots'.pooled closed name = slots.pooled closed name)
    (fuel : Nat) (name : String) :
    descent ctx r closed hosts slots' fuel name = descent ctx r closed hosts slots fuel name := by
  induction fuel generalizing name with
  | zero => rfl
  | succ fuel ih => simp only [descent, same, ih]

/-- Marking a slot that hands out nothing changes nothing for the others. -/
theorem pooled_connecting {name : String} (off : slots.pooled closed name = none) (other : String) :
    (slots.setStatus name .connecting).pooled closed other = slots.pooled closed other := by
  by_cases same : other = name
  · subst same
    rw [off]
    simp [Slots.pooled, Slots.setStatus, Slots.slot]
  · simp [Slots.pooled, Slots.setStatus, Slots.slot, Dict.get?_insert, same]

/-- More stack changes nothing for a descent that did not run out of it. -/
theorem descent_mono {fuel : Nat} {name : String}
    (fits : (descent ctx r closed hosts slots fuel name).stop ≠ some .recursion) {more : Nat} (le : fuel ≤ more) :
    descent ctx r closed hosts slots more name = descent ctx r closed hosts slots fuel name := by
  induction fuel generalizing name more with
  | zero => exact absurd rfl fits
  | succ fuel ih =>
    cases more with
    | zero => omega
    | succ more =>
      unfold descent at fits ⊢
      split
      · rfl
      · rename_i cfg found
        simp only [found] at fits
        split
        · rfl
        · rename_i off
          rw [if_neg off] at fits
          split
          · rfl
          · rename_i made
            simp only [made] at fits
            split
            · rfl
            · rename_i jump jumps
              simp only [jumps] at fits
              have inner : (descent ctx r closed hosts slots fuel jump).stop ≠ some .recursion := fits
              rw [ih inner (by omega)]

variable (ctx r closed hosts slots) in
/-- A descent enters nothing, one call, or the call and what its jump host enters. -/
theorem descent_succ (fuel : Nat) (name : String) :
    (descent ctx r closed hosts slots (fuel + 1) name).names = [] ∨
      slots.pooled closed name = none ∧ (descent ctx r closed hosts slots (fuel + 1) name).names = [name] ∨
      slots.pooled closed name = none ∧ ∃ jump, r.jump name = some jump ∧
        (descent ctx r closed hosts slots (fuel + 1) name).names =
          name :: (descent ctx r closed hosts slots fuel jump).names ∧
        (descent ctx r closed hosts slots (fuel + 1) name).stop = (descent ctx r closed hosts slots fuel jump).stop := by
  cases found : r.find? name with
  | none => simp [descent, found, Descent.names]
  | some cfg =>
    cases pooled : slots.pooled closed name with
    | some c => simp [descent, found, pooled, Descent.names]
    | none =>
      cases made : connectArgs ctx hosts cfg with
      | error e => simp [descent, found, pooled, made, Descent.names]
      | ok args =>
        cases jumps : cfg.jumpHost with
        | none => simp [descent, found, pooled, made, jumps, Descent.names]
        | some jump =>
          exact .inr (.inr ⟨rfl, jump, by simp [Registry.jump, jumpOf, found, jumps],
            by simp [descent, found, pooled, made, jumps, Descent.names],
            by simp [descent, found, pooled, made, jumps]⟩)

/-- What a descent enters after its first call is what a descent from there enters. -/
theorem descent_tail {fuel : Nat} {name : String}
    (fits : (descent ctx r closed hosts slots fuel name).stop ≠ some .recursion) {hop : String}
    (member : hop ∈ (descent ctx r closed hosts slots fuel name).names) :
    ∃ less ≤ fuel, (descent ctx r closed hosts slots less hop).stop ≠ some .recursion ∧
      (descent ctx r closed hosts slots less hop).names.length ≤
        (descent ctx r closed hosts slots fuel name).names.length := by
  induction fuel generalizing name with
  | zero => cases member
  | succ fuel ih =>
    by_cases first : hop = name
    · subst first
      exact ⟨fuel + 1, Nat.le_refl _, fits, Nat.le_refl _⟩
    · rcases descent_succ ctx r closed hosts slots fuel name with
        empty | ⟨-, single⟩ | ⟨-, jump, -, names, stop⟩
      · simp [empty] at member
      · simp [single, first] at member
      · rw [names, List.mem_cons] at member
        rw [stop] at fits
        obtain ⟨less, le, fits', shorter⟩ := ih fits (member.resolve_left first)
        refine ⟨less, by omega, fits', ?_⟩
        rw [names, List.length_cons]
        omega

/-- **A descent that ends enters no call twice.** -/
theorem descent_nodup {fuel : Nat} {name : String}
    (fits : (descent ctx r closed hosts slots fuel name).stop ≠ some .recursion) :
    (descent ctx r closed hosts slots fuel name).names.Nodup := by
  induction fuel generalizing name with
  | zero => exact List.nodup_nil
  | succ fuel ih =>
    rcases descent_succ ctx r closed hosts slots fuel name with
      empty | ⟨-, single⟩ | ⟨-, jump, -, names, stop⟩
    · rw [empty]
      exact List.nodup_nil
    · rw [single]
      exact List.nodup_singleton _
    · have inner := fits
      rw [stop] at inner
      rw [names]
      refine List.nodup_cons.mpr ⟨fun member => ?_, ih inner⟩
      -- the descent from the second call of this name would be as long as the first
      obtain ⟨less, le, fits', shorter⟩ := descent_tail inner member
      have same := descent_mono fits' (by omega : less ≤ fuel + 1)
      have longer := congrArg List.length names
      rw [same, List.length_cons] at longer
      omega

/-- Every call of a descent is for a server on the jump chain. -/
theorem leadsTo_of_mem_names {fuel : Nat} {name hop : String}
    (member : hop ∈ (descent ctx r closed hosts slots fuel name).names) : LeadsTo r.jump name hop := by
  induction fuel generalizing name with
  | zero => cases member
  | succ fuel ih =>
    rcases descent_succ ctx r closed hosts slots fuel name with
      empty | ⟨-, single⟩ | ⟨-, jump, edge, names, -⟩
    · simp [empty] at member
    · obtain rfl : hop = name := by simpa [single] using member
      exact .refl
    · rw [names] at member
      rcases List.mem_cons.mp member with rfl | later
      · exact .refl
      · exact .head edge (ih later)

/-- The slots with these ones marked as connecting. -/
def Slots.connecting (slots : Slots) (names : List String) : Slots :=
  names.foldl (fun slots name => slots.setStatus name .connecting) slots

@[simp] theorem Slots.connecting_nil (slots : Slots) : slots.connecting [] = slots := rfl

@[simp] theorem Slots.connecting_cons (slots : Slots) (name : String) (names : List String) :
    slots.connecting (name :: names) = (slots.setStatus name .connecting).connecting names := rfl

theorem Slots.status_connecting (slots : Slots) (names : List String) (other : String) :
    (slots.connecting names).status other = if other ∈ names then .connecting else slots.status other := by
  induction names generalizing slots with
  | nil => rfl
  | cons name names ih =>
    rw [Slots.connecting_cons, ih]
    by_cases here : other = name <;> by_cases later : other ∈ names <;> simp [here, later]

/-- What a call leaves behind at its first interruption, by the calls it started. -/
structure Follows (d : Descent) (slots : Slots) (entered : Entered) : Prop where
  stopped : ∀ e, d.stop = some e → entered.slots = (Slots.unwind d.names.reverse (slots.connecting d.names, e)).1 ∧
    entered.progress = .raised (Slots.unwind d.names.reverse (slots.connecting d.names, e)).2
  goesOn : d.stop = none → entered.slots = slots.connecting d.names ∧ (∀ hop e, (hop, .error e) ∉ entered.ended) ∧
    ((d.names = [] ∧ ∃ c, entered.progress = .returned c) ∨
      ∃ frames, entered.progress = .suspended frames ∧ frames.map (fun f => (f.name, f.cfg)) = d.entered.reverse)

variable (ctx r closed hosts) in
/-- **A call of `get_connection` follows its descent.** -/
theorem enter_follows (fuel : Nat) (name : String) (slots : Slots) :
    Follows (descent ctx r closed hosts slots fuel name) slots (enter ctx r closed hosts fuel name slots) := by
  induction fuel generalizing name slots with
  | zero => exact ⟨by rintro e ⟨⟩; exact ⟨rfl, rfl⟩, by simp [descent]⟩
  | succ fuel ih =>
    cases found : r.find? name with
    | none =>
      refine ⟨?_, by simp [descent, found]⟩
      simp [descent, enter, found, Registry.get, Descent.names, Slots.unwind]
    | some cfg =>
      have looked := Registry.get_ok_iff.mpr found
      cases pooled : slots.pooled closed name with
      | some c =>
        refine ⟨by simp [descent, found, pooled], fun _ => ?_⟩
        simp [descent, enter, found, looked, pooled, Descent.names]
      | none =>
        cases made : connectArgs ctx hosts cfg with
        | error e =>
          refine ⟨?_, by simp [descent, found, pooled, made]⟩
          simp [descent, enter, found, looked, pooled, made, Descent.names, Slots.unwind]
        | ok args =>
          cases jumps : cfg.jumpHost with
          | none =>
            refine ⟨by simp [descent, found, pooled, made, jumps], fun _ => ?_⟩
            simp [descent, enter, found, looked, pooled, made, jumps, Descent.names]
          | some jump =>
            have inner := ih jump (slots.setStatus name .connecting)
            rw [descent_congr (pooled_connecting pooled)] at inner
            have step : descent ctx r closed hosts slots (fuel + 1) name =
                ⟨(name, cfg) :: (descent ctx r closed hosts slots fuel jump).entered,
                  (descent ctx r closed hosts slots fuel jump).stop⟩ := by
              simp [descent, found, pooled, made, jumps]
            rw [step]
            constructor
            · intro e stop
              obtain ⟨left, raised⟩ := inner.stopped e stop
              simp [enter, looked, pooled, made, jumps, raised, left, Descent.names, Slots.unwind]
            · intro stop
              obtain ⟨left, quiet, outcome⟩ := inner.goesOn stop
              rcases outcome with ⟨none_, c, returned⟩ | ⟨frames, suspended, names⟩
              · have empty : (descent ctx r closed hosts slots fuel jump).entered = [] := List.map_eq_nil_iff.mp none_
                simp [enter, looked, pooled, made, jumps, returned, left, quiet, Descent.names, empty]
              · simp [enter, looked, pooled, made, jumps, suspended, left, quiet, Descent.names, names]

/-- A descent enters no server whose connection is pooled. -/
theorem pooled_of_mem_names {fuel : Nat} {name hop : String}
    (member : hop ∈ (descent ctx r closed hosts slots fuel name).names) : slots.pooled closed hop = none := by
  induction fuel generalizing name with
  | zero => cases member
  | succ fuel ih =>
    rcases descent_succ ctx r closed hosts slots fuel name with
      empty | ⟨off, single⟩ | ⟨off, jump, -, names, -⟩
    · simp [empty] at member
    · obtain rfl : hop = name := by simpa [single] using member
      exact off
    · rw [names] at member
      rcases List.mem_cons.mp member with rfl | later
      · exact off
      · exact ih later

end

/-! ## The dials of one call -/

namespace World

variable {ctx : PoolContext} {rt : Runtime} {w w' : World}

/-- The pool as `asyncssh` leaves it at the end of a dial. -/
def afterDial (w : World) (frame : Frame) : DialOutcome → World
  | .failed _ lost => { w with slots := if lost then w.slots.clear frame.name else w.slots }
  | .up _ _ lost => { w with
      conns := w.conns ++ [Connection.mk frame.name frame.cfg.host frame.args]
      closed := if lost then w.conns.length :: w.closed else w.closed
      slots := if lost then w.slots.clear frame.name else w.slots }

theorem slots_afterDial (frame : Frame) (outcome : DialOutcome) : (w.afterDial frame outcome).slots =
    if outcome.lost then w.slots.clear frame.name else w.slots := by
  cases outcome <;> rfl

theorem store_afterDial (frame : Frame) (outcome : DialOutcome) : (w.afterDial frame outcome).store = w.store := by
  cases outcome <;> rfl

theorem tasks_afterDial (frame : Frame) (outcome : DialOutcome) : (w.afterDial frame outcome).tasks = w.tasks := by
  cases outcome <;> rfl

/-- A dial that ends with an exception ends its call. -/
theorem dialed_error {task : Nat} {frame : Frame} {rest : List Frame} {outcome : DialOutcome} {e : PoolError}
    (failed : outcome.result ctx w.hosts frame.cfg = .error e) :
    w.dialed ctx task frame rest outcome = (w.afterDial frame outcome).fail task (frame :: rest) e := by
  cases outcome with
  | failed cause lost =>
    cases failed
    rfl
  | up key appends lost =>
    simp only [DialOutcome.result] at failed
    split at failed
    · rename_i cause recorded
      cases failed
      simp only [dialed, recorded, afterDial]
    · cases failed

/-- A dial that succeeds hands its connection to the call that waits for it. -/
theorem dialed_ok {task : Nat} {frame : Frame} {rest : List Frame} {outcome : DialOutcome} {hosts : HostsFile}
    (up : outcome.result ctx w.hosts frame.cfg = .ok hosts) : w.dialed ctx task frame rest outcome =
      World.deliver { w.afterDial frame outcome with hosts } task frame rest w.conns.length := by
  cases outcome with
  | failed cause lost => cases up
  | up key appends lost =>
    simp only [DialOutcome.result] at up
    split at up
    · cases up
    · rename_i written recorded
      cases up
      simp only [dialed, recorded, afterDial]

/-- Without a call in progress no dial ends. -/
theorem run_dialed_idle {outcomes : List DialOutcome} (idle : w.tasks = [])
    (run : Run (system ctx rt) w (outcomes.map (.dialed 0)) w') : w' = w := by
  cases outcomes with
  | nil =>
    cases run
    rfl
  | cons outcome later =>
    cases run with
    | step first _ => simp [system, ofFunction, step, idle] at first

/-- **The dials of a call that raises**: the first one that fails decides what is
left of the calls that wait for it, and the hops dialed before are connected. -/
theorem run_dialed {frames : List Frame} {outcomes : List DialOutcome} (one : w.tasks = [frames])
    (distinct : (frames.map Frame.name).Nodup) (quiet : ∀ hop e, (hop, .error e) ∉ w.ended)
    (run : Run (system ctx rt) w (outcomes.map (.dialed 0)) w') (raised : ∃ hop e, (hop, .error e) ∈ w'.ended) :
    ∃ f, dialFailure ctx w.hosts (frames.map fun f => (f.name, f.cfg)) outcomes = some f ∧
      f.stack <:+ frames.map Frame.name ∧ f.stack ≠ [] ∧ w'.store = w.store ∧
      ∀ name, w'.slots.status name = if name ∈ f.stack then f.leaves (w.slots.status name) name
        else if name ∈ frames.map Frame.name then .connected else w.slots.status name := by
  induction outcomes generalizing w frames with
  | nil =>
    cases run
    obtain ⟨hop, e, member⟩ := raised
    exact absurd member (quiet hop e)
  | cons outcome later ih =>
    cases run with
    | step first others =>
      rename_i w₁
      cases frames with
      | nil => simp [system, ofFunction, step, one] at first
      | cons frame rest =>
        obtain rfl : w.dialed ctx 0 frame rest outcome = w₁ := by
          simpa [system, ofFunction, step, one] using first
        obtain ⟨fresh, distinctRest⟩ := List.nodup_cons.mp distinct
        cases result : outcome.result ctx w.hosts frame.cfg with
        | error e =>
          rw [dialed_error result] at others
          obtain rfl := run_dialed_idle (by simp [fail, tasks_afterDial, one]) others
          refine ⟨⟨e, outcome.lost, frame.name :: rest.map Frame.name⟩, by simp [dialFailure, result, List.map_map,
            Function.comp_def], by simp, by simp, store_afterDial frame outcome, fun name => ?_⟩
          simp only [fail, slots_afterDial, Slots.raiseThrough_fst, Slots.status_unwind, Failure.leaves, List.map_cons]
          by_cases here : name = frame.name
          · cases e.passes <;> cases e.translated <;> cases outcome.lost <;> simp [here]
          · by_cases waits : name ∈ rest.map Frame.name <;> cases e.passes <;> cases outcome.lost <;>
              simp [here, waits, Ne.symm here]
        | ok hosts =>
          have stored : ∀ name, ((w.afterDial frame outcome).slots.store frame.name w.conns.length).status name =
              if name = frame.name then .connected else w.slots.status name := by
            intro name
            rw [Slots.status_store, slots_afterDial]
            by_cases here : name = frame.name <;> cases outcome.lost <;> simp [here]
          rw [dialed_ok result] at others
          cases rest with
          | nil =>
            obtain rfl := run_dialed_idle (by simp [deliver, tasks_afterDial, one]) others
            simp [deliver] at raised
          | cons outer rest =>
            obtain ⟨f, fails, inside, some_, store, statuses⟩ :=
              @ih _ ({ outer with args := { outer.args with tunnel := some w.conns.length } } :: rest)
                (by simp [deliver, tasks_afterDial, one]) distinctRest (by simp [deliver]) others
            have apart : frame.name ∉ f.stack := fun member => fresh (inside.subset member)
            refine ⟨f, by simpa [dialFailure, result, deliver] using fails, inside.trans (List.suffix_cons _ _), some_,
              store.trans (store_afterDial frame outcome), fun name => ?_⟩
            rw [statuses]
            simp only [deliver, stored]
            by_cases here : name = frame.name
            · subst here
              simp [apart]
            · simp [here]

/-- `get_connection(name)` raised in the last step. -/
def Raised (w : World) (name : String) : Prop := ∃ e, (name, .error e) ∈ w.ended

/-- Every server on the jump chain of `name` that is not connected is disconnected. -/
def LeavesDisconnected (w : World) (name : String) : Prop :=
  ∀ hop, LeadsTo w.store.registry.jump name hop → w.slots.status hop ≠ .connected → w.slots.status hop = .disconnected

/-- What a call that raises leaves behind. -/
structure CallLeaves (ctx : PoolContext) (w : World) (name : String) (f : Failure) (w' : World) : Prop where
  inside : f.stack ⊆ (w.descent ctx name).names
  distinct : f.stack.Nodup ∨ f.exception.translated = false ∧ f.lost = false
  store : w'.store = w.store
  statuses : ∀ hop, w'.slots.status hop = if hop ∈ f.stack then f.leaves .connecting hop
    else if hop ∈ (w.descent ctx name).names then .connected else w.slots.status hop

theorem call_leaves {name : String} {outcomes : List DialOutcome} (idle : w.tasks = [])
    (run : Run (system ctx rt) w (.get name :: outcomes.map (.dialed 0)) w') (raised : w'.Raised name) :
    ∃ f, w.callFailure ctx name outcomes = some f ∧ CallLeaves ctx w name f w' := by
  cases run with
  | step first others =>
    cases first
    have follows := enter_follows ctx w.store.registry w.closed w.hosts ctx.recursionLimit name w.slots
    change Follows (w.descent ctx name) w.slots _ at follows
    have fits : (w.descent ctx name).stop ≠ some .recursion → (w.descent ctx name).names.Nodup := descent_nodup
    cases stop : (w.descent ctx name).stop with
    | some e =>
      obtain ⟨left, progress⟩ := follows.stopped e stop
      obtain rfl := run_dialed_idle (by simp [World.get, progress, idle]) others
      refine ⟨⟨e, false, (w.descent ctx name).names.reverse⟩, by simp [callFailure, stop], ?_⟩
      constructor
      · exact fun hop member => List.mem_reverse.mp member
      · by_cases deep : e = .recursion
        · exact .inr ⟨by simp [deep, PoolError.translated], rfl⟩
        · exact .inl (List.nodup_reverse.mpr (fits (by simp [stop, deep])))
      · rfl
      · intro hop
        simp only [World.get, left, Slots.status_unwind, Slots.status_connecting, Failure.leaves, List.mem_reverse]
        by_cases entered : hop ∈ (w.descent ctx name).names
        · cases e.passes <;> cases e.translated <;> simp [entered]
        · have notHead : (w.descent ctx name).names.getLast? ≠ some hop := fun last =>
            entered (List.mem_of_getLast? last)
          simp [entered, notHead]
    | none =>
      obtain ⟨left, quiet, outcome⟩ := follows.goesOn stop
      rcases outcome with ⟨-, c, returned⟩ | ⟨frames, suspended, calls⟩
      · obtain rfl := run_dialed_idle (by simp [World.get, returned, idle]) others
        obtain ⟨e, member⟩ := raised
        exact absurd member (quiet name e)
      · have names : frames.map Frame.name = (w.descent ctx name).names.reverse := by
          have firsts := congrArg (List.map Prod.fst) calls
          simpa [Descent.names, List.map_map, Function.comp_def] using firsts
        have distinct := List.nodup_reverse.mpr (fits (by simp [stop]))
        obtain ⟨e, member⟩ := raised
        obtain ⟨f, fails, inside, -, store, statuses⟩ :=
          @run_dialed ctx rt (w.get ctx name) w' frames outcomes (by simp [World.get, suspended, idle])
            (names ▸ distinct) quiet others ⟨name, e, member⟩
        rw [calls] at fails
        rw [names] at inside
        refine ⟨f, by simpa [callFailure, stop, World.get] using fails, ?_⟩
        constructor
        · exact fun hop member => List.mem_reverse.mp (inside.subset member)
        · exact .inl (distinct.sublist inside.sublist)
        · exact store
        · intro hop
          rw [statuses, names]
          simp only [World.get, left, Slots.status_connecting, List.mem_reverse]
          by_cases waits : hop ∈ f.stack
          · have entered := List.mem_reverse.mp (inside.subset waits)
            simp [waits, entered]
          · by_cases entered : hop ∈ (w.descent ctx name).names <;> simp [waits, entered]

/-- **A call that raises leaves its jump chain disconnected exactly when** the
exception is handled on its way up, and no server further down the chain was left
connecting before. -/
theorem leavesDisconnected_iff (ctx : PoolContext) (rt : Runtime) (w w' : World) (name : String)
    (outcomes : List DialOutcome) (idle : w.tasks = [])
    (run : Run (system ctx rt) w (.get name :: outcomes.map (.dialed 0)) w') (raised : w'.Raised name) :
    w'.LeavesDisconnected name ↔ (∃ f, w.callFailure ctx name outcomes = some f ∧ f.Handled) ∧
      ∀ hop, LeadsTo w.store.registry.jump name hop → hop ∉ (w.descent ctx name).names →
        w.slots.status hop ≠ .connecting := by
  obtain ⟨f, fails, leaves⟩ := call_leaves idle run raised
  have statuses := leaves.statuses
  constructor
  · intro disconnected
    have settled : ∀ hop, LeadsTo w.store.registry.jump name hop → w'.slots.status hop ≠ .connecting := by
      intro hop onChain stuck
      have off := disconnected hop (by rw [leaves.store]; exact onChain) (by rw [stuck]; simp)
      rw [stuck] at off
      cases off
    have resets : ∀ hop ∈ f.stack, f.leaves .connecting hop ≠ .connecting := by
      intro hop member
      have here := settled hop (leadsTo_of_mem_names (leaves.inside member))
      rwa [statuses, if_pos member] at here
    refine ⟨⟨f, fails, f.handled_of_resets leaves.distinct resets⟩, fun hop onChain outside => ?_⟩
    have here := settled hop onChain
    have apart : hop ∉ f.stack := fun member => outside (leaves.inside member)
    rwa [statuses, if_neg apart, if_neg outside] at here
  · rintro ⟨⟨f', fails', handled⟩, untouched⟩ hop onChain off
    obtain rfl : f = f' := Option.some.inj (fails.symm.trans fails')
    rw [leaves.store] at onChain
    rw [statuses] at off ⊢
    by_cases waits : hop ∈ f.stack
    · rw [if_pos waits]
      exact handled.leaves waits
    · rw [if_neg waits] at off ⊢
      by_cases entered : hop ∈ (w.descent ctx name).names
      · exact absurd (if_pos entered) off
      · rw [if_neg entered] at off ⊢
        have other := untouched hop onChain entered
        revert off other
        cases w.slots.status hop <;> simp

/-! ## Two calls -/

def bastionServer : ServerConfig := { name := "bastion", host := "10.0.0.1", user := "root", authType := .agent }

def innerServer : ServerConfig := { bastionServer with name := "inner", host := "10.1.0.1", jumpHost := some "bastion" }

/-- A pool for a server and its jump host. -/
def sampleChain : World :=
  start ((Store.blank.after .inert (.addEphemeral bastionServer)).after .inert (.addEphemeral innerServer)) .missing

/-- The jump host answers, and the call fails at the server behind it. -/
theorem leavesDisconnected_behind : ∃ w, Run (system sampleContext .inert) sampleChain
    (.get "inner" :: [DialOutcome.up none true false, .failed .disconnect false].map (.dialed 0)) w ∧
      w.LeavesDisconnected "inner" := by
  refine ⟨_, .step rfl (.step rfl (.step rfl (.refl _))), ?_⟩
  refine (leavesDisconnected_iff sampleContext .inert sampleChain _ "inner"
    [.up none true false, .failed .disconnect false] rfl (.step rfl (.step rfl (.step rfl (.refl _))))
    ⟨.mcpSsh (.connectionError "inner"), by decide +kernel⟩).mpr ⟨?_, ?_⟩
  · exact ⟨⟨.disconnect, false, ["inner"]⟩, rfl, .inr (.inr ⟨rfl, .inl rfl⟩)⟩
  · intro hop _ _ stuck
    cases stuck

/-- The call fails at the jump host: the server itself stays connecting. -/
theorem jump_failure_leaves_connecting : ¬ ∀ (ctx : PoolContext) (rt : Runtime) (w w' : World) (name : String)
    (outcomes : List DialOutcome), w.tasks = [] →
      Run (system ctx rt) w (.get name :: outcomes.map (.dialed 0)) w' → w'.Raised name →
        w'.LeavesDisconnected name := by
  intro disconnected
  have run : ∃ w, Run (system sampleContext .inert) sampleChain
      (.get "inner" :: [DialOutcome.failed .disconnect false].map (.dialed 0)) w ∧
      ("inner", .error (.mcpSsh (.connectionError "bastion"))) ∈ w.ended ∧ w.slots.status "inner" = .connecting :=
    ⟨_, .step rfl (.step rfl (.refl _)), by decide +kernel, by decide +kernel⟩
  obtain ⟨w, run, raised, stuck⟩ := run
  have off := disconnected _ _ _ _ "inner" _ rfl run ⟨_, raised⟩ "inner" .refl (by rw [stuck]; decide)
  rw [stuck] at off
  cases off

end World

end McpSsh
