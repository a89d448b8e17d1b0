import McpSsh.Base.Text
import McpSsh.Json.RoundTrip

/-!
# Audit events

`AuditEvent` of `models.py`, the dictionaries that tools answer with, and what a remote
command comes back with.
-/

set_option autoImplicit false

namespace McpSsh

open Base

/-- `s.strip()`. -/
def stripText (s : String) : String := String.ofList (strip s.toList)

/-- `asyncssh.SSHCompletedProcess`. -/
structure CommandResult where
  exitStatus : Option Int
  stdout : Option String
  stderr : Option String
deriving DecidableEq

/-- A finite float, as `str` and as JSON write it. -/
structure PyFloat where
  text : String
  literal : String
  shape : Json.FloatText literal.toList
deriving DecidableEq

/-- A value in an answer or in the detail of an event. -/
inductive Datum where
  | none
  | bool (b : Bool)
  | int (n : Int)
  | float (x : PyFloat)
  | text (s : String)
  | texts (l : List String)
deriving DecidableEq

/-- A dictionary with literal keys, in the order they are written. -/
abbrev Record := List (String × Datum)

/-- The dictionary has this key. -/
def Record.has (r : Record) (key : String) : Bool := r.any fun e => e.1 = key

/-- `AuditEvent`, without the clock. -/
structure AuditEvent where
  tool : String
  server : Option String := none
  command : Option String := none
  processId : Option String := none
  sessionId : Option String := none
  outcome : String
  detail : Record := []
deriving DecidableEq

end McpSsh
