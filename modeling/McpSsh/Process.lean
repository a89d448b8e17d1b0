import McpSsh.Base.Utf8

/-!
# Background processes

The records and answers of the process half of `session.py`: what `read_process` and
`check_process` make of the exit file, the liveness probe and the log, and what
`ssh_read_process` answers.
-/

set_option autoImplicit false

namespace McpSsh

open Base

inductive ProcessStatus where
  | running
  | exited
  | killed
  | unknown
deriving DecidableEq

/-- A `datetime`: microseconds on the clock, and the offset from UTC where there is one. -/
structure Timestamp where
  micros : Int
  offset : Option Int := none
deriving DecidableEq

structure ProcessRecord where
  id : String
  server : String
  command : String
  remotePid : Int
  logFile : String
  exitFile : String
  startedAt : Timestamp
  lastChecked : Option Timestamp := none
  status : ProcessStatus := .unknown
  exitCode : Option Int := none
deriving DecidableEq

structure ProcessOutput where
  output : List Char
  running : Bool
  exitCode : Option Int
  remotePid : Int
  server : String
deriving DecidableEq

/-- The exit file: not there, opened by the redirection but still empty, or holding
what `echo $?` wrote. -/
inductive ExitFile where
  | absent
  | empty
  | written (status : Int)
deriving DecidableEq

/-- What `int(exit_stdout)` makes of the file, if there is something to parse. -/
def ExitFile.exitCode : ExitFile → Option Int
  | absent => none
  | empty => none
  | written status => some status

/-- `read_process`, by what its two commands print. -/
def readProcess (record : ProcessRecord) (exit : ExitFile) (log : List Char) : ProcessOutput :=
  ⟨log, exit.exitCode.isNone, exit.exitCode, record.remotePid, record.server⟩

/-- `check_process`, by what its three commands print and the clock: the record it stores
and the answer. -/
def checkProcess (record : ProcessRecord) (alive : Bool) (log : List Char) (exit : ExitFile) (now : Timestamp) :
    ProcessRecord × ProcessOutput :=
  ({ record with
     status := if alive then .running else .exited, exitCode := exit.exitCode, lastChecked := some now },
    ⟨log, alive, exit.exitCode, record.remotePid, record.server⟩)

/-- How the SSH client decodes output: bytes that are no UTF-8 raise, or become
replacement characters. -/
inductive DecodeErrors where
  | strict
  | replace
deriving DecidableEq

/-- The text of some bytes; `none` where the client raises. -/
def DecodeErrors.decode (errors : DecodeErrors) (bytes : List UInt8) : Option (List Char) :=
  match errors with
  | strict =>
    if (Utf8.pieces bytes).all fun p => p.valid then some ((Utf8.pieces bytes).map Utf8.Piece.replaced) else none
  | replace => some ((Utf8.pieces bytes).map Utf8.Piece.replaced)

/-- `tail -c +(offset+1) | head -c max_bytes`. -/
def tailHead (log : List UInt8) (offset maxBytes : Nat) : List UInt8 := (log.drop offset).take maxBytes

/-- The answer of `ssh_read_process`. -/
structure ReadResponse where
  output : List Char
  nextOffset : Nat
  running : Bool
  exitCode : Option Int
  remotePid : Int
  server : String
deriving DecidableEq

/-- `ssh_read_process` of a recorded process; `none` where decoding raises. -/
def sshReadProcess (errors : DecodeErrors) (record : ProcessRecord) (exit : ExitFile) (log : List UInt8)
    (maxBytes offset : Nat) : Option ReadResponse :=
  (errors.decode (tailHead log offset maxBytes)).map fun text =>
    let out := readProcess record exit text
    ⟨out.output, offset + (Utf8.encode out.output).length, out.running, out.exitCode, out.remotePid, out.server⟩

end McpSsh
