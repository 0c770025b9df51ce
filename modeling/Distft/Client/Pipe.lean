import Distft.General.Exec
import Distft.General.Records
import Distft.Utils

/-!
# Commands on a pipe

The commands that the client program sends to a daemon (`src/client/founder.cpp`), and the two ends
of the pipe that they go through (`src/client/daemon.cpp`): `write_cmd` puts the client's process
id, the command, the number of arguments in one byte, and the arguments with a NUL after each;
`read_cmd` reads them back, but counts only the arguments that are not empty. What comes back goes
through another pipe, from which `read_err` reads a status byte and two messages with a NUL after
each.

A `char` is a byte. A client id is a `pid_t`, which is copied byte by byte, the lowest first.
-/

namespace Distft

/-! ## Pipes -/

/-- The end of a pipe that is read: the bytes that are to come, and whether reads fail after them;
where they do not, they find the end of the file. -/
structure ReadEnd where
  /-- The bytes. -/
  bytes : Bytes
  /-- Reads after the bytes return a negative number. -/
  fails : Bool

/-- `read(pipefd, .., n)`: what is read, `none` where a negative number is returned. -/
def ReadEnd.read (n : ℕ) (pipe : ReadEnd) : Option Bytes × ReadEnd :=
  if pipe.bytes = [] ∧ pipe.fails then (none, pipe)
  else (some (pipe.bytes.take n), { pipe with bytes := pipe.bytes.drop n })

/-- The end of a pipe that is written: the bytes so far, and how many more writes are taken. -/
structure WriteEnd where
  /-- The bytes. -/
  bytes : Bytes
  /-- The number of writes until they fail, `none` where they do not. -/
  left : Option ℕ

/-- `write(pipefd, data, data.size())`: what is returned, the number of bytes or -1. -/
def WriteEnd.write (data : Bytes) (pipe : WriteEnd) : ℤ × WriteEnd :=
  match pipe.left with
  | some 0 => (-1, pipe)
  | left => (data.length, ⟨pipe.bytes ++ data, left.map (· - 1)⟩)

/-- A computation of the daemon, on the end that it reads. -/
abbrev Reading (α : Type) : Type := Exec Empty Fault ReadEnd α

/-- A computation of the client, on the end that it writes. -/
abbrev Writing (α : Type) : Type := Exec Empty Fault WriteEnd α

/-! ## The commands -/

/-- A string of `argv`: no byte of it is NUL. -/
abbrev ArgString : Type := { arg : Bytes // (0 : UInt8) ∉ arg }

/-- `EXIT` of `enum CMD`. -/
abbrev cmdExit : UInt8 := 2

/-- `LIST`. -/
abbrev cmdList : UInt8 := 3

/-- `STORE`. -/
abbrev cmdStore : UInt8 := 4

/-- `LOAD`. -/
abbrev cmdLoad : UInt8 := 5

/-- The bytes of a `pid_t`. -/
def pidBytes (pid : Int32) : Bytes :=
  (List.range 4).map fun i => UInt8.ofNat (pid.toUInt32.toNat / 256^i)

/-- The `pid_t` with the given bytes. -/
def pidOfBytes (bytes : Bytes) : Int32 :=
  (UInt32.ofNat (bytes.foldr (fun b n => b.toNat + 256 * n) 0)).toInt32

/-- A client id is read as it was written. -/
theorem pidOfBytes_pidBytes (pid : Int32) : pidOfBytes (pidBytes pid) = pid := by
  have hlt := pid.toUInt32.toNat_lt
  have hsum : (pidBytes pid).foldr (fun b n => b.toNat + 256 * n) 0 = pid.toUInt32.toNat := by
    simp only [pidBytes, List.range, List.range.loop, List.map_cons, List.map_nil, List.foldr_cons,
      List.foldr_nil, UInt8.toNat_ofNat']
    omega
  unfold pidOfBytes
  rw [hsum]
  simp

/-! ## The client -/

/-- One of the writes of `write_cmd` after the first: where it fails, an error is logged by the logger
`client_logs`. There is none of that name (`setup_client` registers `client_logger`), so the pointer
that `spdlog::get` returns is null. -/
def writeOrLog (data : Bytes) : Writing Unit := do
  let r ← Exec.act (WriteEnd.write data)
  if r < 0 then Exec.fault .badPointer

/-- `write_cmd`, after the pipe was opened, by the process with the given id. -/
def writeCmd (clientId : Int32) (cmd argc : UInt8) (args : List Bytes) : Writing Bool := do
  let r ← Exec.act (WriteEnd.write (pidBytes clientId))
  -- The return value is tested with `!`, which a failure passes.
  if r = 0 then Exec.fault .badPointer
  writeOrLog [cmd]
  writeOrLog [argc]
  forM args fun arg => writeOrLog (arg ++ [0])
  return true

/-- The arguments that `main` passes to `write_cmd`, from the strings of `argv` after the session id:
the count, cast to a `char`, and the strings. -/
def mainArgs (argv : List ArgString) : UInt8 × List Bytes :=
  (UInt8.ofNat argv.length, argv.map Subtype.val)

/-- What a client puts on a pipe that takes all of it. -/
def sentBytes (clientId : Int32) (cmd : UInt8) (argv : List ArgString) : Bytes :=
  (writeCmd clientId cmd (mainArgs argv).1 (mainArgs argv).2 ⟨[], none⟩).state.bytes

/-! ## The daemon -/

/-- The variables that `read_cmd` sets, with which the daemon calls it again and again. -/
structure CmdVars where
  /-- `client_id`. -/
  clientId : Int32
  /-- `cmd`. -/
  cmd : UInt8
  /-- `argc`. -/
  argc : UInt8
  /-- `args`. -/
  args : List Bytes
  deriving DecidableEq, Repr

/-- The loop of `read_cmd` over the arguments, given a number of turns: `buff` is the last byte that
was read, which a read at the end of the file leaves as it is. -/
def readArgs (argsCount : ℕ) : ℕ → UInt8 → Bytes → CmdVars → Reading (Bool × CmdVars)
  | turns, buff, currArg, vars =>
    if argsCount ≤ vars.args.length then return (true, vars)
    else match turns with
      | 0 => Exec.fault .diverges
      | turns + 1 => do
        match ← Exec.act (ReadEnd.read 1) with
        | none => return (false, vars)
        | some bytes =>
          let buff := bytes.headD buff
          if buff = 0 then
            readArgs argsCount turns buff []
              (if 0 < currArg.length then { vars with args := vars.args ++ [currArg] } else vars)
          else readArgs argsCount turns buff (currArg ++ [buff]) vars

/-- `read_cmd`, with what its caller's variables and its own uninitialized `buff` hold before, and
whether it returns true. -/
def readCmd (turns : ℕ) (buff : UInt8) (vars : CmdVars) : Reading (Bool × CmdVars) := do
  match ← Exec.act (ReadEnd.read 4) with
  | none => return (false, vars)
  | some bytes =>
    let clientId := pidOfBytes (bytes ++ (pidBytes vars.clientId).drop bytes.length)
    match ← Exec.act (ReadEnd.read 1) with
    | none => return (false, { vars with clientId })
    | some bytes =>
      let cmd := bytes.headD vars.cmd
      match ← Exec.act (ReadEnd.read 1) with
      | none => return (false, { vars with clientId, cmd })
      | some bytes =>
        let argc := bytes.headD vars.argc
        readArgs argc.toNat turns buff [] ⟨clientId, cmd, argc, []⟩

/-- What a turn of the daemon's loop comes to. -/
inductive Dispatch where
  /-- `read_cmd` fails, or the command is none. -/
  | skipped
  /-- `exit_cmd()`. -/
  | exit
  /-- `list_cmd()`. -/
  | list
  /-- `store_cmd(args)`. -/
  | store (args : List Bytes)
  /-- `load_cmd(args, output_file)`. -/
  | load (args : List Bytes) (outputFile : Bytes)
  deriving DecidableEq, Repr

/-- A turn of the loop of `run_founder_session_daemon`, up to the call that it makes. -/
def readDispatch (turns : ℕ) (buff : UInt8) (vars : CmdVars) : Reading Dispatch := do
  let (success, vars) ← readCmd turns buff vars
  if !success then return .skipped
  if vars.cmd = cmdExit then return .exit
  else if vars.cmd = cmdList then return .list
  else if vars.cmd = cmdStore then return .store vars.args
  else if vars.cmd = cmdLoad then
    match vars.args.getLast? with
    -- `back()` of an empty vector.
    | none => Exec.fault .outOfBounds
    | some outputFile => return .load vars.args.dropLast outputFile
  else return .skipped

/-! ## The answer -/

/-- The variables that `read_err` sets. -/
structure ErrVars where
  /-- `err`. -/
  err : UInt8
  /-- `err_msg`. -/
  errMsg : Bytes
  /-- `succ_msg`. -/
  succMsg : Bytes
  deriving DecidableEq, Repr

/-- One of the two loops of `read_err`, given a number of turns: `buff` and the message. Where a read
fails, an error is logged by the logger `client_logs`, of which there is none. -/
def readMsg : ℕ → UInt8 → Bytes → Reading (UInt8 × Bytes)
  | 0, _, _ => Exec.fault .diverges
  | turns + 1, buff, msg => do
    match ← Exec.act (ReadEnd.read 1) with
    | none => Exec.fault .badPointer
    | some bytes =>
      let buff := bytes.headD buff
      if buff = 0 then return (buff, msg) else readMsg turns buff (msg ++ [buff])

/-- `read_err`, with what its caller's variables and its own uninitialized `buff` hold before, and
whether it returns true. -/
def readErr (turns : ℕ) (buff : UInt8) (vars : ErrVars) : Reading (Bool × ErrVars) := do
  match ← Exec.act (ReadEnd.read 1) with
  | none => Exec.fault .badPointer
  | some bytes =>
    let (buff, errMsg) ← readMsg turns buff vars.errMsg
    let (_, succMsg) ← readMsg turns buff vars.succMsg
    return (true, ⟨bytes.headD vars.err, errMsg, succMsg⟩)

end Distft
