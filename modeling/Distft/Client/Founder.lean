import Distft.Client.Commands

/-!
# The client program

`main` of the client and the handlers that send a command to a running daemon
(`src/client/founder.cpp`), `write_err`, with which the daemon answers (`src/client/daemon.cpp`),
and the client that runs the commands itself, on lines that are typed
(`src/client/interactive.cpp`). Of the arguments that make `main` start sessions of its own, `start`
and `-i`, only that they do is followed.
-/

namespace Distft

/-! ## The answer -/

/-- The end of `ERR_FILE` that the daemon writes, which it opens with `O_NONBLOCK`: the bytes so
far, and the room that each of the writes to come finds. -/
structure ErrEnd where
  /-- The bytes. -/
  bytes : Bytes
  /-- The room for the first of the writes, and so on. -/
  rooms : List ℕ

/-- `PIPE_BUF`. -/
def pipeBuf : ℕ := 4096

/-- `write(pipefd, data, data.size())`, of some data: what is returned, the number of bytes or -1.
Up to `PIPE_BUF` bytes are written as a whole, if at all; of more, those that there is room for. -/
def ErrEnd.write (data : Bytes) (pipe : ErrEnd) : ℤ × ErrEnd :=
  let room := pipe.rooms.headD 0
  if room = 0 ∨ data.length ≤ pipeBuf ∧ room < data.length then
    (-1, { pipe with rooms := pipe.rooms.tail })
  else (min room data.length, ⟨pipe.bytes ++ data.take room, pipe.rooms.tail⟩)

/-- `write_err`, and whether it returns true. It opens the pipe if a client has it open, or is about
to. -/
def writeErr (opens : Bool) (err : UInt8) (errMsg succMsg : Bytes) : Exec Empty Fault ErrEnd Bool := do
  if !opens then return false
  let r ← Exec.act (ErrEnd.write [err])
  if r < 0 then return false
  let r ← Exec.act (ErrEnd.write (errMsg ++ [0]))
  if r < 0 then return false
  let r ← Exec.act (ErrEnd.write (succMsg ++ [0]))
  if r < 0 then return false
  return true

/-- What `std::cout` gets of a string through `c_str()`, with `std::endl`. -/
def cLine (s : Bytes) : Bytes := s.takeWhile (· ≠ 0) ++ [10]

/-- `print_result`. -/
def printResult (err : Bool) (errMsg succMsg : Bytes) : Bytes :=
  (if err then text "Error occurred in daemon while processing command. :(\n" else []) ++
    (if errMsg = [] then [] else cLine errMsg) ++ if succMsg = [] then [] else cLine succMsg

/-! ## `main` -/

/-- `std::isdigit`. -/
def isDigit (c : UInt8) : Bool := decide (48 ≤ c ∧ c ≤ 57)

/-- `std::stoi`, of a string of digits. -/
def stoi (digits : Bytes) : Except Fault ℕ :=
  if digits = [] then .error .invalidArgument
  else
    let value := digits.foldl (fun n c => 10 * n + (c.toNat - 48)) 0
    if value < 2^31 then .ok value else .error .outOfRange

/-- `valid_endpoint`: the whole string matches `(.*):(\d+)`, where `.` is no end of a line. -/
def validEndpoint (ep : Bytes) : Bool :=
  let port := ep.reverse.takeWhile isDigit
  let rest := ep.reverse.dropWhile isDigit
  decide (port ≠ []) && decide (rest.head? = some 58) && rest.tail.all fun c => decide (c ≠ 10 ∧ c ≠ 13)

/-- The text of `daemon_commands`. -/
def daemonCommands : Bytes :=
  text "\n  -i/--interactive: run in interactive mode\n" ++
  text "  -h/--help: print all commands\n" ++
  text "  start <endpoint 1> ... <endpoint n>: create a new session cluster with at least 2 endpoints " ++
  text "(prints out the session id)\n" ++
  text "  list <session id>: print all files\n" ++
  text "  store <session id> <file path 1> ... <file path n>: " ++
  text "add file(s) at local file path(s) to session\n" ++
  text "  load <session id> <file name 1> ... <file name n> <file path>: " ++
  text "write the content of file name(s) to local file path\n" ++
  text "  exit <session id>: exit the session\n"

/-- What `main` comes to, up to its handlers. -/
inductive Invocation where
  /-- It returns the value, after the output. -/
  | returns (code : ℕ) (out : Bytes)
  /-- `run_founder_session_interactive()`. -/
  | interactive
  /-- `handle_start(endpoints)`. -/
  | start (endpoints : List ArgString)
  /-- The handler of a command, which sends it with the arguments. -/
  | request (sessionId : ℕ) (cmd : UInt8) (args : List ArgString)
  deriving DecidableEq

/-- A command for the session of the argument, which is one if the pipe of its commands exists. -/
def requestOf (cmdFileExists : ℕ → Bool) (sessionIdArg : Bytes) (cmd : UInt8) (args : List ArgString) :
    Except Fault Invocation :=
  let notFound := .ok (.returns 2 (text "Session ID not found. :O\n"))
  if sessionIdArg.all isDigit then
    match stoi sessionIdArg with
    | .error e => .error e
    | .ok sessionId => if cmdFileExists sessionId then .ok (.request sessionId cmd args) else notFound
  else notFound

/-- `main`, with the arguments after the name of the program; whether the client's directory is set
up, and which sessions have a pipe. An exception that it throws is caught by nobody. -/
def main (setsUp : Bool) (cmdFileExists : ℕ → Bool) (argv : List ArgString) : Except Fault Invocation :=
  if argv = [] then .ok (.returns 2 (text "Provide arg(s). Enter `--help` for all commands.\n"))
  else if argv.any fun arg => arg.1 = text "-h" ∨ arg.1 = text "--help" then
    .ok (.returns 0 (daemonCommands ++ [10]))
  else if argv.any fun arg => arg.1 = text "-i" ∨ arg.1 = text "--interactive" then .ok .interactive
  else if !setsUp then .ok (.returns 1 (text "Failed to setup client directory in ~.\n"))
  else
    let cmd := (argv.map Subtype.val).headD []
    let sessionIdArg := (argv.map Subtype.val)[1]?.getD []
    let noSession := .ok (.returns 2 (text "Provide session id for a running founder client.\n"))
    if cmd = text "start" then
      if argv.length < 3 then
        .ok (.returns 2 (text "Provide at least 2 accessible endpoints for the founder client.\n"))
      else if argv.tail.all fun ep => validEndpoint ep.1 then .ok (.start argv.tail)
      else .ok (.returns 2 (text "Endpoint invalid: must have the form <address>:<port>\n"))
    else if cmd = text "exit" then
      if argv.length < 2 then noSession else requestOf cmdFileExists sessionIdArg cmdExit []
    else if cmd = text "list" then
      if argv.length < 2 then noSession else requestOf cmdFileExists sessionIdArg cmdList []
    else if cmd = text "store" then
      if argv.length < 3 then
        .ok (.returns 2 (text "Provide session id for a running founder client and at least one file.\n"))
      else requestOf cmdFileExists sessionIdArg cmdStore (argv.drop 2)
    else if cmd = text "load" then
      if argv.length < 4 then
        .ok (.returns 2 (text "Provide session id for a running founder client, " ++
          text "at least one file to download, and a file to write to.\n"))
      else requestOf cmdFileExists sessionIdArg cmdLoad (argv.drop 2)
    else .ok (.returns 0 (text "Command not found. Enter `--help` for all commands.\n"))

/-! ## An invocation -/

/-- What one invocation of the program finds. -/
structure Circumstances where
  /-- The directory of the client is set up. -/
  setsUp : Bool
  /-- `getpid()` of the client. -/
  clientId : Int32
  /-- What the daemon's variables hold before `read_cmd`. -/
  vars : CmdVars
  /-- What the uninitialized `buff` of `read_cmd` holds. -/
  cmdBuff : UInt8
  /-- The client has the pipe of the answer open by the time of the answer, or is about to. -/
  opens : Bool
  /-- The room in this pipe. -/
  rooms : List ℕ
  /-- What the uninitialized `err` of the client holds. -/
  err : UInt8
  /-- What the uninitialized `buff` of `read_err` holds. -/
  errBuff : UInt8

/-- What comes of the client's process. -/
inductive Outcome where
  /-- `main` returns the value, after the output. -/
  | returns (code : ℕ) (out : Bytes)
  /-- It ends by a fault. -/
  | dies (e : Fault)
  /-- It waits at the pipe of the answer. -/
  | waits
  /-- It goes on as a client with sessions of its own. -/
  | launches
  deriving DecidableEq

/-- What comes of the client that has sent its command, once the daemon has answered, if it does.
Where a write of the answer fails, the daemon leaves its end of the pipe open. Two loops with as
many turns as there are bytes, and one more, end if they end at all. -/
def receive (env : Circumstances) : Option CmdResult → Outcome
  | none => .waits
  | some answer =>
    let run := writeErr env.opens (if answer.success then 0 else 1) answer.cmdErr answer.cmdOut
      ⟨[], env.rooms⟩
    match run.result with
    | .ok true =>
      let bytes := run.state.bytes
      match (readErr (bytes.length + 1) env.errBuff ⟨env.err, [], []⟩ ⟨bytes, false⟩).result with
      | .error e => .dies e
      | .ok (false, _) => .returns 1 (text "Failed to receive result from daemon. :(\n")
      | .ok (true, vars) => .returns 0 (printResult (decide (vars.err ≠ 0)) vars.errMsg vars.succMsg)
    | _ => .waits

/-- A daemon: whether its process runs, so that there are its files, and its disk. -/
structure Daemon where
  /-- It runs. -/
  running : Bool
  /-- The local files. -/
  disk : Disk

namespace Platform

variable {ε σ : Type} (P : Platform) (s : Dht ε σ)

/-- The program is invoked, and runs to its end, next to a daemon with the session id. The arguments
on the pipe take as many turns as there are bytes after the six of the header, if they end at all.
-/
def invoke (sessionId : ℕ) (daemon : Daemon) (env : Circumstances) (argv : List ArgString) :
    Exec ε Fault σ (Outcome × Daemon) := do
  match main env.setsUp (fun id => daemon.running && decide (id = sessionId)) argv with
  | .error e => return (.dies e, daemon)
  | .ok (.returns code out) => return (.returns code out, daemon)
  | .ok .interactive => return (.launches, daemon)
  | .ok (.start _) => return (.launches, daemon)
  | .ok (.request _ cmd args) =>
    let sent := sentBytes env.clientId cmd args
    let command ← Exec.ofExcept
      (readDispatch (sent.length - 6) env.cmdBuff env.vars ⟨sent, false⟩).result
    let (answer, disk) ← P.perform s daemon.disk command
    let daemon := ⟨decide (command ≠ .exit), disk⟩
    -- `handle_exit` waits for no answer.
    return (if cmd = cmdExit then .returns 0 [] else receive env answer, daemon)

/-- Invocations, one after the other. -/
def invokeAll (sessionId : ℕ) :
    Daemon → List (Circumstances × List ArgString) → Exec ε Fault σ (List Outcome × Daemon)
  | daemon, [] => return ([], daemon)
  | daemon, (env, argv) :: rest => do
    let (outcome, daemon) ← P.invoke s sessionId daemon env argv
    let (outcomes, daemon) ← invokeAll sessionId daemon rest
    return (outcome :: outcomes, daemon)

end Platform

/-! ## The interactive client -/

/-- `std::isspace`. -/
def isSpace (c : UInt8) : Bool := decide (c = 32 ∨ 9 ≤ c ∧ c ≤ 13)

/-- The loop `while (iss >> token)`: the tokens of what follows the token so far. -/
def tokens : Bytes → Bytes → List Bytes
  | curr, [] => if curr = [] then [] else [curr]
  | curr, c :: rest =>
    if isSpace c then if curr = [] then tokens [] rest else curr :: tokens [] rest
    else tokens (curr ++ [c]) rest

/-- The text of `interactive_commands`. -/
def interactiveCommands : Bytes :=
  text "\n  help: print all commands\n" ++
  text "  list: print all files\n" ++
  text "  store <file path 1> ... <file path n>: add file(s) at local file path(s) to session\n" ++
  text "  load <file name 1> ... <file name n> <file path>: " ++
  text "write the content of file name(s) to local file path\n" ++
  text "  exit: exit the session\n"

/-- The interactive client, in its loop. -/
structure Terminal where
  /-- The local files. -/
  disk : Disk
  /-- The output. -/
  out : Bytes
  /-- `success`, which nothing sets before the first command. -/
  success : Bool
  /-- `exit` was typed. -/
  exited : Bool

/-- The end of a turn of the loop, after a command, or after `help`, which leaves `success`. -/
def Terminal.report (terminal : Terminal) (disk : Disk) (result : CmdResult) : Terminal :=
  ⟨disk, terminal.out ++ printResult (!result.success) result.cmdErr result.cmdOut, result.success,
    false⟩

namespace Platform

variable {ε σ : Type} (P : Platform) (s : Dht ε σ)

/-- A turn of the loop of `run_founder_session_interactive`, on the line that is read. -/
def interactiveTurn (terminal : Terminal) (line : Bytes) : Exec ε Fault σ Terminal := do
  let terminal := { terminal with out := terminal.out ++ text "> " }
  match tokens [] line with
  | [] => return terminal
  | cmd :: args =>
    if cmd = text "help" then
      return { terminal with out := terminal.out ++ cLine interactiveCommands }.report terminal.disk
        ⟨terminal.success, [], []⟩
    else if cmd = text "list" then
      let result ← P.listCmd s
      return terminal.report terminal.disk result
    else if cmd = text "store" then
      if args = [] then
        return { terminal with out := terminal.out ++ text "Please provide file(s) to add.\n" }
      let result ← P.storeCmd s terminal.disk.file args
      return terminal.report terminal.disk result
    else if cmd = text "load" then
      if args.length < 2 then
        return { terminal with
          out := terminal.out ++ text "Please provide file to print/file to write to.\n" }
      let (result, disk) ← P.loadCmd s terminal.disk args.dropLast (args.getLastD [])
      return terminal.report disk result
    else if cmd = text "exit" then return { terminal with exited := true }
    else
      return { terminal with
        out := terminal.out ++ text "Enter a valid command. Enter `help` for all commands.\n" }

/-- The loop on the lines so far. At the end of the input, each turn reads an empty line. -/
def interactiveLoop : Terminal → List Bytes → Exec ε Fault σ Terminal
  | terminal, [] => return terminal
  | terminal, line :: lines => do
    if terminal.exited then return terminal
    let terminal ← P.interactiveTurn s terminal line
    interactiveLoop terminal lines

end Platform

end Distft
