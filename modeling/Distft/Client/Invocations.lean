import Distft.Client.Desk
import Distft.Client.Founder
import Distft.Client.Truncated
import Mathlib.Data.List.TakeWhile

/-!
# From the arguments to the output

What is printed by invocations of the program next to a running daemon. The command goes through one
pipe and the answer through another, each as strings with a NUL after them, and neither changes it:
the arguments are strings of `argv`, and no answer has a NUL (`perform_free`), whatever the DHT
returns, since the names of the index are what is between NULs. So the invocations do what their
commands do, up to the first `exit`, and print the answers (`invokeAll_commands`). The interactive
client does the same, and prints the same, on lines with the same words
(`interactiveLoop_commands`).
-/

namespace Distft

open Exec

/-! ## The answer goes through its pipe -/

/-- What is printed of an answer. -/
def CmdResult.printed (answer : CmdResult) : Bytes :=
  printResult (!answer.success) answer.cmdErr answer.cmdOut

/-- No message of the answer has a NUL. -/
def CmdResult.Free (answer : CmdResult) : Prop := 0 ∉ answer.cmdErr ∧ 0 ∉ answer.cmdOut

/-- The client has the pipe of the answer open, and there is room for the answer in it. -/
structure Circumstances.Takes (env : Circumstances) (answer : CmdResult) : Prop where
  /-- The pipe is open. -/
  opens : env.opens = true
  /-- The status. -/
  err : 0 < env.rooms.getD 0 0
  /-- The first message. -/
  errMsg : answer.cmdErr.length < env.rooms.getD 1 0
  /-- The second message. -/
  succMsg : answer.cmdOut.length < env.rooms.getD 2 0

/-- A write that finds room for all of its data. -/
theorem errEnd_write_run {data : Bytes} (bytes : Bytes) {room : ℕ} (rooms : List ℕ)
    (h : data.length ≤ room) (hne : data ≠ []) :
    (Exec.act (ErrEnd.write data) : Exec Empty Fault ErrEnd ℤ) ⟨bytes, room :: rooms⟩ =
      ⟨[], ⟨bytes ++ data, rooms⟩, .ok data.length⟩ := by
  have hpos := List.length_pos_iff.2 hne
  have hwrite : ErrEnd.write data ⟨bytes, room :: rooms⟩ =
      ((data.length : ℤ), ⟨bytes ++ data, rooms⟩) := by
    unfold ErrEnd.write
    simp only
    rw [if_neg (by rw [List.headD_cons]; omega), List.headD_cons, List.tail_cons,
      min_eq_right (Int.ofNat_le.2 h), List.take_of_length_le h]
  unfold Exec.act
  rw [hwrite]

/-- `write_err`, where there is room. -/
theorem writeErr_run {env : Circumstances} {answer : CmdResult} (h : env.Takes answer) (err : UInt8) :
    ∃ rooms, writeErr env.opens err answer.cmdErr answer.cmdOut ⟨[], env.rooms⟩ =
      ⟨[], ⟨err :: Records.encode 0 [answer.cmdErr, answer.cmdOut], rooms⟩, .ok true⟩ := by
  obtain ⟨hopens, herr, herrMsg, hsuccMsg⟩ := h
  obtain ⟨r₀, r₁, r₂, more, hrooms⟩ : ∃ r₀ r₁ r₂ more, env.rooms = r₀ :: r₁ :: r₂ :: more := by
    match hrooms : env.rooms with
    | [] => simp [hrooms] at herr
    | [_] => simp [hrooms] at herrMsg
    | [_, _] => simp [hrooms] at hsuccMsg
    | r₀ :: r₁ :: r₂ :: more => exact ⟨r₀, r₁, r₂, more, rfl⟩
  simp only [hrooms, List.getD_cons_zero, List.getD_cons_succ] at herr herrMsg hsuccMsg
  have hone : [err].length ≤ r₀ := herr
  have hlen : ∀ msg : Bytes, (msg ++ [0]).length = msg.length + 1 := fun msg => by simp
  refine ⟨more, ?_⟩
  unfold writeErr
  rw [hopens, hrooms]
  simp only [Bool.not_true, Bool.false_eq_true, if_false]
  rw [bind_run (errEnd_write_run _ _ hone (by simp)), if_neg (by simp),
    bind_run (errEnd_write_run _ _ ((hlen _).trans_le herrMsg) (by simp)), if_neg (by omega),
    bind_run (errEnd_write_run _ _ ((hlen _).trans_le hsuccMsg) (by simp)), if_neg (by omega)]
  simp [pure_run]

/-- `read_err` on a whole answer. -/
theorem readErr_run (turns : ℕ) (buff old err : UInt8) {errMsg succMsg : Bytes} (herr : 0 ∉ errMsg)
    (hsucc : 0 ∉ succMsg) (herrTurns : errMsg.length < turns) (hsuccTurns : succMsg.length < turns) :
    readErr turns buff ⟨old, [], []⟩ ⟨err :: Records.encode 0 [errMsg, succMsg], false⟩ =
      ⟨[], ⟨[], false⟩, .ok (true, ⟨err, errMsg, succMsg⟩)⟩ := by
  have hfirst := readMsg_run buff [] (succMsg ++ [0]) herr herrTurns
  have hsecond := readMsg_run 0 [] [] hsucc hsuccTurns
  unfold readErr
  rw [read_bind_run]
  simp only [List.take_succ_cons, List.take_zero, List.headD_cons, List.drop_succ_cons, List.drop_zero,
    Records.encode_cons, Records.encode_nil]
  rw [bind_run hfirst, bind_run hsecond]
  rfl

/-- An answer that the pipe takes is printed. -/
theorem receive_printed {env : Circumstances} {answer : CmdResult} (h : env.Takes answer)
    (hfree : answer.Free) : receive env (some answer) = .returns 0 answer.printed := by
  obtain ⟨rooms, hwrite⟩ := writeErr_run h (if answer.success then 0 else 1)
  have hread := readErr_run ((Records.encode 0 [answer.cmdErr, answer.cmdOut]).length + 2)
    env.errBuff env.err (if answer.success then 0 else 1) hfree.1 hfree.2 (by simp; omega)
    (by simp; omega)
  have herr : decide ((if answer.success = true then (0 : UInt8) else 1) ≠ 0) = !answer.success := by
    cases answer.success <;> rfl
  simp only [receive, hwrite, List.length_cons, hread, herr]
  rfl

/-! ## No answer has a NUL -/

/-- What a command is given. -/
def Dispatch.args : Dispatch → List Bytes
  | .store args => args
  | .load args outputFile => args ++ [outputFile]
  | _ => []

section Answers

variable {ε σ : Type}

/-- Whatever a computation does. -/
theorem yields_any {α : Type} (m : Exec ε Fault σ α) :
    Yields (fun _ => True) m (fun _ _ => True) fun _ => True :=
  ⟨fun _ _ => trivial, fun _ _ _ _ => trivial, fun _ _ _ _ => trivial⟩

/-- The name of a file is a part of its path. -/
theorem notMem_filename {path : Bytes} (h : 0 ∉ path) : 0 ∉ filename path := fun hmem =>
  h (List.mem_reverse.1 ((List.takeWhile_sublist _).subset (List.mem_reverse.1 hmem)))

/-- The files of an index have no NUL, whatever it is. -/
theorem indexFilesLoop_free {data : Bytes} {files : List Bytes}
    (h : indexFilesLoop [] data = .ok (.inr files)) : ∀ file ∈ files, 0 ∉ file := by
  intro file hmem
  by_cases hlen : data.length < 2^31
  · rw [indexFilesLoop_eq [] data hlen] at h
    obtain rfl := Sum.inr.inj (Except.ok.inj h)
    exact Records.notMem_of_mem_decode List.not_mem_nil (List.mem_of_mem_filter hmem)
  · rw [indexFilesLoop_of_le [] data (Nat.le_of_not_lt hlen)] at h
    exact nomatch h

variable {P : Platform} {s : Dht ε σ}

theorem getIndexFiles_free : Yields (fun _ => True) (P.getIndexFiles s)
    (fun _ found => ∀ files, found = some files → ∀ file ∈ files, 0 ∉ file) fun _ => True := by
  refine (yields_any (s.get P.indexKey)).bind fun _ found _ => ?_
  cases found with
  | none => exact yields_pure (by simp)
  | some data =>
    have hloop : Yields (fun _ => True) (Exec.ofExcept (indexFilesLoop [] data) : Exec ε Fault σ _)
        (fun _ r => ∀ files, r = .inr files → ∀ file ∈ files, 0 ∉ file) fun _ => True :=
      yields_ofExcept (fun r hr files heq => indexFilesLoop_free (heq ▸ hr)) fun _ _ => trivial
    refine hloop.bind fun _ r hr => ?_
    cases r with
    | inl value => exact value.elim
    | inr files => exact yields_pure fun files' heq => Option.some.inj heq ▸ hr files rfl

/-- A report has no NUL if the names in it have none. -/
theorem notMem_report {title : Bytes} {files : List Bytes} (htitle : (0 : UInt8) ∉ title)
    (hfiles : ∀ file ∈ files, (0 : UInt8) ∉ file) :
    0 ∉ title ++ files.flatMap fun file => file ++ [10] := by
  rw [List.mem_append, not_or, List.mem_flatMap]
  refine ⟨htitle, ?_⟩
  rintro ⟨file, hmem, hzero⟩
  exact hfiles file hmem (by simpa using hzero)

theorem listCmd_free :
    Yields (fun _ => True) (P.listCmd s) (fun _ answer => answer.Free) fun _ => True := by
  refine getIndexFiles_free.bind fun _ found hfound => ?_
  cases found with
  | none => exact yields_pure ⟨by decide, by simp⟩
  | some files => exact yields_pure ⟨by simp, notMem_report (by decide) (hfound files rfl)⟩

theorem storeFiles_free (disk : Bytes → Option LocalFile) {paths added : List Bytes} {cmdErr : Bytes}
    (hpaths : ∀ path ∈ paths, (0 : UInt8) ∉ path) (hadded : ∀ name ∈ added, (0 : UInt8) ∉ name)
    (hcmdErr : 0 ∉ cmdErr) :
    Yields (fun _ => True) (P.storeFiles s disk paths added cmdErr)
      (fun _ r => (∀ name ∈ r.1, 0 ∉ name) ∧ 0 ∉ r.2) fun _ => True := by
  induction paths generalizing added cmdErr with
  | nil => exact yields_pure ⟨hadded, hcmdErr⟩
  | cons path paths ih =>
    obtain ⟨hpath, hrest⟩ := List.forall_mem_cons.1 hpaths
    have hmsg : ∀ before after : Bytes, 0 ∉ before → 0 ∉ after →
        (0 : UInt8) ∉ cmdErr ++ before ++ path ++ after := by
      intro before after hbefore hafter
      simp [hcmdErr, hbefore, hpath, hafter]
    unfold Platform.storeFiles
    refine (yields_any _).bind fun _ found _ => ?_
    cases found with
    | true => exact ih hrest hadded (hmsg _ _ (by decide) (by decide))
    | false =>
      refine (yields_any _).bind fun _ written _ => ?_
      cases written with
      | true =>
        refine ih hrest ?_ hcmdErr
        intro name hname
        rcases List.mem_append.1 hname with hname | hname
        · exact hadded name hname
        · rw [List.mem_singleton.1 hname]
          exact notMem_filename hpath
      | false => exact ih hrest hadded (hmsg _ _ (by decide) (by decide))

/-- Whatever the DHT returns, a command whose arguments have no NUL is answered, without one. -/
theorem perform_free {disk : Disk} {command : Dispatch} (hskipped : command ≠ .skipped)
    (hexit : command ≠ .exit) (hargs : ∀ arg ∈ command.args, (0 : UInt8) ∉ arg) :
    Yields (fun _ => True) (P.perform s disk command)
      (fun _ r => ∃ answer, r.1 = some answer ∧ answer.Free) fun _ => True := by
  cases command with
  | skipped => exact absurd rfl hskipped
  | exit => exact absurd rfl hexit
  | list => exact listCmd_free.bind fun _ answer hfree => yields_pure ⟨answer, rfl, hfree⟩
  | store args =>
    have hstore : Yields (fun _ => True) (P.storeCmd s disk.file args) (fun _ answer => answer.Free)
        fun _ => True := by
      refine (storeFiles_free disk.file hargs (by simp) (by simp)).bind fun _ r hr => ?_
      refine (yields_any _).bind fun _ added _ => ?_
      cases added with
      | true => exact yields_pure ⟨hr.2, notMem_report (by decide) hr.1⟩
      | false =>
        refine yields_pure ⟨?_, by simp⟩
        rw [List.mem_append, not_or]
        exact ⟨hr.2, by decide⟩
    exact hstore.bind fun _ answer hfree => yields_pure ⟨answer, rfl, hfree⟩
  | load args outputFile =>
    have hout : (0 : UInt8) ∉ outputFile :=
      hargs outputFile (List.mem_append_right _ (List.mem_singleton_self _))
    have hload : Yields (fun _ => True) (P.loadCmd s disk args outputFile) (fun _ r => r.1.Free)
        fun _ => True := by
      refine (yields_any _).bind fun _ data _ => ?_
      cases data with
      | none =>
        exact yields_pure ⟨show (0 : UInt8) ∉ text "Failed to read from files" by decide, by simp⟩
      | some data =>
        simp only []
        split
        · refine yields_pure ⟨by simp, ?_⟩
          rw [List.mem_append, not_or]
          exact ⟨by decide, hout⟩
        · refine yields_pure ⟨?_, by simp⟩
          rw [List.mem_append, not_or]
          exact ⟨by decide, hout⟩
    exact hload.bind fun _ r hfree => yields_pure ⟨r.1, rfl, hfree⟩

/-- All commands are answered, without a NUL. -/
theorem performAll_free {disk : Disk} {commands : List Dispatch}
    (h : ∀ command ∈ commands, command ≠ .skipped ∧ command ≠ .exit ∧
      ∀ arg ∈ command.args, (0 : UInt8) ∉ arg) :
    Yields (fun _ => True) (P.performAll s disk commands)
      (fun _ r => ∃ results : List CmdResult, r.1 = results.map some ∧
        results.length = commands.length ∧ ∀ answer ∈ results, answer.Free) fun _ => True := by
  induction commands generalizing disk with
  | nil => exact yields_pure ⟨[], rfl, rfl, by simp⟩
  | cons command commands ih =>
    obtain ⟨⟨hskipped, hexit, hargs⟩, hrest⟩ := List.forall_mem_cons.1 h
    unfold Platform.performAll
    refine (perform_free hskipped hexit hargs).bind fun _ r hr => ?_
    obtain ⟨answer, hanswer, hfree⟩ := hr
    refine (ih hrest).bind fun _ r' hr' => ?_
    obtain ⟨results, hresults, hlen, hall⟩ := hr'
    refine yields_pure ⟨answer :: results, ?_, by simp [hlen], List.forall_mem_cons.2 ⟨hfree, hall⟩⟩
    rw [hanswer, hresults, List.map_cons]

end Answers

/-! ## The command goes through its pipe -/

/-- The byte of a command. -/
def Dispatch.cmd : Dispatch → UInt8
  | .skipped => 0
  | .exit => cmdExit
  | .list => cmdList
  | .store _ => cmdStore
  | .load _ _ => cmdLoad

/-- The word for a command, for `main` and the interactive client. -/
def Dispatch.word : Dispatch → Bytes
  | .skipped => []
  | .exit => text "exit"
  | .list => text "list"
  | .store _ => text "store"
  | .load _ _ => text "load"

/-- The flags of `main`. -/
def flags : List Bytes := [text "-h", text "--help", text "-i", text "--interactive"]

/-- A command that has what it needs. -/
structure Dispatch.Complete (command : Dispatch) : Prop where
  /-- It is one. -/
  ne_skipped : command ≠ .skipped
  /-- Something is stored. -/
  stores : command ≠ .store []
  /-- Something is loaded. -/
  loads : ∀ outputFile, command ≠ .load [] outputFile

/-- A command that can be sent: it has fewer than 256 arguments, and these are not empty, have no
NUL, and are no flags. -/
structure Dispatch.Sendable (command : Dispatch) : Prop extends command.Complete where
  /-- A byte counts the arguments. -/
  few : command.args.length < 256
  /-- The arguments. -/
  args : ∀ arg ∈ command.args, arg ≠ [] ∧ (0 : UInt8) ∉ arg ∧ arg ∉ flags

/-- What is read of a frame is what was sent. -/
theorem readDispatch_run (clientId : Int32) {command : Dispatch} (h : command.Sendable)
    {args : List ArgString} (hargs : args.map Subtype.val = command.args) (buff : UInt8)
    (vars : CmdVars) :
    (readDispatch ((sentBytes clientId command.cmd args).length - 6) buff vars
      ⟨sentBytes clientId command.cmd args, false⟩).result = .ok command := by
  have hlen : args.length = command.args.length := by rw [← hargs, List.length_map]
  have hturns : (sentBytes clientId command.cmd args).length - 6 =
      (Records.encode 0 (args.map Subtype.val)).length := by
    rw [sentBytes_eq, List.length_append, List.length_cons, List.length_cons]
    show 4 + ((Records.encode 0 (args.map Subtype.val)).length + 1 + 1) - 6 = _
    omega
  have hread := @succeeds_readCmd_turns (fun _ => True) clientId command.cmd args
    (by rw [hlen]; exact h.few)
    (fun arg hmem => (h.args arg.1 (hargs ▸ List.mem_map_of_mem hmem)).1) buff vars [] false
  rw [List.append_nil, ← hturns] at hread
  obtain ⟨r, hresult, -, rfl⟩ := hread fun _ _ => trivial
  unfold readDispatch
  rw [bind_of_ok hresult]
  simp only [Bool.not_true, Bool.false_eq_true, if_false, hargs]
  cases command with
  | skipped => exact absurd rfl h.ne_skipped
  | exit => rfl
  | list => rfl
  | store args => rfl
  | load args outputFile =>
    have hlast : (Dispatch.load args outputFile).args.getLast? = some outputFile := by
      simp [Dispatch.args]
    have hfirst : (Dispatch.load args outputFile).args.dropLast = args := by simp [Dispatch.args]
    simp only [hlast, hfirst, Dispatch.cmd, show cmdLoad ≠ cmdExit by decide,
      show cmdLoad ≠ cmdList by decide, show cmdLoad ≠ cmdStore by decide, if_false, if_true]
    rfl

/-- What `main` makes of the words of a command. -/
theorem main_request {command : Dispatch} (h : command.Sendable) {idText : Bytes} {sessionId : ℕ}
    (hdigits : idText.all isDigit) (hid : stoi idText = .ok sessionId) (cmdFileExists : ℕ → Bool)
    {argv : List ArgString} (hargv : argv.map Subtype.val = command.word :: idText :: command.args) :
    main true cmdFileExists argv = if cmdFileExists sessionId then
      .ok (.request sessionId command.cmd (argv.drop 2))
    else .ok (.returns 2 (text "Session ID not found. :O\n")) := by
  have hrequest : ∀ args, requestOf cmdFileExists idText command.cmd args =
      if cmdFileExists sessionId then .ok (.request sessionId command.cmd args)
      else .ok (.returns 2 (text "Session ID not found. :O\n")) := by
    intro args
    unfold requestOf
    simp only [hdigits, hid, if_true]
  have hword : command.word ∉ flags := by
    cases command with
    | skipped => exact absurd rfl h.ne_skipped
    | exit => decide
    | list => decide
    | store args => exact show text "store" ∉ flags by decide
    | load args outputFile => exact show text "load" ∉ flags by decide
  have hidText : idText ∉ flags := fun hmem =>
    absurd hdigits ((by decide : ∀ flag ∈ flags, ¬flag.all isDigit = true) idText hmem)
  have hnone : ∀ arg ∈ argv, arg.1 ∉ flags := by
    intro arg hmem
    have harg : arg.1 ∈ command.word :: idText :: command.args := hargv ▸ List.mem_map_of_mem hmem
    rcases List.mem_cons.1 harg with heq | harg
    · rwa [heq]
    rcases List.mem_cons.1 harg with heq | harg
    · rwa [heq]
    · exact (h.args _ harg).2.2
  have hhelp : (argv.any fun arg => arg.1 = text "-h" ∨ arg.1 = text "--help") = false := by
    rw [List.any_eq_false]
    intro arg hmem heq
    exact hnone arg hmem (by rcases of_decide_eq_true heq with heq | heq <;> simp [flags, heq])
  have hinteractive :
      (argv.any fun arg => arg.1 = text "-i" ∨ arg.1 = text "--interactive") = false := by
    rw [List.any_eq_false]
    intro arg hmem heq
    exact hnone arg hmem (by rcases of_decide_eq_true heq with heq | heq <;> simp [flags, heq])
  have hlen : argv.length = command.args.length + 2 := by
    rw [← List.length_map (f := Subtype.val), hargv]
    rfl
  have hne : argv ≠ [] := List.ne_nil_of_length_pos (by omega)
  unfold main
  rw [if_neg hne, hhelp, hinteractive]
  simp only [Bool.false_eq_true, if_false, Bool.not_true, hargv, List.headD_cons,
    List.getElem?_cons_succ, List.getElem?_cons_zero, Option.getD_some]
  cases command with
  | skipped => exact absurd rfl h.ne_skipped
  | exit =>
    have hdrop : argv.drop 2 = [] := List.drop_eq_nil_of_le (Nat.le_of_eq hlen)
    rw [hdrop, ← hrequest]
    simp only [Dispatch.word, show text "exit" ≠ text "start" by decide, if_false, if_true]
    exact if_neg (by omega)
  | list =>
    have hdrop : argv.drop 2 = [] := List.drop_eq_nil_of_le (Nat.le_of_eq hlen)
    rw [hdrop, ← hrequest]
    simp only [Dispatch.word, show text "list" ≠ text "start" by decide,
      show text "list" ≠ text "exit" by decide, if_false, if_true]
    exact if_neg (by omega)
  | store args =>
    have hargs : args ≠ [] := fun heq => h.stores (heq ▸ rfl)
    have hpos : 0 < (Dispatch.store args).args.length := List.length_pos_iff.2 hargs
    rw [← hrequest]
    simp only [Dispatch.word, show text "store" ≠ text "start" by decide,
      show text "store" ≠ text "exit" by decide, show text "store" ≠ text "list" by decide,
      if_false, if_true]
    exact if_neg (by omega)
  | load args outputFile =>
    have hargs : args ≠ [] := fun heq => h.loads outputFile (heq ▸ rfl)
    have hpos : 1 < (Dispatch.load args outputFile).args.length := by
      have hpos := List.length_pos_iff.2 hargs
      simp only [Dispatch.args, List.length_append, List.length_singleton]
      omega
    rw [← hrequest]
    simp only [Dispatch.word, show text "load" ≠ text "start" by decide,
      show text "load" ≠ text "exit" by decide, show text "load" ≠ text "list" by decide,
      show text "load" ≠ text "store" by decide, if_false, if_true]
    exact if_neg (by omega)

/-! ## Invocations -/

section Invocations

variable {ε σ : Type} {P : Platform} {s : Dht ε σ} {idText : Bytes} {sessionId : ℕ}

/-- The program is invoked with the words of a command that can be sent to the session of the text. -/
structure Invokes (idText : Bytes) (call : Circumstances × List ArgString) (command : Dispatch) :
    Prop where
  /-- The client's directory is there. -/
  setsUp : call.1.setsUp = true
  /-- The words. -/
  words : call.2.map Subtype.val = command.word :: idText :: command.args
  /-- The command. -/
  sendable : command.Sendable

/-- What comes of a client that asks for a session that is gone. -/
def notFound : Outcome := .returns 2 (text "Session ID not found. :O\n")

/-- What comes of the clients whose commands are not answered: the first `exit`, and those after
it. -/
def unanswered (commands : List Dispatch) : List Outcome :=
  match commands.dropWhile (· ≠ .exit) with
  | [] => []
  | _ :: rest => .returns 0 [] :: rest.map fun _ => notFound

section UntilExit

variable {command : Dispatch} (hexit : command ≠ .exit) (commands : List Dispatch)
include hexit

/-- A command other than `exit` is run. -/
theorem takeWhile_cons_of_ne_exit :
    (command :: commands).takeWhile (· ≠ .exit) = command :: commands.takeWhile (· ≠ .exit) :=
  List.takeWhile_cons_of_pos (by simpa using hexit)

theorem unanswered_cons_of_ne_exit : unanswered (command :: commands) = unanswered commands := by
  unfold unanswered
  rw [List.dropWhile_cons_of_pos (by simpa using hexit)]

theorem exit_mem_cons_of_ne : .exit ∈ command :: commands ↔ .exit ∈ commands := by
  simp [Ne.symm hexit]

end UntilExit

/-- An invocation while the daemon runs does what the command does. -/
theorem invoke_running {call : Circumstances × List ArgString} {command : Dispatch}
    (h : Invokes idText call command) (hdigits : idText.all isDigit) (hid : stoi idText = .ok sessionId)
    (disk : Disk) :
    P.invoke s sessionId ⟨true, disk⟩ call.1 call.2 = (do
      let (answer, disk) ← P.perform s disk command
      return (if command = .exit then .returns 0 [] else receive call.1 answer,
        ⟨decide (command ≠ .exit), disk⟩)) := by
  have hargs : (call.2.drop 2).map Subtype.val = command.args := by
    rw [List.map_drop, h.words]
    rfl
  have hexit : command.cmd = cmdExit ↔ command = .exit := by
    cases command with
    | skipped => exact absurd rfl h.sendable.ne_skipped
    | exit => simp [Dispatch.cmd]
    | list => exact iff_of_false (show cmdList ≠ cmdExit by decide) (by simp)
    | store args => exact iff_of_false (show cmdStore ≠ cmdExit by decide) (by simp)
    | load args outputFile => exact iff_of_false (show cmdLoad ≠ cmdExit by decide) (by simp)
  have hmain := main_request h.sendable hdigits hid (fun id => true && decide (id = sessionId)) h.words
  simp only [Bool.true_and, decide_true, if_true] at hmain
  unfold Platform.invoke
  simp only [h.setsUp, Bool.true_and, hmain, readDispatch_run call.1.clientId h.sendable hargs, hexit]
  rfl

/-- An invocation when it does not run does nothing. -/
theorem invoke_gone {call : Circumstances × List ArgString} {command : Dispatch}
    (h : Invokes idText call command) (hdigits : idText.all isDigit) (hid : stoi idText = .ok sessionId)
    (disk : Disk) :
    P.invoke s sessionId ⟨false, disk⟩ call.1 call.2 = pure (notFound, ⟨false, disk⟩) := by
  have hmain :=
    main_request h.sendable hdigits hid (fun id => false && decide (id = sessionId)) h.words
  simp only [Bool.false_and, Bool.false_eq_true, if_false] at hmain
  unfold Platform.invoke
  simp only [h.setsUp, Bool.false_and, hmain]
  rfl

theorem invokeAll_gone {calls : List (Circumstances × List ArgString)} {commands : List Dispatch}
    (h : List.Forall₂ (Invokes idText) calls commands) (hdigits : idText.all isDigit)
    (hid : stoi idText = .ok sessionId) (disk : Disk) :
    P.invokeAll s sessionId ⟨false, disk⟩ calls =
      pure (commands.map fun _ => notFound, ⟨false, disk⟩) := by
  induction h with
  | nil => rfl
  | @cons call command calls commands hfirst _ ih =>
    unfold Platform.invokeAll
    simp only [invoke_gone hfirst hdigits hid, Exec.pure_bind, ih, List.map_cons]

/-- Invocations do what their commands do, up to the first `exit`. -/
theorem invokeAll_running {calls : List (Circumstances × List ArgString)} {commands : List Dispatch}
    (h : List.Forall₂ (Invokes idText) calls commands) (hdigits : idText.all isDigit)
    (hid : stoi idText = .ok sessionId) (disk : Disk) :
    P.invokeAll s sessionId ⟨true, disk⟩ calls = (do
      let (answers, disk) ← P.performAll s disk (commands.takeWhile (· ≠ .exit))
      return ((calls.zip answers).map (fun call => receive call.1.1 call.2) ++ unanswered commands,
        ⟨decide (.exit ∉ commands), disk⟩)) := by
  induction h generalizing disk with
  | nil => rfl
  | @cons call command calls commands hfirst hrest ih =>
    unfold Platform.invokeAll
    simp only [invoke_running hfirst hdigits hid]
    by_cases hexit : command = .exit
    · subst hexit
      have hgone := @invokeAll_gone _ _ P s _ _ _ _ hrest hdigits hid disk
      simp [Platform.perform, Platform.performAll, unanswered, Exec.pure_bind, hgone]
    · rw [takeWhile_cons_of_ne_exit hexit]
      unfold Platform.performAll
      simp only [Exec.bind_assoc, Exec.pure_bind, hexit, ne_eq, not_false_eq_true, decide_true, if_false,
        ih, unanswered_cons_of_ne_exit hexit, exit_mem_cons_of_ne hexit, List.zip_cons_cons,
        List.map_cons, List.cons_append]

theorem sendable_of_invokes {calls : List (Circumstances × List ArgString)} {commands : List Dispatch}
    (h : List.Forall₂ (Invokes idText) calls commands) : ∀ command ∈ commands, command.Sendable := by
  induction h with
  | nil => simp
  | cons hfirst _ ih => exact List.forall_mem_cons.2 ⟨hfirst.sendable, ih⟩

/-- The outcomes of clients and the answers that they were sent: each whose pipe takes its answer
has printed it. -/
def Prints (calls : List (Circumstances × List ArgString)) (results : List CmdResult)
    (outcomes : List Outcome) : Prop :=
  List.Forall₂ (fun call outcome => call.1.1.Takes call.2 → outcome = .returns 0 call.2.printed)
    (calls.zip results) outcomes

/-- Clients that receive answers without a NUL print those that their pipes take. -/
theorem prints_receive {calls : List (Circumstances × List ArgString)} {results : List CmdResult}
    (hfree : ∀ answer ∈ results, answer.Free) :
    Prints calls results ((calls.zip (results.map some)).map fun call => receive call.1.1 call.2) := by
  unfold Prints
  induction results generalizing calls with
  | nil => simp
  | cons answer results ih =>
    cases calls with
    | nil => simp
    | cons call calls =>
      obtain ⟨hanswer, hall⟩ := List.forall_mem_cons.1 hfree
      rw [List.zip_cons_cons, List.map_cons, List.zip_cons_cons, List.map_cons]
      exact .cons (fun htakes => receive_printed htakes hanswer) (ih hall)

/-- Where all pipes take their answers, all are printed. -/
theorem Prints.eq {calls : List (Circumstances × List ArgString)} {results : List CmdResult}
    {outcomes : List Outcome} (h : Prints calls results outcomes) (hlen : results.length ≤ calls.length)
    (htakes : ∀ call ∈ calls.zip results, call.1.1.Takes call.2) :
    outcomes = results.map fun answer => .returns 0 answer.printed := by
  unfold Prints at h
  induction results generalizing calls outcomes with
  | nil =>
    rw [List.zip_nil_right, List.forall₂_nil_left_iff] at h
    exact h
  | cons answer results ih =>
    cases calls with
    | nil => simp at hlen
    | cons call calls =>
      rw [List.zip_cons_cons] at h htakes
      obtain ⟨hfirst, hrest⟩ := List.forall_mem_cons.1 htakes
      obtain ⟨outcome, outcomes, hprinted, hall, rfl⟩ := List.forall₂_cons_left_iff.1 h
      rw [List.map_cons, hprinted hfirst, ih hall (Nat.le_of_succ_le_succ hlen) hrest]

/-- Commands of invocations that come to an end are all answered, and answers that their pipes take
are printed. -/
theorem answers_of_invokes {calls : List (Circumstances × List ArgString)} {commands : List Dispatch}
    (h : List.Forall₂ (Invokes idText) calls commands) {disk disk' : Disk} {start : σ}
    {answers : List (Option CmdResult)}
    (hresult : (P.performAll s disk (commands.takeWhile (· ≠ .exit)) start).result =
      .ok (answers, disk')) :
    ∃ results : List CmdResult, answers = results.map some ∧
      results.length = (commands.takeWhile (· ≠ .exit)).length ∧ results.length ≤ calls.length ∧
      Prints calls results ((calls.zip answers).map fun call => receive call.1.1 call.2) := by
  have hall : ∀ command ∈ commands.takeWhile (· ≠ .exit), command ≠ .skipped ∧ command ≠ .exit ∧
      ∀ arg ∈ command.args, (0 : UInt8) ∉ arg := by
    intro command hmem
    have hcommand := sendable_of_invokes h command ((List.takeWhile_sublist _).subset hmem)
    exact ⟨hcommand.ne_skipped, by simpa using List.mem_takeWhile_imp hmem,
      fun arg harg => (hcommand.args arg harg).2.1⟩
  obtain ⟨results, rfl, hlen, hfree⟩ := (performAll_free hall).returns start _ trivial hresult
  refine ⟨results, rfl, hlen, ?_, prints_receive hfree⟩
  rw [hlen, h.length_eq]
  exact (List.takeWhile_sublist _).length_le

/-- Invocations with the words of commands do to the DHT what the commands do, up to the first
`exit`. Where these come to an end, the daemon's disk is theirs, and the daemon runs on if there was
no `exit`. Each of the clients before it was sent an answer, and has printed it if the client's own
pipe takes it; the one with the `exit` prints nothing, and those after it find no session. -/
theorem invokeAll_commands {calls : List (Circumstances × List ArgString)} {commands : List Dispatch}
    (h : List.Forall₂ (Invokes idText) calls commands) (hdigits : idText.all isDigit)
    (hid : stoi idText = .ok sessionId) (disk : Disk) (start : σ) :
    let performed := P.performAll s disk (commands.takeWhile (· ≠ .exit)) start
    let invoked := P.invokeAll s sessionId ⟨true, disk⟩ calls start
    invoked.events = performed.events ∧ invoked.state = performed.state ∧
      (∀ e, performed.result = .error e → invoked.result = .error e) ∧
      ∀ answers disk', performed.result = .ok (answers, disk') →
        ∃ (results : List CmdResult) (outcomes : List Outcome), answers = results.map some ∧
          results.length = (commands.takeWhile (· ≠ .exit)).length ∧
          invoked.result = .ok (outcomes ++ unanswered commands, ⟨decide (.exit ∉ commands), disk'⟩) ∧
          Prints calls results outcomes := by
  have hrun := @invokeAll_running _ _ P s _ _ _ _ h hdigits hid disk
  intro performed invoked
  cases hresult : performed.result with
  | error e =>
    have hinvoked : invoked = _ := (congrFun hrun start).trans (bind_of_error hresult)
    rw [hinvoked]
    refine ⟨rfl, rfl, fun e' he => ?_, by simp⟩
    rw [Except.error.inj he]
  | ok r =>
    have hinvoked : invoked = _ := (congrFun hrun start).trans (bind_of_ok hresult)
    rw [hinvoked]
    refine ⟨List.append_nil _, rfl, by simp, fun answers disk' heq => ?_⟩
    obtain rfl := Except.ok.inj heq
    obtain ⟨results, hresults, hlen, -, hprints⟩ := answers_of_invokes h hresult
    exact ⟨results, _, hresults, hlen, rfl, hprints⟩

end Invocations

/-- The words as arguments of a program. -/
def argv (words : List Bytes) : List ArgString := words.map fun word => ⟨word.filter (· ≠ 0), by simp⟩

/-- The pipe of the answer is open, and has room. -/
def helloEnv : Circumstances := ⟨true, 1, ⟨0, 0, 0, []⟩, 0, true, [64, 64, 64], 0, 0⟩

/-- The index is listed, the daemon exits, and the index is listed again. -/
def helloCalls : List (Circumstances × List ArgString) :=
  [(helloEnv, argv [text "list", text "7"]), (helloEnv, argv [text "exit", text "7"]),
    (helloEnv, argv [text "list", text "7"])]

/-- The map with an empty index. -/
def emptyIndex : Key → Option Bytes := Function.update (fun _ => none) inOrder.indexKey (some [])

theorem helloCalls_invoke : List.Forall₂ (Invokes (text "7")) helloCalls [.list, .exit, .list] := by
  have hlist : Dispatch.list.Sendable :=
    ⟨⟨by decide, by decide, by simp⟩, by decide, by simp [Dispatch.args]⟩
  have hexit : Dispatch.exit.Sendable :=
    ⟨⟨by decide, by decide, by simp⟩, by decide, by simp [Dispatch.args]⟩
  exact .cons ⟨rfl, by decide, hlist⟩
    (.cons ⟨rfl, by decide, hexit⟩ (.cons ⟨rfl, by decide, hlist⟩ .nil))

theorem performAll_hello : (inOrder.performAll Dht.map helloDisk
    ([.list, .exit, .list].takeWhile (· ≠ .exit)) emptyIndex).result =
      .ok ([some ⟨true, [], text "INDEX\n"⟩], helloDisk) := by
  have hget : Dht.map.get inOrder.indexKey emptyIndex = ⟨[], emptyIndex, .ok (some [])⟩ :=
    get_map_run (Function.update_self ..)
  have hfiles : inOrder.getIndexFiles Dht.map emptyIndex = ⟨[], emptyIndex, .ok (some [])⟩ := by
    unfold Platform.getIndexFiles
    rw [bind_run hget]
    rfl
  simp only [show [Dispatch.list, .exit, .list].takeWhile (· ≠ .exit) = [.list] by decide,
    Platform.performAll, Platform.perform, Platform.listCmd, Exec.bind_assoc, Exec.pure_bind]
  rw [bind_run hfiles]
  rfl

/-- The pipe takes the answer to the first of the invocations. -/
theorem helloCalls_take :
    ∀ call ∈ helloCalls.zip [⟨true, [], text "INDEX\n"⟩], call.1.1.Takes call.2 := by
  intro call hmem
  obtain rfl : call = ((helloEnv, argv [text "list", text "7"]), ⟨true, [], text "INDEX\n"⟩) :=
    List.mem_singleton.1 hmem
  exact ⟨rfl, by decide, by decide, by decide⟩

/-- The first of three invocations lists the index, the second prints nothing, and the third finds no
session. -/
theorem invokeAll_commands_hello :
    (inOrder.invokeAll Dht.map 7 ⟨true, helloDisk⟩ helloCalls emptyIndex).result =
      .ok ([.returns 0 (text "INDEX\n\n"), .returns 0 [], notFound], ⟨false, helloDisk⟩) := by
  have hid : stoi (text "7") = .ok 7 := by decide
  obtain ⟨-, -, -, hprints⟩ := invokeAll_commands helloCalls_invoke (by decide) hid helloDisk emptyIndex
  obtain ⟨results, outcomes, hresults, -, hinvoked, hprinted⟩ := hprints _ _ performAll_hello
  obtain rfl : results = [⟨true, [], text "INDEX\n"⟩] := by simpa using hresults.symm
  obtain rfl := hprinted.eq (by decide) helloCalls_take
  exact hinvoked.trans (congrArg Except.ok (Prod.ext (by decide) rfl))

section Invocations

variable {ε σ : Type} {P : Platform} {s : Dht ε σ} {idText : Bytes} {sessionId : ℕ}

/-! ## Lines -/

/-- The words of the line are those of a command that has what it needs. -/
structure Types (line : Bytes) (command : Dispatch) : Prop where
  /-- The words. -/
  words : tokens [] line = command.word :: command.args
  /-- The command. -/
  complete : command.Complete

/-- The terminal once a command was typed and answered. -/
def Terminal.hear (terminal : Terminal) (disk : Disk) : Option CmdResult → Terminal
  | none => ⟨disk, terminal.out ++ text "> ", terminal.success, false⟩
  | some answer => { terminal with out := terminal.out ++ text "> " }.report disk answer

/-- A turn on the line of a command. -/
theorem interactiveTurn_run {line : Bytes} {command : Dispatch} (h : Types line command)
    (hexit : command ≠ .exit) (terminal : Terminal) :
    P.interactiveTurn s terminal line = (do
      let (answer, disk) ← P.perform s terminal.disk command
      return terminal.hear disk answer) := by
  unfold Platform.interactiveTurn
  rw [h.words]
  cases command with
  | skipped => exact absurd rfl h.complete.ne_skipped
  | exit => exact absurd rfl hexit
  | list =>
    simp only [Dispatch.word, show text "list" ≠ text "help" by decide, if_false, if_true,
      Platform.perform, Exec.bind_assoc, Exec.pure_bind]
    rfl
  | store args =>
    have hargs : args ≠ [] := fun heq => h.complete.stores (heq ▸ rfl)
    simp only [Dispatch.word, Dispatch.args, show text "store" ≠ text "help" by decide,
      show text "store" ≠ text "list" by decide, if_false, if_true, hargs, Platform.perform,
      Exec.bind_assoc, Exec.pure_bind]
    rfl
  | load args outputFile =>
    have hargs : args ≠ [] := fun heq => h.complete.loads outputFile (heq ▸ rfl)
    have hlen : ¬(args ++ [outputFile]).length < 2 := by
      have hpos := List.length_pos_iff.2 hargs
      simp only [List.length_append, List.length_singleton]
      omega
    have hlast : (args ++ [outputFile]).getLastD [] = outputFile := by simp
    simp only [Dispatch.word, Dispatch.args, show text "load" ≠ text "help" by decide,
      show text "load" ≠ text "list" by decide, show text "load" ≠ text "store" by decide,
      if_false, if_true, hlen, hlast, List.dropLast_concat, Platform.perform, Exec.bind_assoc,
      Exec.pure_bind]
    rfl

/-- What the terminal shows of a command that was typed and answered. -/
def shown (answer : Option CmdResult) : Bytes := text "> " ++ answer.elim [] CmdResult.printed

theorem hear_eq (terminal : Terminal) (disk : Disk) (answer : Option CmdResult) :
    terminal.hear disk answer = ⟨disk, terminal.out ++ shown answer,
      answer.elim terminal.success CmdResult.success, false⟩ := by
  cases answer with
  | none => simp [Terminal.hear, shown]
  | some answer => simp [Terminal.hear, Terminal.report, shown, CmdResult.printed]

/-- When it is over, nothing is read. -/
theorem interactiveLoop_exited {terminal : Terminal} (h : terminal.exited = true) (lines : List Bytes) :
    P.interactiveLoop s terminal lines = pure terminal := by
  cases lines with
  | nil => rfl
  | cons line lines =>
    unfold Platform.interactiveLoop
    rw [if_pos h]

/-- Lines with the words of commands do what the commands do, up to the first `exit`. -/
theorem interactiveLoop_run {lines : List Bytes} {commands : List Dispatch}
    (h : List.Forall₂ Types lines commands) {terminal : Terminal} (hexited : terminal.exited = false) :
    P.interactiveLoop s terminal lines = (do
      let (answers, disk) ← P.performAll s terminal.disk (commands.takeWhile (· ≠ .exit))
      return ⟨disk,
        terminal.out ++ answers.flatMap shown ++ (if .exit ∈ commands then text "> " else []),
        answers.foldl (fun success answer => answer.elim success CmdResult.success) terminal.success,
        decide (.exit ∈ commands)⟩) := by
  induction h generalizing terminal with
  | nil =>
    cases terminal
    subst hexited
    simp [Platform.interactiveLoop, Platform.performAll, Exec.pure_bind]
  | @cons line command lines commands hfirst _ ih =>
    unfold Platform.interactiveLoop
    simp only [hexited, Bool.false_eq_true, if_false]
    by_cases hexit : command = .exit
    · subst hexit
      have hturn : P.interactiveTurn s terminal line =
          pure ⟨terminal.disk, terminal.out ++ text "> ", terminal.success, true⟩ := by
        unfold Platform.interactiveTurn
        rw [hfirst.words]
        simp only [Dispatch.word, show text "exit" ≠ text "help" by decide,
          show text "exit" ≠ text "list" by decide, show text "exit" ≠ text "store" by decide,
          show text "exit" ≠ text "load" by decide, if_false, if_true]
      rw [hturn, Exec.pure_bind, interactiveLoop_exited rfl]
      simp [Platform.performAll, Exec.pure_bind]
    · rw [interactiveTurn_run hfirst hexit, takeWhile_cons_of_ne_exit hexit]
      unfold Platform.performAll
      simp only [Exec.bind_assoc, Exec.pure_bind, hear_eq, ih, exit_mem_cons_of_ne hexit,
        List.flatMap_cons, List.foldl_cons, List.append_assoc]

/-- What an invocation prints. -/
def Outcome.out : Outcome → Bytes
  | .returns _ out => out
  | _ => []

/-- The first of the clients that are not answered is the one with the `exit`, if there is one. -/
theorem take_one_unanswered (commands : List Dispatch) :
    (unanswered commands).take 1 = if .exit ∈ commands then [.returns 0 []] else [] := by
  induction commands with
  | nil => rfl
  | cons command commands ih =>
    by_cases hexit : command = .exit
    · subst hexit
      simp [unanswered]
    · have hdrop : unanswered (command :: commands) = unanswered commands := by
        unfold unanswered
        rw [List.dropWhile_cons_of_pos (by simpa using hexit)]
      rw [hdrop, ih]
      simp [Ne.symm hexit]

/-- Lines with the words of commands, typed at the interactive client, do to the DHT and to the disk
what invocations with these words do next to a daemon; and they show what these print, up to the
first `exit`, each after the prompt. -/
theorem interactive_agrees {calls : List (Circumstances × List ArgString)} {lines : List Bytes}
    {commands : List Dispatch} (hcalls : List.Forall₂ (Invokes idText) calls commands)
    (hlines : List.Forall₂ Types lines commands) (hdigits : idText.all isDigit)
    (hid : stoi idText = .ok sessionId) (disk : Disk) (success : Bool) (start : σ) :
    let typed := P.interactiveLoop s ⟨disk, [], success, false⟩ lines start
    let invoked := P.invokeAll s sessionId ⟨true, disk⟩ calls start
    typed.events = invoked.events ∧ typed.state = invoked.state ∧
      ((∃ e, typed.result = .error e ∧ invoked.result = .error e) ∨
      ∃ terminal outcomes daemon, typed.result = .ok terminal ∧ invoked.result = .ok (outcomes, daemon) ∧
        terminal.disk = daemon.disk ∧ terminal.exited = !daemon.running ∧
        ∃ results : List CmdResult,
          (P.performAll s disk (commands.takeWhile (· ≠ .exit)) start).result =
            .ok (results.map some, daemon.disk) ∧
          ((∀ call ∈ calls.zip results, call.1.1.Takes call.2) →
            terminal.out = (outcomes.take (results.length + 1)).flatMap fun outcome =>
              text "> " ++ outcome.out)) := by
  have htyped := @interactiveLoop_run _ _ P s _ _ hlines ⟨disk, [], success, false⟩ rfl
  have hinvoked := @invokeAll_running _ _ P s _ _ _ _ hcalls hdigits hid disk
  simp only at htyped
  intro typed invoked
  cases hresult : (P.performAll s disk (commands.takeWhile (· ≠ .exit)) start).result with
  | error e =>
    have htyped' : typed = _ := (congrFun htyped start).trans (bind_of_error hresult)
    have hinvoked' : invoked = _ := (congrFun hinvoked start).trans (bind_of_error hresult)
    rw [htyped', hinvoked']
    exact ⟨rfl, rfl, .inl ⟨e, rfl, rfl⟩⟩
  | ok r =>
    have htyped' : typed = _ := (congrFun htyped start).trans (bind_of_ok hresult)
    have hinvoked' : invoked = _ := (congrFun hinvoked start).trans (bind_of_ok hresult)
    obtain ⟨results, hresults, -, hlen, hprints⟩ := answers_of_invokes hcalls hresult
    rw [htyped', hinvoked']
    refine ⟨rfl, rfl, .inr ⟨_, _, _, rfl, rfl, rfl, by simp, results, ?_, fun htakes => ?_⟩⟩
    · rw [← hresults]
    rw [hprints.eq hlen htakes, hresults]
    have htake : (results.map (fun answer => Outcome.returns 0 answer.printed) ++
        unanswered commands).take (results.length + 1) =
          results.map (fun answer => .returns 0 answer.printed) ++
          if .exit ∈ commands then [.returns 0 []] else [] := by
      rw [List.take_append, List.length_map, Nat.add_sub_cancel_left, take_one_unanswered,
        List.take_of_length_le (by simp)]
    rw [htake, List.flatMap_append, List.flatMap_map, List.flatMap_map]
    split
    · simp [shown, Outcome.out]
    · simp [shown, Outcome.out]

end Invocations

/-- What the interactive client shows of `list`, `exit` and `list` is what these invocations print
up to the `exit`, each after the prompt. -/
theorem interactive_agrees_hello :
    ∃ terminal outcomes daemon,
      (inOrder.interactiveLoop Dht.map ⟨helloDisk, [], false, false⟩
        [text "list", text " exit ", text "list"] emptyIndex).result = .ok terminal ∧
      (inOrder.invokeAll Dht.map 7 ⟨true, helloDisk⟩ helloCalls emptyIndex).result =
        .ok (outcomes, daemon) ∧
      terminal.out = (outcomes.take 2).flatMap fun outcome => text "> " ++ outcome.out := by
  have hid : stoi (text "7") = .ok 7 := by decide
  have hlist : Dispatch.list.Complete := ⟨by decide, by decide, by simp⟩
  have hexit : Dispatch.exit.Complete := ⟨by decide, by decide, by simp⟩
  have hlines : List.Forall₂ Types [text "list", text " exit ", text "list"] [.list, .exit, .list] :=
    .cons ⟨by decide, hlist⟩ (.cons ⟨by decide, hexit⟩ (.cons ⟨by decide, hlist⟩ .nil))
  have hrun := @invokeAll_running _ _ inOrder Dht.map _ _ _ _ helloCalls_invoke (by decide) hid helloDisk
  obtain ⟨-, -, ⟨e, -, herror⟩ |
      ⟨terminal, outcomes, daemon, htyped, hinvoked, -, -, results, hresults, hshows⟩⟩ :=
    interactive_agrees (P := inOrder) (s := Dht.map) helloCalls_invoke hlines (by decide) hid helloDisk
      false emptyIndex
  · rw [hrun, bind_of_ok performAll_hello] at herror
    exact nomatch herror
  · rw [performAll_hello] at hresults
    have hanswers := (Prod.ext_iff.1 (Except.ok.inj hresults)).1
    obtain rfl : results = [⟨true, [], text "INDEX\n"⟩] := by simpa using hanswers.symm
    exact ⟨terminal, outcomes, daemon, htyped, hinvoked, hshows helloCalls_take⟩

end Distft
