import Distft.Client.Framing

/-!
# Frames that end too soon

The two readers on a pipe that ends after some bytes. A `read` at the end of the file returns 0,
which both take for a byte read: they go on with what the buffer holds. So `read_cmd` ends exactly
if enough arguments that are not empty follow the count that it uses (`readArgs_of_le`,
`readArgs_of_lt`), which is the old one where none was read; and `read_err` takes the byte before
the end for the NUL of a message that was never begun, if that byte was a NUL.
-/

namespace Distft

open Exec

/-! ## Reads up to the end of the file -/

/-- A read that does not fail. -/
theorem ReadEnd.read_of_not_fails (n : ℕ) (bytes : Bytes) :
    ReadEnd.read n ⟨bytes, false⟩ = (some (bytes.take n), ⟨bytes.drop n, false⟩) := by
  unfold ReadEnd.read
  rw [if_neg (by simp)]

/-- A computation after a read that does not fail. -/
theorem read_bind_run {α : Type} (n : ℕ) (bytes : Bytes) (f : Option Bytes → Reading α) :
    (Exec.act (ReadEnd.read n) >>= f) ⟨bytes, false⟩ =
      f (some (bytes.take n)) ⟨bytes.drop n, false⟩ := by
  have hread : (Exec.act (ReadEnd.read n) : Reading _) ⟨bytes, false⟩ =
      ⟨[], ⟨bytes.drop n, false⟩, .ok (some (bytes.take n))⟩ := by
    unfold Exec.act
    rw [ReadEnd.read_of_not_fails]
  rw [bind_run hread]
  rfl

/-! ## The arguments -/

/-- The arguments that `read_cmd` counts in what follows `currArg`: the terminated strings that are
not empty. -/
def countedArgs (currArg bytes : Bytes) : List Bytes :=
  (Records.decode 0 currArg bytes).filter (0 < ·.length)

/-- At the end of the bytes there are none. -/
@[simp]
theorem countedArgs_nil (currArg : Bytes) : countedArgs currArg [] = [] := rfl

/-- A NUL ends an argument that is not empty. -/
theorem countedArgs_nul {currArg : Bytes} (h : 0 < currArg.length) (rest : Bytes) :
    countedArgs currArg (0 :: rest) = currArg :: countedArgs [] rest := by
  unfold countedArgs
  rw [Records.decode, if_pos rfl, List.filter_cons_of_pos (by simpa using h)]

/-- An empty one is not counted. -/
theorem countedArgs_nul_of_empty {currArg : Bytes} (h : ¬0 < currArg.length) (rest : Bytes) :
    countedArgs currArg (0 :: rest) = countedArgs [] rest := by
  unfold countedArgs
  rw [Records.decode, if_pos rfl, List.filter_cons_of_neg (by simpa using h)]

/-- Another byte belongs to the argument. -/
theorem countedArgs_byte {c : UInt8} (h : c ≠ 0) (currArg rest : Bytes) :
    countedArgs currArg (c :: rest) = countedArgs (currArg ++ [c]) rest := by
  unfold countedArgs
  rw [Records.decode, if_neg h]

/-- The loop is over when it has its arguments. -/
theorem readArgs_of_full {argsCount : ℕ} {vars : CmdVars} (h : argsCount ≤ vars.args.length)
    (turns : ℕ) (buff : UInt8) (currArg : Bytes) :
    readArgs argsCount turns buff currArg vars = pure (true, vars) := by
  unfold readArgs
  rw [if_pos h]

/-- Before it has them, it does not end without turns. -/
theorem readArgs_zero {argsCount : ℕ} {vars : CmdVars} (h : vars.args.length < argsCount) (buff : UInt8)
    (currArg : Bytes) : readArgs argsCount 0 buff currArg vars = Exec.fault .diverges := by
  unfold readArgs
  rw [if_neg (Nat.not_le_of_lt h)]

/-- A turn of the loop, with the byte that it reads, or the last one at the end of the file. -/
theorem readArgs_succ {argsCount : ℕ} {vars : CmdVars} (h : vars.args.length < argsCount) (turns : ℕ)
    (buff : UInt8) (currArg bytes : Bytes) :
    readArgs argsCount (turns + 1) buff currArg vars ⟨bytes, false⟩ =
      (if bytes.headD buff = 0 then
        readArgs argsCount turns (bytes.headD buff) []
          (if 0 < currArg.length then { vars with args := vars.args ++ [currArg] } else vars)
      else readArgs argsCount turns (bytes.headD buff) (currArg ++ [bytes.headD buff]) vars)
        ⟨bytes.drop 1, false⟩ := by
  have hhead : (bytes.take 1).headD buff = bytes.headD buff := by cases bytes <;> rfl
  rw [readArgs, if_neg (Nat.not_le_of_lt h), read_bind_run]
  simp only [hhead]

/-- If enough arguments are there, the loop ends with them. -/
theorem readArgs_of_le {argsCount : ℕ} (buff : UInt8) (currArg bytes : Bytes) (vars : CmdVars)
    (h : argsCount ≤ vars.args.length + (countedArgs currArg bytes).length) :
    ∃ vars', (readArgs argsCount bytes.length buff currArg vars ⟨bytes, false⟩).result =
      .ok (true, vars') := by
  induction bytes generalizing buff currArg vars with
  | nil =>
    rw [readArgs_of_full (by simpa using h)]
    exact ⟨vars, rfl⟩
  | cons c rest ih =>
    by_cases hfull : argsCount ≤ vars.args.length
    · rw [readArgs_of_full hfull]
      exact ⟨vars, rfl⟩
    · rw [List.length_cons, readArgs_succ (Nat.lt_of_not_le hfull), List.headD_cons, List.drop_one,
        List.tail_cons]
      by_cases hc : c = 0
      · subst hc
        rw [if_pos rfl]
        by_cases harg : 0 < currArg.length
        · rw [if_pos harg]
          rw [countedArgs_nul harg, List.length_cons] at h
          apply ih
          rw [List.length_append, List.length_singleton]
          omega
        · rw [if_neg harg]
          exact ih _ _ _ (countedArgs_nul_of_empty harg rest ▸ h)
      · rw [if_neg hc]
        exact ih _ _ _ (countedArgs_byte hc currArg rest ▸ h)

/-- If they are not, it does not end: at the end of the file it reads the last byte again and again.
-/
theorem readArgs_of_lt {argsCount : ℕ} (turns : ℕ) {buff : UInt8} {currArg bytes : Bytes}
    {vars : CmdVars} (hbuff : buff = 0 → currArg = [])
    (h : vars.args.length + (countedArgs currArg bytes).length < argsCount) :
    (readArgs argsCount turns buff currArg vars ⟨bytes, false⟩).result = .error .diverges := by
  have hmore : vars.args.length < argsCount := by omega
  induction turns generalizing buff currArg bytes vars with
  | zero =>
    rw [readArgs_zero hmore]
    rfl
  | succ turns ih =>
    rw [readArgs_succ hmore]
    cases bytes with
    | nil =>
      rw [List.headD_nil, List.drop_nil]
      -- A NUL that is read again ends empty arguments, and another byte makes one that is never ended.
      by_cases hzero : buff = 0
      · rw [if_pos hzero, hbuff hzero]
        exact ih (fun _ => rfl) (by simpa using hmore) hmore
      · rw [if_neg hzero]
        exact ih (fun heq => absurd heq hzero) (by simpa using hmore) hmore
    | cons c rest =>
      rw [List.headD_cons, List.drop_one, List.tail_cons]
      by_cases hc : c = 0
      · subst hc
        rw [if_pos rfl]
        by_cases harg : 0 < currArg.length
        · rw [countedArgs_nul harg, List.length_cons] at h
          have hargs : (vars.args ++ [currArg]).length = vars.args.length + 1 := by simp
          rw [if_pos harg]
          exact ih (fun _ => rfl) (by rw [hargs]; omega) (by rw [hargs]; omega)
        · rw [if_neg harg]
          exact ih (fun _ => rfl) (countedArgs_nul_of_empty harg rest ▸ h) hmore
      · rw [if_neg hc]
        exact ih (fun heq => absurd heq hc) (countedArgs_byte hc currArg rest ▸ h) hmore

/-! ## Commands -/

/-- The sequence starts with a complete frame: a client id, a command, an argument count, and that
many arguments, each with its NUL. -/
def CompleteCmd (bytes : Bytes) : Prop :=
  ∃ id cmd argc args rest, id.length = 4 ∧ args.length = UInt8.toNat argc ∧ (∀ arg ∈ args, 0 ∉ arg) ∧
    bytes = id ++ cmd :: argc :: (Records.encode 0 args ++ rest)

/-- The sequence starts with a client id, a command and an argument count, and at least that many of
the terminated strings that follow are not empty. -/
def HasArgs (bytes : Bytes) : Prop :=
  ∃ id cmd argc rest, id.length = 4 ∧ bytes = id ++ cmd :: argc :: rest ∧
    UInt8.toNat argc ≤ (countedArgs [] rest).length

/-- A reader of a frame comes to an end on the bytes before the end of the file, and returns true
only of a complete frame. -/
structure RejectsTruncated {V : Type} (Complete : Bytes → Prop) (readFrame : ℕ → Reading (Bool × V))
    (bytes : Bytes) : Prop where
  /-- Finitely many turns are enough. -/
  ends : ∃ turns r, (readFrame turns ⟨bytes, false⟩).result = .ok r
  /-- The frame is complete. -/
  complete : ∀ turns vars, (readFrame turns ⟨bytes, false⟩).result = .ok (true, vars) → Complete bytes

/-- Enough arguments make a complete frame. -/
theorem HasArgs.completeCmd {bytes : Bytes} (h : HasArgs bytes) : CompleteCmd bytes := by
  obtain ⟨id, cmd, argc, rest, hid, rfl, hargs⟩ := h
  have hcount : argc.toNat ≤ (Records.decode 0 [] rest).length :=
    hargs.trans (List.length_filter_le _ _)
  refine ⟨id, cmd, argc, (Records.decode 0 [] rest).take argc.toNat,
    Records.encode 0 ((Records.decode 0 [] rest).drop argc.toNat) ++ Records.unterminated 0 [] rest,
    hid, by rw [List.length_take, Nat.min_eq_left hcount],
    fun arg harg => Records.notMem_of_mem_decode List.not_mem_nil (List.mem_of_mem_take harg), ?_⟩
  have hsplit := Records.encode_decode 0 [] rest
  rw [← List.append_assoc, ← Records.encode_append, List.take_append_drop, hsplit, List.nil_append]

/-- Whatever is on the pipe, the arguments are read with the count that is there, or else with the old
one. -/
theorem readCmd_run (turns : ℕ) (buff : UInt8) (vars : CmdVars) (bytes : Bytes) :
    ∃ clientId cmd, readCmd turns buff vars ⟨bytes, false⟩ =
      readArgs ((bytes.drop 5).headD vars.argc).toNat turns buff []
        ⟨clientId, cmd, (bytes.drop 5).headD vars.argc, []⟩ ⟨bytes.drop 6, false⟩ := by
  have hargc : (((bytes.drop 4).drop 1).take 1).headD vars.argc = (bytes.drop 5).headD vars.argc := by
    rw [List.drop_drop]
    cases bytes.drop (4 + 1) <;> rfl
  have hrest : ((bytes.drop 4).drop 1).drop 1 = bytes.drop 6 := by simp only [List.drop_drop]
  refine ⟨pidOfBytes (bytes.take 4 ++ (pidBytes vars.clientId).drop (bytes.take 4).length),
    ((bytes.drop 4).take 1).headD vars.cmd, ?_⟩
  unfold readCmd
  simp only [read_bind_run, hargc, hrest]

/-- What follows the client id and the command. -/
theorem drop_frame {id : Bytes} (hid : id.length = 4) (cmd argc : UInt8) (rest : Bytes) :
    (id ++ cmd :: argc :: rest).drop 5 = argc :: rest ∧
      (id ++ cmd :: argc :: rest).drop 6 = rest := by
  obtain ⟨a, b, c, d, rfl⟩ := List.length_eq_four.1 hid
  exact ⟨rfl, rfl⟩

/-- `read_cmd` rejects what is truncated exactly if there are enough arguments that are not empty. -/
theorem readCmd_rejectsTruncated_iff (buff : UInt8) (vars : CmdVars) (bytes : Bytes) :
    RejectsTruncated CompleteCmd (fun turns => readCmd turns buff vars) bytes ↔ HasArgs bytes := by
  have hcount : ∀ clientId cmd argc, (⟨clientId, cmd, argc, []⟩ : CmdVars).args.length +
      (countedArgs [] (bytes.drop 6)).length = (countedArgs [] (bytes.drop 6)).length :=
    fun _ _ _ => Nat.zero_add _
  constructor
  · intro h
    -- With the count that is used, the loop ends or does not; if it does, the frame is complete, so the
    -- count is the one of the frame.
    by_cases hargs : ((bytes.drop 5).headD vars.argc).toNat ≤ (countedArgs [] (bytes.drop 6)).length
    · obtain ⟨clientId, cmd, hrun⟩ := readCmd_run (bytes.drop 6).length buff vars bytes
      obtain ⟨vars', hresult⟩ := readArgs_of_le buff [] (bytes.drop 6) _
        (hargs.trans_eq (hcount clientId cmd _).symm)
      rw [← hrun] at hresult
      obtain ⟨id, cmd, argc, args, rest, hid, -, -, rfl⟩ := h.complete _ vars' hresult
      obtain ⟨hargc, hrest⟩ := drop_frame hid cmd argc (Records.encode 0 args ++ rest)
      rw [hargc, hrest] at hargs
      exact ⟨id, cmd, argc, _, hid, rfl, hargs⟩
    · obtain ⟨turns, r, hr⟩ := h.ends
      obtain ⟨clientId, cmd, hrun⟩ := readCmd_run turns buff vars bytes
      have hlt := (hcount clientId cmd ((bytes.drop 5).headD vars.argc)).trans_lt (Nat.lt_of_not_le hargs)
      rw [hrun, readArgs_of_lt turns (fun _ => rfl) hlt] at hr
      exact nomatch hr
  · intro h
    refine ⟨?_, fun _ _ _ => h.completeCmd⟩
    obtain ⟨id, cmd, argc, rest, hid, rfl, hargs⟩ := h
    obtain ⟨hargc, hrest⟩ := drop_frame hid cmd argc rest
    obtain ⟨clientId, cmd', hrun⟩ := readCmd_run rest.length buff vars (id ++ cmd :: argc :: rest)
    rw [hargc, hrest, List.headD_cons] at hrun
    rw [hrest] at hcount
    obtain ⟨vars', hresult⟩ := readArgs_of_le buff [] rest _
      (hargs.trans_eq (hcount clientId cmd' argc).symm)
    exact ⟨rest.length, _, (congrArg Run.result hrun).trans hresult⟩

/-! ## Answers -/

/-- The sequence starts with a status byte and two messages, each with its NUL. -/
def CompleteErr (bytes : Bytes) : Prop :=
  ∃ err errMsg succMsg rest, 0 ∉ errMsg ∧ 0 ∉ succMsg ∧
    bytes = err :: (Records.encode 0 [errMsg, succMsg] ++ rest)

/-- A message is read up to its NUL. -/
theorem readMsg_run {turns : ℕ} (buff : UInt8) (msg : Bytes) {read : Bytes} (rest : Bytes)
    (hread : 0 ∉ read) (hturns : read.length < turns) :
    readMsg turns buff msg ⟨read ++ 0 :: rest, false⟩ = ⟨[], ⟨rest, false⟩, .ok (0, msg ++ read)⟩ := by
  induction read generalizing turns buff msg with
  | nil =>
    obtain ⟨turns, rfl⟩ := Nat.exists_eq_succ_of_ne_zero (Nat.ne_of_gt hturns)
    rw [readMsg, read_bind_run]
    simp [pure_run]
  | cons c read ih =>
    obtain ⟨turns, rfl⟩ := Nat.exists_eq_succ_of_ne_zero (Nat.ne_of_gt (Nat.zero_lt_of_lt hturns))
    obtain ⟨hc, hread⟩ := List.ne_and_not_mem_of_not_mem_cons hread
    rw [readMsg, read_bind_run]
    simp [Ne.symm hc, ih c (msg ++ [c]) hread (Nat.lt_of_succ_lt_succ hturns)]

/-- Where `read_err` returns, it returns true. -/
theorem readErr_yields (turns : ℕ) (buff : UInt8) (vars : ErrVars) :
    Yields (fun _ => True) (readErr turns buff vars) (fun _ r => r.1 = true) fun _ => True := by
  have hmsg : ∀ buff msg, Yields (fun _ => True) (readMsg turns buff msg) (fun _ _ => True)
      fun _ => True := fun _ _ =>
    ⟨fun _ _ => trivial, fun _ _ _ _ => trivial, fun _ _ _ _ => trivial⟩
  refine (yields_readEnd 1).bind fun _ read _ => ?_
  cases read with
  | none => exact yields_fault trivial
  | some bytes =>
    refine (hmsg _ _).bind fun _ r _ => (hmsg r.1 _).bind fun _ r' _ => ?_
    exact yields_pure rfl

/-- `read_err` rejects what is truncated exactly if nothing is. -/
theorem readErr_rejectsTruncated_iff (buff : UInt8) (vars : ErrVars) (bytes : Bytes) :
    RejectsTruncated CompleteErr (fun turns => readErr turns buff vars) bytes ↔ CompleteErr bytes := by
  constructor
  · intro h
    -- `read_err` never returns false, so where it ends, it says that the answer is complete.
    obtain ⟨turns, ⟨success, vars'⟩, hr⟩ := h.ends
    have htrue := (readErr_yields turns buff vars).returns _ _ trivial hr
    exact h.complete turns vars' (by rw [hr, ← htrue])
  · intro h
    refine ⟨?_, fun _ _ _ => h⟩
    obtain ⟨err, errMsg, succMsg, rest, herr, hsucc, rfl⟩ := h
    obtain ⟨turns, hturns⟩ : ∃ turns, turns = errMsg.length + succMsg.length + 1 := ⟨_, rfl⟩
    have hfirst := readMsg_run buff vars.errMsg (succMsg ++ 0 :: rest) herr
      (show errMsg.length < turns by omega)
    have hsecond := readMsg_run 0 vars.succMsg rest hsucc (show succMsg.length < turns by omega)
    refine ⟨turns, (true, ⟨err, vars.errMsg ++ errMsg, vars.succMsg ++ succMsg⟩), ?_⟩
    unfold readErr
    rw [read_bind_run]
    simp only [List.take_succ_cons, List.take_zero, List.headD_cons, List.drop_succ_cons, List.drop_zero,
      Records.encode_cons, Records.encode_nil, List.append_assoc, List.cons_append, List.nil_append]
    rw [bind_run hfirst, bind_run hsecond]
    rfl

/-! ## Truncated frames -/

/-- The two readers reject truncated frames on exactly these sequences. -/
theorem rejectsTruncated_iff (buff : UInt8) (cmdVars : CmdVars) (errVars : ErrVars) (bytes : Bytes) :
    (RejectsTruncated CompleteCmd (fun turns => readCmd turns buff cmdVars) bytes ↔ HasArgs bytes) ∧
    (RejectsTruncated CompleteErr (fun turns => readErr turns buff errVars) bytes ↔ CompleteErr bytes) :=
  ⟨readCmd_rejectsTruncated_iff buff cmdVars bytes, readErr_rejectsTruncated_iff buff errVars bytes⟩

/-- On an empty pipe `read_cmd` returns true with the command and the count of the last call, if
that was 0, and `read_err` returns true where the second message is missing. -/
theorem not_rejectsTruncated :
    ((∃ vars, (readCmd 0 0 ⟨1, cmdList, 0, []⟩ ⟨[], false⟩).result = .ok (true, vars)) ∧
      ¬∀ buff vars bytes, RejectsTruncated CompleteCmd (fun turns => readCmd turns buff vars) bytes) ∧
    (∃ vars, (readErr 3 0 ⟨0, [], []⟩ ⟨[1, 97, 0], false⟩).result = .ok (true, vars)) ∧
      ¬∀ buff vars bytes, RejectsTruncated CompleteErr (fun turns => readErr turns buff vars) bytes := by
  refine ⟨⟨⟨⟨1, cmdList, 0, []⟩, by decide +kernel⟩, fun h => ?_⟩,
    ⟨⟨1, [97], []⟩, by decide +kernel⟩, fun h => ?_⟩
  · obtain ⟨id, cmd, argc, rest, -, hnil, -⟩ :=
      (readCmd_rejectsTruncated_iff 0 ⟨1, cmdList, 0, []⟩ []).1 (h _ _ _)
    simp at hnil
  · obtain ⟨err, errMsg, succMsg, rest, -, -, hbytes⟩ :=
      (readErr_rejectsTruncated_iff 0 ⟨0, [], []⟩ [1, 97, 0]).1 (h _ _ _)
    have hcount := congrArg (List.count 0) (List.cons.inj hbytes).2
    simp at hcount
    omega

end Distft
