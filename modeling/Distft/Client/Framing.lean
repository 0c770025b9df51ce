import Distft.Client.Pipe

/-!
# What the daemon reads of a command

`read_cmd` returns true only with as many arguments as the count byte says, none of them empty
(`readCmd_yields`). So a frame is read back as it was sent exactly when the count fits in the byte and
no argument is empty (`roundTrip_iff`), whatever comes after it on the pipe. An empty argument makes
`read_cmd` wait for another one, and 256 arguments make it read none.
-/

namespace Distft

open Exec

/-! ## The bytes that are sent -/

/-- A write to a pipe that takes all of it. -/
theorem writeOrLog_run (data bytes : Bytes) :
    writeOrLog data ⟨bytes, none⟩ = ⟨[], ⟨bytes ++ data, none⟩, .ok ⟨⟩⟩ := by
  have hwrite : (Exec.act (WriteEnd.write data) : Writing ℤ) ⟨bytes, none⟩ =
      ⟨[], ⟨bytes ++ data, none⟩, .ok (data.length : ℤ)⟩ := rfl
  unfold writeOrLog
  rw [bind_of_ok (congrArg Run.result hwrite), hwrite]
  have hlen : ¬(data.length : ℤ) < 0 := by omega
  simp only [if_neg hlen, List.nil_append]
  rfl

/-- The writes of the arguments. -/
theorem writeArgs_run (args : List Bytes) (bytes : Bytes) :
    (forM args fun arg => writeOrLog (arg ++ [0]) : Writing Unit) ⟨bytes, none⟩ =
      ⟨[], ⟨bytes ++ Records.encode 0 args, none⟩, .ok ⟨⟩⟩ := by
  induction args generalizing bytes with
  | nil => simp [pure]
  | cons arg args ih =>
    rw [List.forM_cons, bind_of_ok (congrArg Run.result (writeOrLog_run _ _)), writeOrLog_run, ih]
    simp

/-- The frame of a command. -/
theorem sentBytes_eq (clientId : Int32) (cmd : UInt8) (argv : List ArgString) :
    sentBytes clientId cmd argv = pidBytes clientId ++ cmd :: UInt8.ofNat argv.length ::
      Records.encode 0 (argv.map Subtype.val) := by
  have hwrite : (Exec.act (WriteEnd.write (pidBytes clientId)) : Writing ℤ) ⟨[], none⟩ =
      ⟨[], ⟨pidBytes clientId, none⟩, .ok 4⟩ := rfl
  unfold sentBytes mainArgs writeCmd
  rw [bind_of_ok (congrArg Run.result hwrite), hwrite]
  simp only [show ¬(4 : ℤ) = 0 by decide, if_false]
  rw [bind_of_ok (congrArg Run.result (writeOrLog_run _ _)), writeOrLog_run,
    bind_of_ok (congrArg Run.result (writeOrLog_run _ _)), writeOrLog_run,
    bind_of_ok (congrArg Run.result (writeArgs_run _ _)), writeArgs_run]
  simp [pure]

/-! ## What is read when `read_cmd` returns true -/

/-- The loop ends with the number of arguments that it was given, and adds no empty ones. -/
theorem readArgs_yields (argsCount turns : ℕ) (buff : UInt8) (currArg : Bytes) (vars : CmdVars)
    (hcount : vars.args.length ≤ argsCount) (hne : ∀ arg ∈ vars.args, arg ≠ []) :
    Yields (fun _ => True) (readArgs argsCount turns buff currArg vars)
      (fun _ r => r.1 = true → r.2.args.length = argsCount ∧ (∀ arg ∈ r.2.args, arg ≠ []) ∧
        r.2.argc = vars.argc) fun _ => True := by
  induction turns generalizing buff currArg vars with
  | zero =>
    unfold readArgs
    split
    · next hdone => exact yields_pure fun _ => ⟨le_antisymm hcount hdone, hne, rfl⟩
    · exact yields_fault trivial
  | succ turns ih =>
    unfold readArgs
    split
    · next hdone => exact yields_pure fun _ => ⟨le_antisymm hcount hdone, hne, rfl⟩
    · next hmore =>
      have hread : Yields (fun _ => True) (Exec.act (ReadEnd.read 1) : Reading _)
          (fun _ _ => True) fun _ => True := yields_act (fun _ _ => trivial) fun _ _ => trivial
      refine hread.bind fun _ read _ => ?_
      cases read with
      | none => exact yields_pure fun h => nomatch h
      | some bytes =>
        simp only []
        split
        · split
          · next harg =>
            refine ih _ _ { vars with args := vars.args ++ [currArg] } ?_ ?_
            · rw [List.length_append, List.length_singleton]
              omega
            · intro arg hmem
              rcases List.mem_append.1 hmem with hmem | hmem
              · exact hne arg hmem
              · rw [List.mem_singleton.1 hmem]
                exact List.length_pos_iff.1 harg
          · exact ih _ _ vars hcount hne
        · exact ih _ _ vars hcount hne

/-- A read, whatever it comes to. -/
theorem yields_readEnd (n : ℕ) : Yields (fun _ => True) (Exec.act (ReadEnd.read n) : Reading _)
    (fun _ _ => True) fun _ => True :=
  yields_act (fun _ _ => trivial) fun _ _ => trivial

/-- Where `read_cmd` returns true, it has read as many arguments as the count says, none of them
empty. -/
theorem readCmd_yields (turns : ℕ) (buff : UInt8) (vars : CmdVars) :
    Yields (fun _ => True) (readCmd turns buff vars)
      (fun _ r => r.1 = true → r.2.args.length = r.2.argc.toNat ∧ ∀ arg ∈ r.2.args, arg ≠ [])
      fun _ => True := by
  unfold readCmd
  refine (yields_readEnd 4).bind fun _ idBytes _ => ?_
  cases idBytes with
  | none => exact yields_pure fun h => nomatch h
  | some idBytes =>
    refine (yields_readEnd 1).bind fun _ cmdBytes _ => ?_
    cases cmdBytes with
    | none => exact yields_pure fun h => nomatch h
    | some cmdBytes =>
      refine (yields_readEnd 1).bind fun _ argcBytes _ => ?_
      cases argcBytes with
      | none => exact yields_pure fun h => nomatch h
      | some argcBytes =>
        refine (readArgs_yields _ turns buff [] _ (Nat.zero_le _) (by simp)).mono ?_
        intro _ r hr htrue
        obtain ⟨hlen, hne, hargc⟩ := hr htrue
        exact ⟨by rw [hlen, hargc], hne⟩

/-! ## What is read of a frame -/

variable {Q : ReadEnd → Bool × CmdVars → Prop} {D : Empty → Prop}

/-- A turn of the loop takes a byte. -/
theorem succeeds_readArgs_cons {argsCount turns : ℕ} {buff c : UInt8} {currArg rest : Bytes}
    {fails : Bool} {vars : CmdVars} (hmore : vars.args.length < argsCount)
    (h : Succeeds D (if c = 0 then
        readArgs argsCount turns c []
          (if 0 < currArg.length then { vars with args := vars.args ++ [currArg] } else vars)
      else readArgs argsCount turns c (currArg ++ [c]) vars) ⟨rest, fails⟩ Q) :
    Succeeds D (readArgs argsCount (turns + 1) buff currArg vars) ⟨c :: rest, fails⟩ Q := by
  have hread : ReadEnd.read 1 ⟨c :: rest, fails⟩ = (some [c], ⟨rest, fails⟩) := by
    simp [ReadEnd.read]
  unfold readArgs
  rw [if_neg (by omega)]
  refine Succeeds.bind (succeeds_act ?_)
  rw [hread]
  exact h

/-- An argument that is not empty is read up to its NUL. -/
theorem succeeds_readArgs_arg {argsCount turns : ℕ} {buff : UInt8} {currArg arg rest : Bytes}
    {fails : Bool} {vars : CmdVars} (hmore : vars.args.length < argsCount) (harg : (0 : UInt8) ∉ arg)
    (hne : currArg ++ arg ≠ [])
    (h : Succeeds D (readArgs argsCount turns 0 [] { vars with args := vars.args ++ [currArg ++ arg] })
      ⟨rest, fails⟩ Q) :
    Succeeds D (readArgs argsCount (turns + arg.length + 1) buff currArg vars)
      ⟨arg ++ 0 :: rest, fails⟩ Q := by
  induction arg generalizing buff currArg with
  | nil =>
    rw [List.append_nil] at hne h
    refine succeeds_readArgs_cons hmore ?_
    rw [if_pos rfl, if_pos (List.length_pos_iff.2 hne)]
    exact h
  | cons c arg ih =>
    have hc : c ≠ 0 := fun hzero => harg (hzero ▸ List.mem_cons_self)
    refine succeeds_readArgs_cons hmore ?_
    rw [if_neg hc]
    refine ih (fun hmem => harg (List.mem_cons_of_mem _ hmem)) (by simp) ?_
    rwa [List.append_assoc, List.singleton_append]

/-- Arguments that are not empty are read back, if they are as many as the loop is to read. -/
theorem succeeds_readArgs {argsCount turns : ℕ} {buff : UInt8} {args : List Bytes} {rest : Bytes}
    {fails : Bool} {vars : CmdVars} (hcount : vars.args.length + args.length = argsCount)
    (hargs : ∀ arg ∈ args, (0 : UInt8) ∉ arg ∧ arg ≠ [])
    (hturns : turns = (Records.encode 0 args).length) :
    Succeeds D (readArgs argsCount turns buff [] vars) ⟨Records.encode 0 args ++ rest, fails⟩
      fun pipe r => pipe = ⟨rest, fails⟩ ∧ r = (true, { vars with args := vars.args ++ args }) := by
  induction args generalizing turns buff vars with
  | nil =>
    unfold readArgs
    rw [List.length_nil, Nat.add_zero] at hcount
    rw [if_pos hcount.ge]
    exact succeeds_pure ⟨rfl, by rw [List.append_nil]⟩
  | cons arg args ih =>
    obtain ⟨hfree, hne⟩ := hargs arg List.mem_cons_self
    have hturns' : turns = (Records.encode 0 args).length + arg.length + 1 := by
      rw [hturns, Records.encode_cons, List.length_append, List.length_cons]
      omega
    rw [List.length_cons] at hcount
    rw [hturns', Records.encode_cons, List.append_assoc, List.cons_append]
    refine succeeds_readArgs_arg (by omega) hfree hne ?_
    have hrest := @ih (Records.encode 0 args).length 0 { vars with args := vars.args ++ [arg] }
      (by rw [List.length_append, List.length_singleton]; omega)
      (fun arg' hmem => hargs arg' (List.mem_cons_of_mem _ hmem)) rfl
    rwa [List.append_assoc, List.singleton_append] at hrest

/-- A frame is read back, with nothing of what follows it, if its arguments are not empty and no more
than its count byte can say, in as many turns as they have bytes. -/
theorem succeeds_readCmd_turns (clientId : Int32) (cmd : UInt8) (argv : List ArgString)
    (hlen : argv.length < 256) (hne : ∀ arg ∈ argv, arg.1 ≠ []) (buff : UInt8) (vars : CmdVars)
    (rest : Bytes) (fails : Bool) :
    Succeeds D (readCmd (Records.encode 0 (argv.map Subtype.val)).length buff vars)
      ⟨sentBytes clientId cmd argv ++ rest, fails⟩ fun pipe r => pipe = ⟨rest, fails⟩ ∧
        r = (true, ⟨clientId, cmd, UInt8.ofNat argv.length, argv.map Subtype.val⟩) := by
  have hread4 : ∀ bytes, ReadEnd.read 4 ⟨pidBytes clientId ++ bytes, fails⟩ =
      (some (pidBytes clientId), ⟨bytes, fails⟩) := fun bytes => rfl
  have hread1 : ∀ c bytes, ReadEnd.read 1 ⟨c :: bytes, fails⟩ = (some [c], ⟨bytes, fails⟩) := by
    simp [ReadEnd.read]
  have hid : pidOfBytes (pidBytes clientId ++ (pidBytes vars.clientId).drop 4) = clientId :=
    pidOfBytes_pidBytes clientId
  have hargs : ∀ arg ∈ argv.map Subtype.val, (0 : UInt8) ∉ arg ∧ arg ≠ [] := by
    intro _ hmem
    obtain ⟨arg, harg, rfl⟩ := List.mem_map.1 hmem
    exact ⟨arg.2, hne arg harg⟩
  rw [sentBytes_eq, List.append_assoc, List.cons_append, List.cons_append]
  refine Succeeds.bind (succeeds_act ?_)
  rw [hread4]
  refine Succeeds.bind (succeeds_act ?_)
  rw [hread1]
  refine Succeeds.bind (succeeds_act ?_)
  rw [hread1]
  show Succeeds D (readArgs _ _ _ [] ⟨pidOfBytes _, cmd, UInt8.ofNat argv.length, []⟩) _ _
  rw [show (pidBytes clientId).length = 4 from rfl, hid]
  refine succeeds_readArgs ?_ hargs rfl
  show 0 + (argv.map Subtype.val).length = (UInt8.ofNat argv.length).toNat
  rw [UInt8.toNat_ofNat', Nat.mod_eq_of_lt hlen, List.length_map, Nat.zero_add]

/-- Some number of turns is enough. -/
theorem succeeds_readCmd (clientId : Int32) (cmd : UInt8) (argv : List ArgString)
    (hlen : argv.length < 256) (hne : ∀ arg ∈ argv, arg.1 ≠ []) (buff : UInt8) (vars : CmdVars)
    (rest : Bytes) (fails : Bool) :
    ∃ turns, Succeeds D (readCmd turns buff vars) ⟨sentBytes clientId cmd argv ++ rest, fails⟩
      fun pipe r => pipe = ⟨rest, fails⟩ ∧
        r = (true, ⟨clientId, cmd, UInt8.ofNat argv.length, argv.map Subtype.val⟩) :=
  ⟨_, succeeds_readCmd_turns clientId cmd argv hlen hne buff vars rest fails⟩

/-! ## The round trip -/

/-- A command with the given arguments is read from the pipe as it was sent, and a `LOAD` with two
arguments or more is dispatched with what was sent, which is not empty. -/
def RoundTrip (clientId : Int32) (cmd : UInt8) (argv : List ArgString) (buff : UInt8) (vars : CmdVars)
    (pipe : ReadEnd) : Prop :=
  (∃ turns, (readCmd turns buff vars pipe).result =
    .ok (true, ⟨clientId, cmd, (mainArgs argv).1, argv.map Subtype.val⟩)) ∧
  (cmd = cmdLoad → 2 ≤ argv.length → ∃ turns files outputFile,
    (readDispatch turns buff vars pipe).result = .ok (.load files outputFile) ∧
      files ++ [outputFile] = argv.map Subtype.val)

/-- Of a frame and whatever follows it, the command is read as it was sent if and only if it has fewer
than 256 arguments and none of them is empty. -/
theorem roundTrip_iff (clientId : Int32) (cmd : UInt8) (argv : List ArgString) (buff : UInt8)
    (vars : CmdVars) (rest : Bytes) (fails : Bool) :
    RoundTrip clientId cmd argv buff vars ⟨sentBytes clientId cmd argv ++ rest, fails⟩ ↔
      argv.length < 256 ∧ ∀ arg ∈ argv, arg.1 ≠ [] := by
  constructor
  · rintro ⟨⟨turns, hresult⟩, -⟩
    obtain ⟨hlen, hne⟩ := (readCmd_yields turns buff vars).returns _ _ trivial hresult rfl
    constructor
    · have hargc : argv.length = (mainArgs argv).1.toNat := (List.length_map _).symm.trans hlen
      have hlt := (mainArgs argv).1.toNat_lt
      omega
    · exact fun arg hmem => hne arg.1 (List.mem_map_of_mem hmem)
  · rintro ⟨hlen, hne⟩
    obtain ⟨turns, hread⟩ := @succeeds_readCmd (fun _ => True) clientId cmd argv hlen hne buff vars rest
      fails
    obtain ⟨r, hresult, -, rfl⟩ := hread fun _ _ => trivial
    refine ⟨⟨turns, hresult⟩, ?_⟩
    rintro rfl htwo
    have hnil : argv.map Subtype.val ≠ [] := by
      rw [Ne, List.map_eq_nil_iff, ← List.length_eq_zero_iff]
      omega
    refine ⟨turns, _, _, ?_, List.dropLast_concat_getLast hnil⟩
    have hlast := List.getLast?_eq_some_getLast hnil
    unfold readDispatch
    rw [bind_of_ok hresult]
    simp only [Bool.not_true, Bool.false_eq_true, if_false, hlast, show cmdLoad ≠ cmdExit by decide,
      show cmdLoad ≠ cmdList by decide, show cmdLoad ≠ cmdStore by decide, if_true]
    rfl

/-- A `LOAD` with 256 arguments is read as one with none, and dispatched with an access to the last of
no arguments. -/
theorem not_roundTrip :
    let argv : List ArgString := List.replicate 256 ⟨[97], by decide⟩
    let pipe : ReadEnd := ⟨sentBytes 1 cmdLoad argv, false⟩
    (readCmd 0 0 ⟨0, 0, 0, []⟩ pipe).result = .ok (true, ⟨1, cmdLoad, 0, []⟩) ∧
      (readDispatch 0 0 ⟨0, 0, 0, []⟩ pipe).result = .error .outOfBounds ∧
      ¬RoundTrip 1 cmdLoad argv 0 ⟨0, 0, 0, []⟩ pipe := by
  refine ⟨by decide +kernel, by decide +kernel, ?_⟩
  rintro ⟨⟨turns, hresult⟩, -⟩
  obtain ⟨hlen, -⟩ := (readCmd_yields turns 0 ⟨0, 0, 0, []⟩).returns _ _ trivial hresult rfl
  exact absurd hlen (by decide +kernel)

end Distft
