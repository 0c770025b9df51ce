import Distft.General.Simulation
import Distft.Client.Codecs
import Distft.Client.Pipe

/-!
# The commands of the daemon

`list_cmd`, `store_cmd` and `load_cmd` of the client (`src/client/cmd.cpp`) as the daemon runs them
one after the other, with the files of its disk, which `load_cmd` writes to. They are programs over
the `get` and `set` of a DHT: over two that run alike on the sets that the commands make, they run
alike (`Dht.Refines.performAll`).
-/

namespace Distft

open Exec

/-- The local files of the daemon. -/
structure Disk where
  /-- The files that open. -/
  file : Bytes → Option LocalFile
  /-- A `std::ofstream` on the path opens. -/
  writable : Bytes → Bool

/-- The data is written to a path that opens. -/
def Disk.write (disk : Disk) (path data : Bytes) : Disk :=
  { disk with file := Function.update disk.file path (some ⟨data, false⟩) }

/-- The report of the files of the index. -/
def listReport (files : List Bytes) : Bytes := text "INDEX\n" ++ files.flatMap fun file => file ++ [10]

namespace Platform

variable {ε σ : Type} (P : Platform) (s : Dht ε σ)

/-- `list_cmd`, after `clear_cmd`. -/
def listCmd : Exec ε Fault σ CmdResult := do
  match ← P.getIndexFiles s with
  | none => return ⟨false, text "Failed to access index file", []⟩
  | some files => return ⟨true, [], listReport files⟩

/-- `load_cmd`, after `clear_cmd`, and the disk that it leaves. -/
def loadCmd (disk : Disk) (inputFiles : List Bytes) (outputFile : Bytes) :
    Exec ε Fault σ (CmdResult × Disk) := do
  match ← P.readInFiles s inputFiles with
  | none => return (⟨false, text "Failed to read from files", []⟩, disk)
  | some data =>
    if disk.writable outputFile then
      return (⟨true, [], text "Successfully loaded all files into output file " ++ outputFile⟩,
        disk.write outputFile data)
    else return (⟨false, text "Failed to open output file " ++ outputFile, []⟩, disk)

/-- A turn of the loop of `run_founder_session_daemon`: what it answers, if it does, and its disk. -/
def perform (disk : Disk) : Dispatch → Exec ε Fault σ (Option CmdResult × Disk)
  | .skipped => return (none, disk)
  | .exit => return (none, disk)
  | .list => do
    let result ← P.listCmd s
    return (some result, disk)
  | .store args => do
    let result ← P.storeCmd s disk.file args
    return (some result, disk)
  | .load args outputFile => do
    let (result, disk) ← P.loadCmd s disk args outputFile
    return (some result, disk)

/-- Commands, one after the other: the answers, and the disk. -/
def performAll : Disk → List Dispatch → Exec ε Fault σ (List (Option CmdResult) × Disk)
  | disk, [] => return ([], disk)
  | disk, command :: commands => do
    let (answer, disk) ← P.perform s disk command
    let (answers, disk) ← performAll disk commands
    return (answer :: answers, disk)

/-- The daemon, after its sessions were started: `init_index_file`, and then commands, up to
`EXIT`. -/
def daemonRun (disk : Disk) (commands : List Dispatch) :
    Exec ε Fault σ (List (Option CmdResult) × Disk) := do
  let _ ← P.initIndexFile s
  P.performAll s disk (commands.takeWhile (· ≠ .exit))

end Platform

/-! ## Programs over a DHT -/

/-- A DHT runs as another one does, on related states, for all gets and the sets that are allowed. -/
structure Dht.Refines {ε ε' σ τ : Type} (D : ε → Prop) (R : σ → τ → Prop)
    (allowed : Key → Bytes → Bool → Prop) (s : Dht ε σ) (s' : Dht ε' τ) : Prop where
  /-- Gets. -/
  get : ∀ key, Simulates D R (s.get key) (s'.get key)
  /-- Sets. -/
  set : ∀ key data force, allowed key data force →
    Simulates D R (s.set key data force) (s'.set key data force)

namespace Dht.Refines

variable {ε ε' σ τ : Type} {D : ε → Prop} {R : σ → τ → Prop} {allowed : Key → Bytes → Bool → Prop}
variable {s : Dht ε σ} {s' : Dht ε' τ} {P : Platform}

theorem initIndexFile (h : Dht.Refines D R allowed s s')
    (hindex : ∀ data, allowed P.indexKey data true) :
    Simulates D R (P.initIndexFile s) (P.initIndexFile s') :=
  (h.set _ _ _ (hindex _)).bind fun _ => simulates_pure _

theorem addFilesToIndexFile (h : Dht.Refines D R allowed s s')
    (hindex : ∀ data, allowed P.indexKey data true) (files : List Bytes) :
    Simulates D R (P.addFilesToIndexFile s files) (P.addFilesToIndexFile s' files) := by
  refine (h.get _).bind fun found => ?_
  cases found with
  | none => exact simulates_pure _
  | some data => exact (h.set _ _ _ (hindex _)).bind fun _ => simulates_pure _

theorem getIndexFiles (h : Dht.Refines D R allowed s s') :
    Simulates D R (P.getIndexFiles s) (P.getIndexFiles s') := by
  refine (h.get _).bind fun found => ?_
  cases found with
  | none => exact simulates_pure _
  | some data =>
    refine simulates_ofExcept fun files _ => ?_
    cases files with
    | inl value => exact value.elim
    | inr files => exact simulates_pure _

theorem fileExists (h : Dht.Refines D R allowed s s') (name : Bytes) :
    Simulates D R (P.fileExists s name) (P.fileExists s' name) := by
  refine (h.get _).bind fun found => ?_
  cases found with
  | none => exact simulates_pure _
  | some data =>
    refine simulates_ofExcept fun found _ => ?_
    cases found with
    | inl value => exact simulates_pure _
    | inr value => exact simulates_pure _

/-- `write_from_file` runs alike, if its sets are allowed: the chunks of the file under their keys,
and anything under the key of the name. -/
theorem writeFromFile (h : Dht.Refines D R allowed s s') {file : Option LocalFile} {name : Bytes}
    (hchunks : ∀ f, file = some f → ∀ chunks, readChunks (f.bytes.length + 1) ⟨f, false⟩ = .ok chunks →
      ∀ data ∈ chunks, allowed (P.keyFromData data) data false)
    (hname : ∀ data, allowed (P.keyFromString name) data true) :
    Simulates D R (P.writeFromFile s file name) (P.writeFromFile s' file name) := by
  cases file with
  | none => exact simulates_pure _
  | some f =>
    refine simulates_ofExcept fun chunks hread => ?_
    have hset : ∀ data ∈ P.order chunks, allowed (P.keyFromData data) data false := fun data hmem =>
      hchunks f rfl chunks hread data ((P.order_perm chunks).mem_iff.1 hmem)
    refine (simulates_forM _ fun data hmem => h.set _ _ _ (hset data hmem)).bind fun _ => ?_
    exact (h.set _ _ _ (hname _)).bind fun _ => simulates_pure _

theorem readKeys (h : Dht.Refines D R allowed s s') (orderedKeys : List Key) (files : List Bytes) :
    Simulates D R (P.readKeys s orderedKeys files) (P.readKeys s' orderedKeys files) := by
  induction files generalizing orderedKeys with
  | nil => exact simulates_pure _
  | cons file files ih =>
    refine (h.get _).bind fun found => ?_
    cases found with
    | none => exact simulates_pure _
    | some metadata =>
      refine simulates_ofExcept fun keys _ => ?_
      cases keys with
      | inl value => exact value.elim
      | inr keys => exact ih keys

theorem getAll (h : Dht.Refines D R allowed s s') (keys : List Key) :
    Simulates D R (s.getAll keys) (s'.getAll keys) := by
  induction keys with
  | nil => exact simulates_pure _
  | cons key keys ih => exact (h.get _).bind fun _ => ih.bind fun _ => simulates_pure _

theorem readInFiles (h : Dht.Refines D R allowed s s') (files : List Bytes) :
    Simulates D R (P.readInFiles s files) (P.readInFiles s' files) := by
  refine (h.readKeys [] files).bind fun keys => ?_
  cases keys with
  | none => exact simulates_pure _
  | some keys => exact (h.getAll keys).bind fun _ => simulates_pure _

/-! ## Commands over a DHT -/

/-- The sets that storing the files may make are allowed. -/
structure AllowsFiles (P : Platform) (allowed : Key → Bytes → Bool → Prop)
    (file : Bytes → Option LocalFile) (paths : List Bytes) : Prop where
  /-- The chunks under their keys. -/
  chunks : ∀ path ∈ paths, ∀ f, file path = some f → ∀ chunks,
    readChunks (f.bytes.length + 1) ⟨f, false⟩ = .ok chunks → ∀ data ∈ chunks,
      allowed (P.keyFromData data) data false
  /-- Anything under the keys of the names. -/
  names : ∀ path ∈ paths, ∀ data, allowed (P.keyFromString (filename path)) data true

theorem storeFiles (h : Dht.Refines D R allowed s s') {file : Bytes → Option LocalFile}
    {paths : List Bytes} (hpaths : AllowsFiles P allowed file paths) (added : List Bytes)
    (cmdErr : Bytes) :
    Simulates D R (P.storeFiles s file paths added cmdErr)
      (P.storeFiles s' file paths added cmdErr) := by
  induction paths generalizing added cmdErr with
  | nil => exact simulates_pure _
  | cons path paths ih =>
    have hrest : AllowsFiles P allowed file paths :=
      ⟨fun path' hmem => hpaths.chunks path' (List.mem_cons_of_mem _ hmem),
        fun path' hmem => hpaths.names path' (List.mem_cons_of_mem _ hmem)⟩
    have hfound : Simulates D R (P.alreadyStored s added (filename path))
        (P.alreadyStored s' added (filename path)) := by
      unfold Platform.alreadyStored
      split
      · exact simulates_pure _
      · exact h.fileExists _
    unfold Platform.storeFiles
    refine hfound.bind fun found => ?_
    cases found with
    | true => exact ih hrest _ _
    | false =>
      refine (h.writeFromFile (hpaths.chunks path List.mem_cons_self)
        (hpaths.names path List.mem_cons_self)).bind fun written => ?_
      cases written with
      | true => exact ih hrest _ _
      | false => exact ih hrest _ _

/-- The sets that a command may make are allowed. -/
def Allows (P : Platform) (allowed : Key → Bytes → Bool → Prop) (disk : Disk) : Dispatch → Prop
  | .store args => AllowsFiles P allowed disk.file args
  | _ => True

theorem perform (h : Dht.Refines D R allowed s s') (hindex : ∀ data, allowed P.indexKey data true)
    {disk : Disk} {command : Dispatch} (hcommand : Allows P allowed disk command) :
    Simulates D R (P.perform s disk command) (P.perform s' disk command) := by
  cases command with
  | skipped => exact simulates_pure _
  | exit => exact simulates_pure _
  | list =>
    refine Simulates.bind ?_ fun _ => simulates_pure _
    refine h.getIndexFiles.bind fun files => ?_
    cases files <;> exact simulates_pure _
  | store args =>
    refine Simulates.bind ?_ fun _ => simulates_pure _
    refine (h.storeFiles hcommand [] []).bind fun r => ?_
    refine (h.addFilesToIndexFile hindex _).bind fun added => ?_
    cases added <;> exact simulates_pure _
  | load args outputFile =>
    refine Simulates.bind ?_ fun _ => simulates_pure _
    refine (h.readInFiles args).bind fun data => ?_
    cases data with
    | none => exact simulates_pure _
    | some data =>
      simp only []
      split
      · exact simulates_pure _
      · exact simulates_pure _

end Dht.Refines

end Distft
