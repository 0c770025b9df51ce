import Distft.General.Exec
import Distft.General.Records
import Distft.Utils

/-!
# Files in the DHT

The files of the client (`src/client/file.cpp`) and the command that stores them
(`src/client/cmd.cpp`). A file is cut into chunks of at most `max_chunk_size` bytes, each under the
key of its contents; the metadata chunk, under the key of the file's name, lists these keys; and the
index chunk, under the key of the string `index`, lists the names. All of them are in one map of the
DHT.

Of a session only `get` and `set` are used (`Dht`). The threads that set chunks run one after the
other in an order of the `Platform`, which also has the SHA-1 of OpenSSL. A thread can always be
started: the constructor of `std::thread`, which throws a `system_error` where it cannot, is taken to
return.
-/

namespace Distft

/-- What is used of a session: its `get` and `set`. -/
structure Dht (ε σ : Type) where
  /-- `get`: the value, `none` where it returns false. -/
  get : Key → Exec ε Fault σ (Option Bytes)
  /-- `set`, with its `force`. -/
  set : Key → Bytes → Bool → Exec ε Fault σ Unit

/-- A map in which `set` replaces the value of a key and `get` returns the last value that was set. -/
def Dht.map : Dht Empty (Key → Option Bytes) where
  get key := Exec.read fun values => values key
  set key data _ := Exec.act fun values => ((), Function.update values key (some data))

/-- What the client runs on. -/
structure Platform where
  /-- `SHA1` of OpenSSL. -/
  sha1 : Bytes → Vector UInt8 20
  /-- The order in which threads run that were started one after the other, each with some data. -/
  order : List Bytes → List Bytes
  /-- Each thread runs once. -/
  order_perm : ∀ l, (order l).Perm l

/-- The bytes of a string literal. -/
def text (s : String) : Bytes := s.toUTF8.data.toList

namespace Platform

variable (P : Platform)

/-- `key_from_data`: bit `j` of byte `i` of the digest is bit `8 * i + j` of the key. -/
def keyFromData (data : Bytes) : Key :=
  BitVec.ofNat keyBits ((P.sha1 data).toList.foldr (fun byte n => byte.toNat + 256 * n) 0)

/-- `key_from_string`. -/
def keyFromString (s : Bytes) : Key := P.keyFromData s

/-- `index_key`. -/
def indexKey : Key := P.keyFromString (text "index")

end Platform

/-! ## Loops over records -/

/-- The loop `for (int i = 0; i < data->size(); i++)` that collects the bytes up to each NUL in a
string and runs `onRecord` on it; that returns from the function with a value (`inl`), or goes on. -/
def recordLoop {β τ : Type} (onRecord : τ → Bytes → Except Fault (β ⊕ τ)) :
    ℕ → Bytes → τ → Bytes → Except Fault (β ⊕ τ)
  | _, _, acc, [] => .ok (.inr acc)
  | i, curr, acc, c :: rest =>
    if c = 0 then
      match onRecord acc curr with
      | .error e => .error e
      | .ok (.inl value) => .ok (.inl value)
      | .ok (.inr acc) =>
        -- `i++`, of an `int`.
        if i + 1 < 2^31 then recordLoop onRecord (i + 1) [] acc rest else .error .overflow
    else if i + 1 < 2^31 then recordLoop onRecord (i + 1) (curr ++ [c]) acc rest
    else .error .overflow

/-- The loop of `get_index_files`. -/
def indexFilesLoop : List Bytes → Bytes → Except Fault (Empty ⊕ List Bytes) :=
  recordLoop (fun filesBuffer currFile =>
    .ok (.inr (if 0 < currFile.length then filesBuffer ++ [currFile] else filesBuffer))) 0 []

/-- The loop of `file_exists`, which returns true at the file. -/
def fileExistsLoop (dhtFilename : Bytes) : Bytes → Except Fault (Unit ⊕ Unit) :=
  recordLoop (fun _ currFile => .ok (if currFile = dhtFilename then .inl () else .inr ())) 0 [] ()

/-- The loop of `read_in_files` over a metadata chunk. -/
def metadataLoop : List Key → Bytes → Except Fault (Empty ⊕ List Key) :=
  recordLoop (fun orderedKeys currKey =>
    if currKey.length ≠ keyBits then .ok (.inr orderedKeys)
    else match Key.ofBytes currKey with
      | none => .error .invalidArgument
      | some key => .ok (.inr (orderedKeys ++ [key]))) 0 []

/-! ## Streams -/

/-- `max_chunk_size`. -/
def maxChunkSize : ℕ := 1048576

/-- A local file: its bytes, and whether a read after them fails; where it does not, it finds the
end of the file. -/
structure LocalFile where
  /-- The bytes. -/
  bytes : Bytes
  /-- Reads after the bytes fail. -/
  readsFail : Bool

/-- A `std::ifstream` on a file: what is left of it, and `eof()`. -/
structure FileStream where
  /-- The rest. -/
  rest : LocalFile
  /-- `eof()`. -/
  eof : Bool

/-- `read(.., n)` and `gcount()`: at most `n` bytes, and `eof` is set where fewer are left, unless the
read fails, which only sets `bad`. -/
def FileStream.read (n : ℕ) (stream : FileStream) : Bytes × FileStream :=
  (stream.rest.bytes.take n,
    ⟨⟨stream.rest.bytes.drop n, stream.rest.readsFail⟩,
      stream.eof || (decide (stream.rest.bytes.length < n) && !stream.rest.readsFail)⟩)

/-- The loop `while (!file_stream.eof())` of `write_from_file`, given a number of turns: the data of
the chunks. -/
def readChunks : ℕ → FileStream → Except Fault (List Bytes)
  | turns, stream =>
    if stream.eof then .ok []
    else match turns with
      | 0 => .error .diverges
      | turns + 1 =>
        match readChunks turns (stream.read maxChunkSize).2 with
        | .error e => .error e
        | .ok chunks => .ok ((stream.read maxChunkSize).1 :: chunks)

/-! ## Files -/

namespace Platform

variable {ε σ : Type} (P : Platform) (s : Dht ε σ)

/-- `init_index_file`. -/
def initIndexFile : Exec ε Fault σ Bool := do
  s.set P.indexKey [] true
  return true

/-- `add_files_to_index_file`. -/
def addFilesToIndexFile (files : List Bytes) : Exec ε Fault σ Bool := do
  match ← s.get P.indexKey with
  | none => return false
  | some data =>
    s.set P.indexKey (data ++ Records.encode 0 files) true
    return true

/-- `get_index_files`, on an empty buffer: the files, `none` where it returns false. -/
def getIndexFiles : Exec ε Fault σ (Option (List Bytes)) := do
  match ← s.get P.indexKey with
  | none => return none
  | some data =>
    match ← Exec.ofExcept (indexFilesLoop [] data) with
    | .inr files => return some files

/-- `file_exists`. -/
def fileExists (dhtFilename : Bytes) : Exec ε Fault σ Bool := do
  match ← s.get P.indexKey with
  | none => return false
  | some data =>
    match ← Exec.ofExcept (fileExistsLoop dhtFilename data) with
    | .inl _ => return true
    | .inr _ => return false

/-- `write_from_file`, of a file that may not open. A turn of its loop that does not end it reads a
byte as long as there are any, so a loop with more turns than bytes does not end. -/
def writeFromFile (file : Option LocalFile) (dhtFilename : Bytes) : Exec ε Fault σ Bool := do
  match file with
  | none => return false
  | some file =>
    let chunks ← Exec.ofExcept (readChunks (file.bytes.length + 1) ⟨file, false⟩)
    forM (P.order chunks) fun data => s.set (P.keyFromData data) data false
    let metadata := Records.encode 0 (chunks.map fun data => (P.keyFromData data).toBytes)
    s.set (P.keyFromString dhtFilename) metadata true
    return true

/-- The first loop of `read_in_files`: the keys of the chunks of all files, `none` where a metadata
chunk is not found. -/
def readKeys : List Key → List Bytes → Exec ε Fault σ (Option (List Key))
  | orderedKeys, [] => return some orderedKeys
  | orderedKeys, file :: files => do
    match ← s.get (P.keyFromString file) with
    | none => return none
    | some metadata =>
      match ← Exec.ofExcept (metadataLoop orderedKeys metadata) with
      | .inr orderedKeys => readKeys orderedKeys files

end Platform

/-- The threads of `read_in_files`, each of which gets a chunk. -/
def Dht.getAll {ε σ : Type} (s : Dht ε σ) : List Key → Exec ε Fault σ (List (Option Bytes))
  | [] => return []
  | key :: keys => do
    let chunk ← s.get key
    let chunks ← getAll s keys
    return chunk :: chunks

namespace Platform

variable {ε σ : Type} (P : Platform) (s : Dht ε σ)

/-- `read_in_files`: the data, `none` where it returns false. -/
def readInFiles (files : List Bytes) : Exec ε Fault σ (Option Bytes) := do
  match ← P.readKeys s [] files with
  | none => return none
  | some orderedKeys =>
    let orderedChunks ← s.getAll orderedKeys
    return orderedChunks.foldl (fun data chunk => data.bind fun data => chunk.map (data ++ ·)) (some [])

end Platform

/-! ## Storing -/

/-- `std::filesystem::path::filename`: what follows the last slash. -/
def filename (path : Bytes) : Bytes := (path.reverse.takeWhile (· ≠ 47)).reverse

/-- What a command leaves: what it returns, `cmd_err`, and `cmd_out`. -/
structure CmdResult where
  /-- What the command returns. -/
  success : Bool
  /-- `cmd_err`. -/
  cmdErr : Bytes
  /-- `cmd_out`. -/
  cmdOut : Bytes
  deriving DecidableEq, Repr

/-- The report of stored files. -/
def storedReport (addedFiles : List Bytes) : Bytes :=
  text "Successfully stored the following files\n" ++ addedFiles.flatMap fun file => file ++ [10]

namespace Platform

variable {ε σ : Type} (P : Platform) (s : Dht ε σ)

/-- The test of `store_cmd`: the name was added by this call, or the index lists it. -/
def alreadyStored (addedFiles : List Bytes) (dhtFilename : Bytes) : Exec ε Fault σ Bool :=
  if dhtFilename ∈ addedFiles then return true else P.fileExists s dhtFilename

/-- The loop of `store_cmd` over the files: `added_files`, and `cmd_err`. -/
def storeFiles (disk : Bytes → Option LocalFile) :
    List Bytes → List Bytes → Bytes → Exec ε Fault σ (List Bytes × Bytes)
  | [], addedFiles, cmdErr => return (addedFiles, cmdErr)
  | file :: files, addedFiles, cmdErr => do
    let dhtFilename := filename file
    let found ← P.alreadyStored s addedFiles dhtFilename
    if found then
      storeFiles disk files addedFiles (cmdErr ++ text "File" ++ file ++
        text " already exists in the current session. Skipping.")
    else
      let written ← P.writeFromFile s (disk file) dhtFilename
      if written then storeFiles disk files (addedFiles ++ [dhtFilename]) cmdErr
      else storeFiles disk files addedFiles (cmdErr ++ text "File " ++ file ++
        text " does not exist or read failed. Skipping.")

/-- `store_cmd`, after `clear_cmd`. -/
def storeCmd (disk : Bytes → Option LocalFile) (files : List Bytes) : Exec ε Fault σ CmdResult := do
  let (addedFiles, cmdErr) ← P.storeFiles s disk files [] []
  let added ← P.addFilesToIndexFile s addedFiles
  if added then return ⟨true, cmdErr, storedReport addedFiles⟩
  else return ⟨false, cmdErr ++ text "Failed to write to index file.", []⟩

end Platform

end Distft
