import Distft.Client.File

/-!
# Streams that fail

`write_from_file` over every input stream. A read of a stream that is good gives a full chunk, or
the bytes that are left at the end of the file, or it fails; after that the stream is not good, and
further reads deliver nothing and leave `eof` as it is. The loop looks at `eof` alone: it ends if
the reads come to the end of the file, and never once a read has failed
(`streamChunks_of_reachesEnd`, `streamChunks_diverges`). A `LocalFile` is one such stream
(`writeFromFile_eq`).
-/

namespace Distft

/-! ## Streams -/

/-- What a `read` of `max_chunk_size` bytes from a stream that is good comes to. -/
inductive ReadOutcome where
  /-- All bytes. -/
  | full (data : { data : Bytes // data.length = maxChunkSize })
  /-- The bytes that are left at the end of the file: `eof` and `fail` are set. -/
  | ended (data : { data : Bytes // data.length < maxChunkSize })
  /-- The bytes before the read fails, which sets `bad` or `fail`. -/
  | failed (data : { data : Bytes // data.length < maxChunkSize })

namespace ReadOutcome

/-- What is in the buffer, of `gcount()` bytes. -/
def data : ReadOutcome → Bytes
  | full data => data.1
  | ended data => data.1
  | failed data => data.1

/-- All bytes that were asked for are there. -/
def IsFull : ReadOutcome → Prop
  | full _ => True
  | _ => False

/-- The end of the file was found. -/
def IsEnded : ReadOutcome → Prop
  | ended _ => True
  | _ => False

end ReadOutcome

/-- A file that opens: what its reads come to, one after the other. -/
abbrev InputFile : Type := ℕ → ReadOutcome

/-- Some read finds the end of the file, and all reads before it are full. -/
def InputFile.ReachesEnd (file : InputFile) : Prop :=
  ∃ n, (file n).IsEnded ∧ ∀ i < n, (file i).IsFull

/-- A `std::ifstream` on a file that opened. -/
structure InputStream where
  /-- The reads to come. -/
  reads : InputFile
  /-- `eof()`. -/
  eof : Bool
  /-- `fail()`, which is also true after an error of the file. -/
  fail : Bool

/-- The stream on a file that has just opened. -/
def InputFile.stream (file : InputFile) : InputStream := ⟨file, false, false⟩

/-- `read(.., max_chunk_size)`, and the `gcount()` bytes that it delivers. -/
def InputStream.read (stream : InputStream) : Bytes × InputStream :=
  -- A stream that is not good is not read from: `fail` is set, and `eof` stays.
  if stream.eof || stream.fail then ([], { stream with fail := true })
  else ((stream.reads 0).data,
    match stream.reads 0 with
    | .full _ => ⟨fun i => stream.reads (i + 1), false, false⟩
    | .ended _ => ⟨fun i => stream.reads (i + 1), true, true⟩
    | .failed _ => ⟨fun i => stream.reads (i + 1), false, true⟩)

/-- The loop `while (!file_stream.eof())` of `write_from_file`, given a number of turns: the data of
the chunks. -/
def streamChunks : ℕ → InputStream → Except Fault (List Bytes)
  | turns, stream =>
    if stream.eof then .ok []
    else match turns with
      | 0 => .error .diverges
      | turns + 1 =>
        -- What was read is a chunk, also where the read failed.
        match streamChunks turns stream.read.2 with
        | .error e => .error e
        | .ok chunks => .ok (stream.read.1 :: chunks)

namespace Platform

variable {ε σ : Type}

/-- `write_from_file`, of a file that may not open, given a number of turns of its loop. -/
def writeFromStream (P : Platform) (s : Dht ε σ) (turns : ℕ) (file : Option InputFile)
    (dhtFilename : Bytes) : Exec ε Fault σ Bool := do
  match file with
  | none => return false
  | some file =>
    let chunks ← Exec.ofExcept (streamChunks turns file.stream)
    forM (P.order chunks) fun data => s.set (P.keyFromData data) data false
    let metadata := Records.encode 0 (chunks.map fun data => (P.keyFromData data).toBytes)
    s.set (P.keyFromString dhtFilename) metadata true
    return true

end Platform

/-! ## The loop -/

variable {stream : InputStream}

/-- The loop is over at the end of the file. -/
theorem streamChunks_of_eof (turns : ℕ) (heof : stream.eof = true) :
    streamChunks turns stream = .ok [] := by
  unfold streamChunks
  rw [if_pos heof]

/-- Without turns it is not over before. -/
theorem streamChunks_zero (heof : stream.eof = false) :
    streamChunks 0 stream = .error .diverges := by
  unfold streamChunks
  simp [heof]

/-- A turn of the loop. -/
theorem streamChunks_succ (turns : ℕ) (heof : stream.eof = false) :
    streamChunks (turns + 1) stream =
      match streamChunks turns stream.read.2 with
      | .error e => .error e
      | .ok chunks => .ok (stream.read.1 :: chunks) := by
  rw [streamChunks]
  simp [heof]

/-- Once a read has failed, a read changes nothing. -/
theorem InputStream.read_of_fail (hfail : stream.fail = true) : stream.read = ([], stream) := by
  unfold InputStream.read
  rw [hfail, Bool.or_true, if_pos rfl]
  cases stream
  simp_all

/-- Once a read has failed before the end of the file, the loop does not end. -/
theorem streamChunks_diverges (turns : ℕ) (heof : stream.eof = false) (hfail : stream.fail = true) :
    streamChunks turns stream = .error .diverges := by
  induction turns with
  | zero => exact streamChunks_zero heof
  | succ turns ih =>
    rw [streamChunks_succ turns heof, InputStream.read_of_fail hfail, ih]

/-- If the reads come to the end of the file, the loop ends after the read that finds it. -/
theorem streamChunks_of_reachesEnd {file : InputFile} {n : ℕ} (hend : (file n).IsEnded)
    (hfull : ∀ i < n, (file i).IsFull) : ∃ chunks, streamChunks (n + 1) file.stream = .ok chunks := by
  induction n generalizing file with
  | zero =>
    cases hread : file 0 with
    | ended data =>
      refine ⟨[data.1], ?_⟩
      rw [streamChunks_succ 0 rfl]
      simp [InputFile.stream, InputStream.read, hread, streamChunks_of_eof, ReadOutcome.data]
    | full data | failed data => simp [hread, ReadOutcome.IsEnded] at hend
  | succ n ih =>
    have hfirst := hfull 0 (Nat.succ_pos n)
    cases hread : file 0 with
    | full data =>
      obtain ⟨chunks, hchunks⟩ := @ih (fun i => file (i + 1)) hend
        fun i hi => hfull (i + 1) (Nat.succ_lt_succ hi)
      refine ⟨data.1 :: chunks, ?_⟩
      have hnext : file.stream.read = (data.1, InputFile.stream fun i => file (i + 1)) := by
        simp [InputFile.stream, InputStream.read, hread, ReadOutcome.data]
      rw [streamChunks_succ (n + 1) rfl, hnext, hchunks]
    | ended data | failed data => simp [hread, ReadOutcome.IsFull] at hfirst

/-- If the loop ends, the reads come to the end of the file. -/
theorem reachesEnd_of_streamChunks {file : InputFile} {turns : ℕ} {chunks : List Bytes}
    (h : streamChunks turns file.stream = .ok chunks) : file.ReachesEnd := by
  induction turns generalizing file chunks with
  | zero =>
    rw [streamChunks_zero rfl] at h
    exact nomatch h
  | succ turns ih =>
    rw [streamChunks_succ turns rfl] at h
    cases hread : file 0 with
    | full data =>
      have hnext : file.stream.read.2 = InputFile.stream fun i => file (i + 1) := by
        simp [InputFile.stream, InputStream.read, hread]
      rw [hnext] at h
      cases hrest : streamChunks turns (InputFile.stream fun i => file (i + 1)) with
      | error e => simp [hrest] at h
      | ok rest =>
        obtain ⟨n, hend, hfull⟩ := ih hrest
        refine ⟨n + 1, hend, fun i hi => ?_⟩
        cases i with
        | zero => simp [hread, ReadOutcome.IsFull]
        | succ i => exact hfull i (Nat.lt_of_succ_lt_succ hi)
    | ended data =>
      exact ⟨0, by simp [hread, ReadOutcome.IsEnded], fun i hi => absurd hi (Nat.not_lt_zero i)⟩
    | failed data =>
      -- The flag that is set is not the one that the loop tests.
      have hstuck : streamChunks turns file.stream.read.2 = .error .diverges := by
        apply streamChunks_diverges <;> simp [InputFile.stream, InputStream.read, hread]
      rw [hstuck] at h
      exact nomatch h

/-! ## Local files -/

namespace LocalFile

/-- What a read of a local file comes to. -/
def outcome (file : LocalFile) : ReadOutcome :=
  if h : file.bytes.length < maxChunkSize then
    if file.readsFail then .failed ⟨file.bytes, h⟩ else .ended ⟨file.bytes, h⟩
  else .full ⟨file.bytes.take maxChunkSize, by
    rw [List.length_take, Nat.min_eq_left (Nat.le_of_not_lt h)]⟩

/-- The file without the bytes of the first reads. -/
def drop (n : ℕ) (file : LocalFile) : LocalFile := { file with bytes := file.bytes.drop n }

/-- The reads of a local file. -/
def reads (file : LocalFile) : InputFile := fun i => (file.drop (maxChunkSize * i)).outcome

theorem reads_succ (file : LocalFile) :
    (fun i => file.reads (i + 1)) = (file.drop maxChunkSize).reads := by
  funext i
  simp only [reads, drop, List.drop_drop, Nat.mul_succ, Nat.add_comm]

theorem reads_zero (file : LocalFile) : file.reads 0 = file.outcome := by
  simp only [reads, drop, Nat.mul_zero, List.drop_zero]

/-- A file whose reads fail and which has no more bytes does not come to its end. -/
theorem readChunks_of_readsFail (turns : ℕ) :
    readChunks turns ⟨⟨[], true⟩, false⟩ = .error .diverges := by
  induction turns with
  | zero => simp [readChunks]
  | succ turns ih => simp [readChunks, FileStream.read, ih]

/-- The loop over a local file is the loop over the stream of its reads. -/
theorem readChunks_eq_streamChunks (turns : ℕ) (file : LocalFile) :
    readChunks turns ⟨file, false⟩ = streamChunks turns file.reads.stream := by
  induction turns generalizing file with
  | zero =>
    rw [streamChunks_zero rfl]
    simp [readChunks]
  | succ turns ih =>
    have hread : (⟨file, false⟩ : FileStream).read maxChunkSize =
        (file.bytes.take maxChunkSize, ⟨file.drop maxChunkSize,
          decide (file.bytes.length < maxChunkSize) && !file.readsFail⟩) := by
      simp [FileStream.read, drop]
    have hfirst : file.reads.stream.reads 0 = file.outcome := file.reads_zero
    have hrest : (fun i => file.reads.stream.reads (i + 1)) = (file.drop maxChunkSize).reads :=
      file.reads_succ
    rw [streamChunks_succ turns rfl]
    unfold readChunks InputStream.read
    simp only [Bool.false_eq_true, if_false, hread, InputFile.stream, Bool.or_self] at hfirst hrest ⊢
    rw [hfirst, hrest]
    -- A read that is short is the last one, or fails; otherwise the rest is a file of its own.
    by_cases hshort : file.bytes.length < maxChunkSize
    · have htake := List.take_of_length_le hshort.le
      have hnil : file.drop maxChunkSize = ⟨[], file.readsFail⟩ := by
        rw [drop, List.drop_of_length_le hshort.le]
      cases hfail : file.readsFail with
      | true =>
        simp only [outcome, dif_pos hshort, hfail, if_true, hnil, decide_eq_true hshort, Bool.not_true,
          Bool.and_false]
        rw [readChunks_of_readsFail, streamChunks_diverges turns rfl rfl]
      | false =>
        simp only [outcome, dif_pos hshort, hfail, Bool.false_eq_true, if_false, ReadOutcome.data, htake,
          decide_eq_true hshort, Bool.not_false, Bool.and_true]
        rw [streamChunks_of_eof turns rfl]
        cases turns <;> simp [readChunks]
    · simp only [outcome, dif_neg hshort, ReadOutcome.data, decide_eq_false hshort, Bool.false_and]
      rw [ih]
      rfl

end LocalFile

namespace Platform

variable {ε σ : Type} (P : Platform) (s : Dht ε σ) (w : σ)

/-- `write_from_file` of a local file is that of the stream of its reads. -/
theorem writeFromFile_eq (file : LocalFile) (dhtFilename : Bytes) :
    P.writeFromFile s (some file) dhtFilename =
      P.writeFromStream s (file.bytes.length + 1) (some file.reads) dhtFilename := by
  unfold writeFromFile writeFromStream
  simp only [LocalFile.readChunks_eq_streamChunks]

/-! ## Chunking -/

/-- The loop ends on every file that opens, and the function returns false of a file that was not
read to its end. -/
structure Chunks (file : Option InputFile) (dhtFilename : Bytes) : Prop where
  /-- Finitely many turns are enough. -/
  ends : ∀ input, file = some input → ∃ turns chunks, streamChunks turns input.stream = .ok chunks
  /-- The function returns false. -/
  reports : (∀ input, file = some input → ¬input.ReachesEnd) →
    ∃ turns, (P.writeFromStream s turns file dhtFilename w).result = .ok false

/-- Chunking works exactly on the files that do not open, and on those whose reads come to their
end. -/
theorem chunks_iff (file : Option InputFile) (dhtFilename : Bytes) :
    P.Chunks s w file dhtFilename ↔ ∀ input, file = some input → input.ReachesEnd := by
  constructor
  · intro h input hfile
    obtain ⟨turns, chunks, hchunks⟩ := h.ends input hfile
    exact reachesEnd_of_streamChunks hchunks
  · intro hreaches
    constructor
    · intro input hfile
      obtain ⟨n, hend, hfull⟩ := hreaches input hfile
      exact ⟨n + 1, streamChunks_of_reachesEnd hend hfull⟩
    · intro hunread
      cases file with
      | none => exact ⟨0, rfl⟩
      | some input => exact absurd (hreaches input rfl) (hunread input rfl)

/-- A directory: it opens, and its reads fail. -/
def directory : InputFile := fun _ => .failed ⟨[], by decide⟩

/-- On a directory the loop does not end. -/
theorem not_chunks :
    ¬∀ (P : Platform) (file : Option InputFile) (dhtFilename : Bytes),
      P.Chunks Dht.map (fun _ => none) file dhtFilename := by
  intro h
  let P : Platform := ⟨fun _ => Vector.replicate 20 0, id, fun _ => .rfl⟩
  obtain ⟨n, hend, -⟩ := (P.chunks_iff Dht.map (fun _ => none) (some directory) []).1 (h P _ []) _ rfl
  exact hend

end Platform

end Distft
