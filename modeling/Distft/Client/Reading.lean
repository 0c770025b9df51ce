import Distft.Client.Codecs

/-!
# Reading files

What `read_in_files` comes to where the DHT is a map, whatever is in it. It gets the metadata chunks
of the files up to the first file that has none (`metadataChunks`). If one of these is not readable,
it does not return (`readInFiles_of_not_readable`). If all files have one, and all keys in them have
chunks, it returns these (`readInFiles_of_found`), and else it returns false
(`readInFiles_of_missing_metadata`, `readInFiles_of_missing_chunk`).
-/

namespace Distft

namespace Platform

variable {P : Platform} {values : Key → Option Bytes}

/-! ## The metadata chunks of files -/

/-- The metadata chunks of files, up to the first file that has none. -/
def metadataChunks (P : Platform) (values : Key → Option Bytes) : List Bytes → List Bytes
  | [] => []
  | file :: files =>
    match values (P.keyFromString file) with
    | none => []
    | some metadata => metadata :: metadataChunks P values files

theorem metadataChunks_cons_none {file : Bytes} {files : List Bytes}
    (h : values (P.keyFromString file) = none) : P.metadataChunks values (file :: files) = [] := by
  rw [metadataChunks, h]

theorem metadataChunks_cons_some {file metadata : Bytes} {files : List Bytes}
    (h : values (P.keyFromString file) = some metadata) :
    P.metadataChunks values (file :: files) = metadata :: P.metadataChunks values files := by
  rw [metadataChunks, h]

/-- If all files have metadata chunks, these are the ones. -/
theorem metadataChunks_eq {files metadata : List Bytes}
    (h : files.map (fun file => values (P.keyFromString file)) = metadata.map some) :
    P.metadataChunks values files = metadata := by
  induction files generalizing metadata with
  | nil => simpa [metadataChunks] using h
  | cons file files ih =>
    cases metadata with
    | nil => simp at h
    | cons first rest =>
      rw [List.map_cons, List.map_cons, List.cons.injEq] at h
      rw [metadataChunks_cons_some h.1, ih h.2]

/-- All files have metadata chunks, or one has none. -/
theorem map_metadataChunks {files : List Bytes}
    (h : ∀ file ∈ files, values (P.keyFromString file) ≠ none) :
    files.map (fun file => values (P.keyFromString file)) =
      (P.metadataChunks values files).map some := by
  induction files with
  | nil => rfl
  | cons file files ih =>
    obtain ⟨hfile, hrest⟩ := List.forall_mem_cons.1 h
    obtain ⟨metadata, hmetadata⟩ := Option.ne_none_iff_exists'.1 hfile
    rw [List.map_cons, metadataChunks_cons_some hmetadata, List.map_cons, hmetadata, ih hrest]

/-! ## The loop over the files -/

/-- A file without a metadata chunk. -/
theorem readKeys_cons_none {file : Bytes} {files : List Bytes} {orderedKeys : List Key}
    (h : values (P.keyFromString file) = none) :
    P.readKeys Dht.map orderedKeys (file :: files) values = ⟨[], values, .ok none⟩ := by
  rw [readKeys, Exec.bind_run (get_map_run h)]
  rfl

/-- A file with a metadata chunk that is readable. -/
theorem readKeys_cons_some {file metadata : Bytes} {files : List Bytes} {orderedKeys : List Key}
    (h : values (P.keyFromString file) = some metadata) (hreadable : Readable metadata) :
    P.readKeys Dht.map orderedKeys (file :: files) values =
      P.readKeys Dht.map (orderedKeys ++ metadataKeys metadata) files values := by
  rw [readKeys, Exec.bind_run (get_map_run h)]
  simp only [metadataLoop_of_readable orderedKeys hreadable]
  rfl

/-- A file with a metadata chunk that is not. -/
theorem readKeys_cons_of_not_readable {file metadata : Bytes} {files : List Bytes}
    {orderedKeys : List Key} (h : values (P.keyFromString file) = some metadata)
    (hreadable : ¬Readable metadata) :
    ∃ e, P.readKeys Dht.map orderedKeys (file :: files) values = ⟨[], values, .error e⟩ := by
  obtain ⟨e, he⟩ := metadataLoop_of_not_readable orderedKeys hreadable
  refine ⟨e, ?_⟩
  rw [readKeys, Exec.bind_run (get_map_run h)]
  simp only [he]
  rfl

/-- If all files have readable metadata chunks, the keys in them are found. -/
theorem readKeys_of_found {files metadata : List Bytes} {orderedKeys : List Key}
    (hfound : files.map (fun file => values (P.keyFromString file)) = metadata.map some)
    (hreadable : ∀ chunk ∈ metadata, Readable chunk) :
    P.readKeys Dht.map orderedKeys files values =
      ⟨[], values, .ok (some (orderedKeys ++ metadata.flatMap metadataKeys))⟩ := by
  induction files generalizing orderedKeys metadata with
  | nil =>
    obtain rfl : metadata = [] := by simpa using hfound
    rw [List.flatMap_nil, List.append_nil]
    rfl
  | cons file files ih =>
    cases metadata with
    | nil => simp at hfound
    | cons first rest =>
      rw [List.map_cons, List.map_cons, List.cons.injEq] at hfound
      obtain ⟨hfirst, hrest⟩ := List.forall_mem_cons.1 hreadable
      rw [readKeys_cons_some hfound.1 hfirst, ih hfound.2 hrest, List.append_assoc, List.flatMap_cons]

/-- If a file has no metadata chunk, and those before the first such file are readable, false is
returned. -/
theorem readKeys_of_missing {files : List Bytes} {orderedKeys : List Key}
    (hmissing : ∃ file ∈ files, values (P.keyFromString file) = none)
    (hreadable : ∀ chunk ∈ P.metadataChunks values files, Readable chunk) :
    P.readKeys Dht.map orderedKeys files values = ⟨[], values, .ok none⟩ := by
  induction files generalizing orderedKeys with
  | nil => simp at hmissing
  | cons file files ih =>
    cases hfile : values (P.keyFromString file) with
    | none => exact readKeys_cons_none hfile
    | some metadata =>
      rw [metadataChunks_cons_some hfile] at hreadable
      obtain ⟨hfirst, hrest⟩ := List.forall_mem_cons.1 hreadable
      rw [readKeys_cons_some hfile hfirst]
      exact ih (by simpa [hfile] using hmissing) hrest

/-- If a metadata chunk before the first file without one is not readable, the loop does not come to
an end. -/
theorem readKeys_of_not_readable {files : List Bytes} {orderedKeys : List Key}
    (hbad : ∃ chunk ∈ P.metadataChunks values files, ¬Readable chunk) :
    ∃ e, P.readKeys Dht.map orderedKeys files values = ⟨[], values, .error e⟩ := by
  induction files generalizing orderedKeys with
  | nil => simp [metadataChunks] at hbad
  | cons file files ih =>
    cases hfile : values (P.keyFromString file) with
    | none =>
      rw [metadataChunks_cons_none hfile] at hbad
      simp at hbad
    | some metadata =>
      by_cases hfirst : Readable metadata
      · rw [metadataChunks_cons_some hfile] at hbad
        rw [readKeys_cons_some hfile hfirst]
        exact ih (by simpa [hfirst] using hbad)
      · exact readKeys_cons_of_not_readable hfile hfirst

/-! ## The chunks -/

/-- The chunks of keys. -/
theorem getAll_map_run (keys : List Key) :
    Dht.map.getAll keys values = ⟨[], values, .ok (keys.map values)⟩ := by
  induction keys with
  | nil => rfl
  | cons key keys ih =>
    rw [Dht.getAll, Exec.bind_run (get_map_run rfl), Exec.bind_run ih]
    rfl

/-- The loop that puts the chunks together, if all of them are there. -/
theorem foldl_chunks (chunks : List Bytes) (data : Bytes) :
    (chunks.map some).foldl (fun data chunk => data.bind fun data => chunk.map (data ++ ·)) (some data) =
      some (data ++ chunks.flatten) := by
  induction chunks generalizing data with
  | nil => simp
  | cons chunk chunks ih => simp [ih]

/-- The loop that puts the chunks together, if one is missing. -/
theorem foldl_chunks_of_missing (chunks : List (Option Bytes)) (buffer : Option Bytes)
    (hmissing : buffer = none ∨ none ∈ chunks) :
    chunks.foldl (fun data chunk => data.bind fun data => chunk.map (data ++ ·)) buffer = none := by
  induction chunks generalizing buffer with
  | nil => simpa using hmissing
  | cons chunk chunks ih =>
    rw [List.foldl_cons]
    apply ih
    rcases hmissing with rfl | hmissing
    · exact Or.inl rfl
    · rcases List.mem_cons.1 hmissing with rfl | hmem
      · exact Or.inl (by cases buffer <;> rfl)
      · exact Or.inr hmem

/-! ## `read_in_files` -/

/-- If all files have readable metadata chunks, and all keys in them have chunks, `read_in_files` puts
these together. -/
theorem readInFiles_of_found {files metadata chunks : List Bytes}
    (hfound : files.map (fun file => values (P.keyFromString file)) = metadata.map some)
    (hreadable : ∀ chunk ∈ metadata, Readable chunk)
    (hchunks : (metadata.flatMap metadataKeys).map values = chunks.map some) :
    P.readInFiles Dht.map files values = ⟨[], values, .ok (some chunks.flatten)⟩ := by
  rw [readInFiles, Exec.bind_run (readKeys_of_found hfound hreadable)]
  simp only [List.nil_append]
  rw [Exec.bind_run (getAll_map_run _), hchunks, foldl_chunks]
  rfl

/-- If a key in them has no chunk, it returns false. -/
theorem readInFiles_of_missing_chunk {files metadata : List Bytes}
    (hfound : files.map (fun file => values (P.keyFromString file)) = metadata.map some)
    (hreadable : ∀ chunk ∈ metadata, Readable chunk)
    (hmissing : ∃ key ∈ metadata.flatMap metadataKeys, values key = none) :
    P.readInFiles Dht.map files values = ⟨[], values, .ok none⟩ := by
  obtain ⟨key, hkey, hnone⟩ := hmissing
  have hmem : none ∈ (metadata.flatMap metadataKeys).map values := List.mem_map.2 ⟨key, hkey, hnone⟩
  rw [readInFiles, Exec.bind_run (readKeys_of_found hfound hreadable)]
  simp only [List.nil_append]
  rw [Exec.bind_run (getAll_map_run _), foldl_chunks_of_missing _ _ (Or.inr hmem)]
  rfl

/-- If a file has no metadata chunk, it returns false. -/
theorem readInFiles_of_missing_metadata {files : List Bytes}
    (hmissing : ∃ file ∈ files, values (P.keyFromString file) = none)
    (hreadable : ∀ chunk ∈ P.metadataChunks values files, Readable chunk) :
    P.readInFiles Dht.map files values = ⟨[], values, .ok none⟩ := by
  rw [readInFiles, Exec.bind_run (readKeys_of_missing hmissing hreadable)]
  rfl

/-- If a metadata chunk is not readable, it does not return. -/
theorem readInFiles_of_not_readable {files : List Bytes}
    (hbad : ∃ chunk ∈ P.metadataChunks values files, ¬Readable chunk) :
    ∃ e, P.readInFiles Dht.map files values = ⟨[], values, .error e⟩ := by
  obtain ⟨e, he⟩ := readKeys_of_not_readable hbad
  exact ⟨e, by rw [readInFiles, Exec.bind_run_error he]⟩

/-- The map has files: for each of them a metadata chunk that lists keys, and under these keys, one
file after the other, chunks. -/
structure HasFiles (P : Platform) (values : Key → Option Bytes) (files : List Bytes)
    (keys : List (List Key)) (chunks : List Bytes) : Prop where
  /-- The metadata chunks. -/
  metadata : files.map (fun file => values (P.keyFromString file)) =
    keys.map fun fileKeys => some (metadataOf fileKeys)
  /-- The chunks. -/
  chunks : keys.flatten.map values = chunks.map some

/-- The metadata chunks of files that the map has. -/
theorem HasFiles.metadataChunks_eq {files : List Bytes} {keys : List (List Key)} {chunks : List Bytes}
    (h : P.HasFiles values files keys chunks) : P.metadataChunks values files = keys.map metadataOf :=
  Platform.metadataChunks_eq (h.metadata.trans (List.map_map ..).symm)

/-- The keys in these are the ones that they list. -/
theorem flatMap_metadataKeys (keys : List (List Key)) :
    (keys.map metadataOf).flatMap metadataKeys = keys.flatten := by
  induction keys with
  | nil => rfl
  | cons fileKeys keys ih =>
    rw [List.map_cons, List.flatMap_cons, metadataKeys_metadataOf, ih, List.flatten_cons]

/-- Files that the map has are read, if an `int` counts the bytes of each metadata chunk. -/
theorem HasFiles.readInFiles {files : List Bytes} {keys : List (List Key)} {chunks : List Bytes}
    (h : P.HasFiles values files keys chunks)
    (hfits : ∀ fileKeys ∈ keys, (keyBits + 1) * fileKeys.length < 2^31) :
    P.readInFiles Dht.map files values = ⟨[], values, .ok (some chunks.flatten)⟩ := by
  refine readInFiles_of_found (h.metadata.trans (List.map_map ..).symm) ?_ ?_
  · intro chunk hchunk
    obtain ⟨fileKeys, hkeys, rfl⟩ := List.mem_map.1 hchunk
    exact (readable_metadataOf_iff fileKeys).2 (hfits fileKeys hkeys)
  · rw [flatMap_metadataKeys]
    exact h.chunks

end Platform

end Distft
