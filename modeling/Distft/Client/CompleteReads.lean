import Distft.Client.Contract

/-!
# What was written is read, and nothing less

The two sides of `read_in_files`. Of files that the DHT has, written as `write_from_file` writes
them, it returns the contents, as long as an `int` counts the bytes of each metadata chunk
(`readsBack_iff`). And on a DHT with anything in it, it should return true only where every byte of
the metadata chunks is part of the list of the keys of chunks that are there; but a record of the
wrong length and a record that is not terminated are skipped, and one of the right length that is
not a key is an exception (`readsOnlyComplete_iff`).
-/

namespace Distft

namespace Platform

variable {P : Platform} {values : Key → Option Bytes}

/-- A file is cut into chunks that are not too long and make it up; from the metadata chunk of keys
exactly these keys are read, after those of other files, and no record of it is skipped; and files are
read as the given chunks, one after the other. -/
structure ReadsBack (P : Platform) (values : Key → Option Bytes) (content : Bytes) (keys : List Key)
    (files chunks : List Bytes) : Prop where
  /-- The loop of `write_from_file`. -/
  cut : ∃ cut, readChunks (content.length + 1) ⟨⟨content, false⟩, false⟩ = .ok cut ∧
    (∀ chunk ∈ cut, chunk.length ≤ maxChunkSize) ∧ cut.flatten = content
  /-- The loop of `read_in_files` over a metadata chunk. -/
  parsed : ∀ orderedKeys, metadataLoop orderedKeys (Records.encode 0 (keys.map Key.toBytes)) =
    .ok (.inr (orderedKeys ++ keys))
  /-- The records of the metadata chunk. -/
  accepted : ∀ record ∈ Records.decode 0 [] (Records.encode 0 (keys.map Key.toBytes)),
    record.length = keyBits
  /-- `read_in_files`. -/
  read : (P.readInFiles Dht.map files values).result = .ok (some chunks.flatten)

/-- What was written is read, exactly if an `int` counts the bytes of the metadata chunks. -/
theorem readsBack_iff {files : List Bytes} {fileKeys : List (List Key)} {chunks : List Bytes}
    (h : P.HasFiles values files fileKeys chunks) (content : Bytes) (keys : List Key) :
    P.ReadsBack values content keys files chunks ↔
      (keyBits + 1) * keys.length < 2^31 ∧
        ∀ listed ∈ fileKeys, (keyBits + 1) * listed.length < 2^31 := by
  constructor
  · rintro ⟨-, hparsed, -, hread⟩
    constructor
    · by_contra hlong
      obtain ⟨e, he⟩ := metadataLoop_of_not_readable [] (mt (readable_metadataOf_iff keys).1 hlong)
      exact absurd ((hparsed []).symm.trans he) (by simp)
    · intro listed hlisted
      by_contra hlong
      have hmem : metadataOf listed ∈ P.metadataChunks values files := by
        rw [h.metadataChunks_eq]
        exact List.mem_map_of_mem hlisted
      obtain ⟨e, he⟩ := readInFiles_of_not_readable
        ⟨metadataOf listed, hmem, mt (readable_metadataOf_iff listed).1 hlong⟩
      rw [he] at hread
      simp at hread
  · rintro ⟨hkeys, hfits⟩
    constructor
    · exact ⟨pieces content, readChunks_eq _ content (Nat.lt_succ_self _),
        fun _ hpiece => Blocks.length_le_of_mem_blocks hpiece, flatten_pieces content⟩
    · intro orderedKeys
      apply metadataLoop_eq
      rw [← metadataOf, length_metadataOf]
      exact hkeys
    · intro record hrecord
      rw [← metadataOf, decode_metadataOf] at hrecord
      obtain ⟨key, -, rfl⟩ := List.mem_map.1 hrecord
      exact key.toBytes_length
    · rw [h.readInFiles hfits]

/-- A DHT with a file `a` of one chunk, `hello`. -/
def helloValues (key : Key) : Option Bytes :=
  if key = inOrder.keyFromData (text "hello") then some (text "hello")
  else some (metadataOf [inOrder.keyFromData (text "hello")])

/-- The file `a` is read. -/
theorem readsBack_hello :
    inOrder.ReadsBack helloValues (text "hello") [inOrder.keyFromData (text "hello")] [text "a"]
      [text "hello"] := by
  have hfiles : inOrder.HasFiles helloValues [text "a"] [[inOrder.keyFromData (text "hello")]]
      [text "hello"] := ⟨by decide +kernel, by decide +kernel⟩
  exact (readsBack_iff hfiles (text "hello") _).2 (by decide +kernel)

/-- The metadata chunk of a file of 13338408 chunks has more than `2^31` bytes: its file is not
read. -/
theorem not_readsBack :
    let keys : List Key := List.replicate 13338408 0
    let values : Key → Option Bytes := fun _ => some (metadataOf keys)
    let chunks := List.replicate 13338408 (metadataOf keys)
    inOrder.HasFiles values [text "a"] [keys] chunks ∧
      (∃ e, (inOrder.readInFiles Dht.map [text "a"] values).result = .error e) ∧
      ¬inOrder.ReadsBack values [] keys [text "a"] chunks := by
  intro keys values chunks
  have hfiles : inOrder.HasFiles values [text "a"] [keys] chunks := by
    refine ⟨rfl, ?_⟩
    simp only [List.flatten_singleton, keys, chunks, values, List.map_replicate]
  have hlong : ¬Readable (metadataOf keys) := by
    rw [readable_metadataOf_iff, List.length_replicate]
    decide
  have hmem : metadataOf keys ∈ inOrder.metadataChunks values [text "a"] := by
    rw [hfiles.metadataChunks_eq]
    exact List.mem_singleton_self _
  obtain ⟨e, he⟩ := readInFiles_of_not_readable ⟨metadataOf keys, hmem, hlong⟩
  refine ⟨hfiles, ⟨e, by rw [he]⟩, fun h => ?_⟩
  have hread := h.read
  rw [he] at hread
  simp at hread

/-! ## Complete reads -/

/-- `read_in_files` returns, and with true exactly if the DHT has the files: each byte of their
metadata chunks is in a terminated record that prints a key, and the keys have chunks, which are
returned. -/
def ReadsOnlyComplete (P : Platform) (values : Key → Option Bytes) (files : List Bytes) : Prop :=
  ∃ r, (P.readInFiles Dht.map files values).result = .ok r ∧
    ∀ data, r = some data ↔
      ∃ keys chunks, P.HasFiles values files keys chunks ∧ data = chunks.flatten

/-- The metadata chunks that files have are lists of keys, if the map has the files. -/
theorem hasFiles_iff {files metadata chunks : List Bytes}
    (hfound : files.map (fun file => values (P.keyFromString file)) = metadata.map some) :
    (∃ keys, P.HasFiles values files keys chunks) ↔
      (∀ chunk ∈ metadata, chunk = metadataOf (metadataKeys chunk)) ∧
        (metadata.flatMap metadataKeys).map values = chunks.map some := by
  constructor
  · rintro ⟨keys, h⟩
    have hmetadata : metadata = keys.map metadataOf :=
      (Platform.metadataChunks_eq hfound).symm.trans h.metadataChunks_eq
    subst hmetadata
    rw [flatMap_metadataKeys]
    refine ⟨fun chunk hchunk => ?_, h.chunks⟩
    obtain ⟨fileKeys, -, rfl⟩ := List.mem_map.1 hchunk
    rw [metadataKeys_metadataOf]
  · rintro ⟨hlists, hchunks⟩
    have hmetadata : metadata = (metadata.map metadataKeys).map metadataOf := by
      rw [List.map_map]
      exact (List.map_id' metadata).symm.trans (List.map_congr_left hlists)
    refine ⟨metadata.map metadataKeys, ?_, ?_⟩
    · rw [hfound]
      conv_lhs => rw [hmetadata]
      rw [List.map_map]
      rfl
    · rwa [← List.flatMap_def]

/-- Keys that all have chunks. -/
theorem exists_chunks {keys : List Key} (h : ∀ key ∈ keys, values key ≠ none) :
    ∃ chunks : List Bytes, keys.map values = chunks.map some := by
  induction keys with
  | nil => exact ⟨[], rfl⟩
  | cons key keys ih =>
    obtain ⟨hkey, hrest⟩ := List.forall_mem_cons.1 h
    obtain ⟨chunk, hchunk⟩ := Option.ne_none_iff_exists'.1 hkey
    obtain ⟨chunks, hchunks⟩ := ih hrest
    exact ⟨chunk :: chunks, by rw [List.map_cons, List.map_cons, hchunk, hchunks]⟩

/-- Where false is returned, the map must not have the files. -/
theorem readsOnlyComplete_of_none {files : List Bytes}
    (hrun : P.readInFiles Dht.map files values = ⟨[], values, .ok none⟩)
    (hnot : ∀ keys chunks, ¬P.HasFiles values files keys chunks) :
    P.ReadsOnlyComplete values files := by
  refine ⟨none, by rw [hrun], fun data => ⟨fun h => by simp at h, ?_⟩⟩
  rintro ⟨keys, chunks, hfiles, -⟩
  exact absurd hfiles (hnot keys chunks)

/-- Where all files have readable metadata chunks, and all keys in them have chunks, the metadata
chunks must be lists of keys. -/
theorem readsOnlyComplete_of_found {files metadata chunks : List Bytes}
    (hfound : files.map (fun file => values (P.keyFromString file)) = metadata.map some)
    (hreadable : ∀ chunk ∈ metadata, Readable chunk)
    (hchunks : (metadata.flatMap metadataKeys).map values = chunks.map some) :
    P.ReadsOnlyComplete values files ↔
      ∀ chunk ∈ metadata, chunk = metadataOf (metadataKeys chunk) := by
  have hrun := readInFiles_of_found hfound hreadable hchunks
  unfold ReadsOnlyComplete
  rw [hrun]
  constructor
  · rintro ⟨r, hr, hall⟩
    obtain rfl : some chunks.flatten = r := Except.ok.inj hr
    obtain ⟨keys, chunks', hfiles, -⟩ := (hall chunks.flatten).1 rfl
    exact ((hasFiles_iff hfound).1 ⟨keys, hfiles⟩).1
  · intro hlists
    refine ⟨_, rfl, fun data => ⟨fun hdata => ?_, ?_⟩⟩
    · obtain ⟨keys, hfiles⟩ := (hasFiles_iff hfound).2 ⟨hlists, hchunks⟩
      exact ⟨keys, chunks, hfiles, (Option.some.inj hdata).symm⟩
    · rintro ⟨keys, chunks', hfiles, rfl⟩
      have hchunks' := ((hasFiles_iff hfound).1 ⟨keys, hfiles⟩).2
      have hsame := (Option.some_injective Bytes).list_map (hchunks.symm.trans hchunks')
      rw [hsame]

/-- A read is complete, and false is returned where it cannot be, exactly if the metadata chunks
before a file without one are readable, and, where all files have one and all keys in them have
chunks, all their records are keys and nothing follows the last record. -/
theorem readsOnlyComplete_iff (P : Platform) (values : Key → Option Bytes) (files : List Bytes) :
    P.ReadsOnlyComplete values files ↔
      (∀ chunk ∈ P.metadataChunks values files, Readable chunk) ∧
        ((∀ file ∈ files, values (P.keyFromString file) ≠ none) →
          (∀ key ∈ (P.metadataChunks values files).flatMap metadataKeys, values key ≠ none) →
          ∀ chunk ∈ P.metadataChunks values files,
            (∀ record ∈ Records.decode 0 [] chunk, record.length = keyBits) ∧
              Records.unterminated 0 [] chunk = []) := by
  by_cases hreadable : ∀ chunk ∈ P.metadataChunks values files, Readable chunk
  · rw [and_iff_right hreadable]
    by_cases hall : ∀ file ∈ files, values (P.keyFromString file) ≠ none
    · have hfound := map_metadataChunks hall
      rw [forall_prop_of_true hall]
      by_cases hkeys : ∀ key ∈ (P.metadataChunks values files).flatMap metadataKeys, values key ≠ none
      · -- Everything is found, so the read returns true.
        obtain ⟨chunks, hchunks⟩ := exists_chunks hkeys
        rw [forall_prop_of_true hkeys, readsOnlyComplete_of_found hfound hreadable hchunks]
        exact forall₂_congr fun chunk hchunk => (hreadable chunk hchunk).eq_metadataOf_iff
      · refine iff_of_true ?_ fun h => absurd h hkeys
        push Not at hkeys
        refine readsOnlyComplete_of_none (readInFiles_of_missing_chunk hfound hreadable hkeys) ?_
        intro keys chunks hfiles
        obtain ⟨key, hkey, hnone⟩ := hkeys
        have hmem := List.mem_map_of_mem (f := values) hkey
        rw [((hasFiles_iff hfound).1 ⟨keys, hfiles⟩).2, hnone] at hmem
        simp at hmem
    · refine iff_of_true ?_ fun h => absurd h hall
      push Not at hall
      refine readsOnlyComplete_of_none (readInFiles_of_missing_metadata hall hreadable) ?_
      intro keys chunks hfiles
      obtain ⟨file, hfile, hnone⟩ := hall
      have hmem := List.mem_map_of_mem (f := fun file => values (P.keyFromString file)) hfile
      rw [hfiles.metadata, hnone] at hmem
      simp at hmem
  · push Not at hreadable
    obtain ⟨e, he⟩ := readInFiles_of_not_readable hreadable
    obtain ⟨chunk, hchunk, hbad⟩ := hreadable
    constructor
    · rintro ⟨r, hr, -⟩
      rw [he] at hr
      simp at hr
    · rintro ⟨hall, -⟩
      exact absurd (hall chunk hchunk) hbad

/-- A metadata chunk that is one record of the wrong length, or one that is not terminated, is read as
an empty file, and one of 160 letters is an exception. -/
theorem not_readsOnlyComplete :
    (inOrder.readInFiles Dht.map [text "a"] fun _ => some [0]).result = .ok (some []) ∧
      ¬inOrder.ReadsOnlyComplete (fun _ => some [0]) [text "a"] ∧
      (inOrder.readInFiles Dht.map [text "a"] fun _ => some [48]).result = .ok (some []) ∧
      ¬inOrder.ReadsOnlyComplete (fun _ => some [48]) [text "a"] ∧
      (inOrder.readInFiles Dht.map [text "a"]
        fun _ => some (List.replicate keyBits 120 ++ [0])).result = .error .invalidArgument ∧
      ¬inOrder.ReadsOnlyComplete (fun _ => some (List.replicate keyBits 120 ++ [0])) [text "a"] := by
  have hempty : ∀ c : UInt8,
      (inOrder.readInFiles Dht.map [text "a"] fun _ => some [c]).result = .ok (some []) →
        ¬inOrder.ReadsOnlyComplete (fun _ => some [c]) [text "a"] := by
    rintro c hread ⟨r, hr, hall⟩
    obtain rfl : some [] = r := Except.ok.inj (hread.symm.trans hr)
    obtain ⟨keys, chunks, hfiles, -⟩ := (hall []).1 rfl
    have hmem : [c] ∈ keys.map metadataOf := by
      rw [← hfiles.metadataChunks_eq]
      exact List.mem_singleton_self _
    obtain ⟨fileKeys, -, hchunk⟩ := List.mem_map.1 hmem
    -- One byte is no multiple of the length of a record.
    have hlen : 161 * fileKeys.length = 1 :=
      (length_metadataOf fileKeys).symm.trans (congrArg List.length hchunk)
    omega
  have hshort : (inOrder.readInFiles Dht.map [text "a"] fun _ => some [0]).result = .ok (some []) := by
    decide +kernel
  have hunterminated :
      (inOrder.readInFiles Dht.map [text "a"] fun _ => some [48]).result = .ok (some []) := by
    decide +kernel
  have hthrows : (inOrder.readInFiles Dht.map [text "a"]
      fun _ => some (List.replicate keyBits 120 ++ [0])).result = .error .invalidArgument := by
    decide +kernel
  refine ⟨hshort, hempty 0 hshort, hunterminated, hempty 48 hunterminated, hthrows, ?_⟩
  rintro ⟨r, hr, -⟩
  rw [hthrows] at hr
  simp at hr

end Platform

end Distft
