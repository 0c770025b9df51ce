import Distft.General.Blocks
import Distft.Client.File

/-!
# What the loops of the client read

Each of the client's loops over a chunk runs its body on the terminated records of the chunk
(`recordLoop_eq`), as long as the `int` that counts the bytes does not overflow. On the index this
gives the names that are not empty. A metadata chunk gives the keys that its records are, if it is
`Readable`, and else the loop does not come to an end; one that was written for a file gives the
keys of the file's chunks. The loop that cuts a file gives its `pieces`.
-/

namespace Distft

/-! ## Records -/

/-- What a loop comes to, whose body is run on records. -/
def forRecords {β τ : Type} (onRecord : τ → Bytes → Except Fault (β ⊕ τ)) :
    τ → List Bytes → Except Fault (β ⊕ τ)
  | acc, [] => .ok (.inr acc)
  | acc, record :: records =>
    match onRecord acc record with
    | .error e => .error e
    | .ok (.inl value) => .ok (.inl value)
    | .ok (.inr acc) => forRecords onRecord acc records

/-- The loop over a chunk of fewer than `2^31` bytes runs its body on the chunk's records. -/
theorem recordLoop_eq {β τ : Type} (onRecord : τ → Bytes → Except Fault (β ⊕ τ)) (i : ℕ)
    (curr : Bytes) (acc : τ) (data : Bytes) (hlen : i + data.length < 2^31) :
    recordLoop onRecord i curr acc data = forRecords onRecord acc (Records.decode 0 curr data) := by
  induction data generalizing i curr acc with
  | nil => rfl
  | cons c rest ih =>
    rw [List.length_cons] at hlen
    have hi : i + 1 < 2^31 := by omega
    have hrest : i + 1 + rest.length < 2^31 := by omega
    unfold recordLoop Records.decode
    by_cases hc : c = 0
    · rw [if_pos hc, if_pos hc]
      unfold forRecords
      cases onRecord acc curr with
      | error e => rfl
      | ok r =>
        cases r with
        | inl value => rfl
        | inr acc' =>
          simp only [if_pos hi]
          exact ih _ _ _ hrest
    · rw [if_neg hc, if_pos hi, if_neg hc]
      exact ih _ _ _ hrest

/-- The loop over a chunk of `2^31` bytes or more does not come to an end, if its body never returns:
where no record stops it, the `int` overflows. -/
theorem recordLoop_of_le {β τ : Type} {onRecord : τ → Bytes → Except Fault (β ⊕ τ)}
    {F : Fault → Prop} (hgoes : ∀ acc record value, onRecord acc record ≠ .ok (.inl value))
    (hfault : ∀ acc record e, onRecord acc record = .error e → F e) (hoverflow : F .overflow) (i : ℕ)
    (curr : Bytes) (acc : τ) (data : Bytes) (hi : i < 2^31) (hlen : 2^31 ≤ i + data.length) :
    ∃ e, F e ∧ recordLoop onRecord i curr acc data = .error e := by
  induction data generalizing i curr acc with
  | nil =>
    rw [List.length_nil] at hlen
    omega
  | cons c rest ih =>
    rw [List.length_cons] at hlen
    have hrest : 2^31 ≤ i + 1 + rest.length := by omega
    have hnext : ∀ curr acc, ∃ e, F e ∧
        (if i + 1 < 2^31 then recordLoop onRecord (i + 1) curr acc rest else .error .overflow) =
          .error e := by
      intro curr acc
      by_cases hi' : i + 1 < 2^31
      · rw [if_pos hi']
        exact ih _ _ _ hi' hrest
      · rw [if_neg hi']
        exact ⟨.overflow, hoverflow, rfl⟩
    unfold recordLoop
    by_cases hc : c = 0
    · rw [if_pos hc]
      cases hr : onRecord acc curr with
      | error e => exact ⟨e, hfault _ _ _ hr, rfl⟩
      | ok r =>
        cases r with
        | inl value => exact absurd hr (hgoes _ _ _)
        | inr acc' => exact hnext _ _
    · rw [if_neg hc]
      exact hnext _ _

/-- `get_index_files` finds the records that are not empty. -/
theorem indexFilesLoop_eq (filesBuffer : List Bytes) (data : Bytes) (hlen : data.length < 2^31) :
    indexFilesLoop filesBuffer data =
      .ok (.inr (filesBuffer ++ (Records.decode 0 [] data).filter (0 < ·.length))) := by
  unfold indexFilesLoop
  rw [recordLoop_eq _ _ _ _ _ (by omega)]
  generalize Records.decode 0 [] data = records
  induction records generalizing filesBuffer with
  | nil => simp [forRecords]
  | cons record records ih =>
    unfold forRecords
    by_cases hrecord : 0 < record.length
    · simp [hrecord, ih]
    · simp [hrecord, ih]

/-- `get_index_files` overflows on an index of `2^31` bytes or more. -/
theorem indexFilesLoop_of_le (filesBuffer : List Bytes) (data : Bytes) (hlen : 2^31 ≤ data.length) :
    indexFilesLoop filesBuffer data = .error .overflow := by
  have hstops : ∃ e, e = Fault.overflow ∧ indexFilesLoop filesBuffer data = .error e :=
    recordLoop_of_le (F := (· = .overflow)) (fun _ _ value => value.elim)
      (by simp) rfl 0 [] filesBuffer data (by omega) (by omega)
  obtain ⟨e, rfl, he⟩ := hstops
  exact he

/-- `file_exists` returns true at a record that is the file. -/
theorem fileExistsLoop_eq (dhtFilename data : Bytes) (hlen : data.length < 2^31) :
    fileExistsLoop dhtFilename data =
      .ok (if dhtFilename ∈ Records.decode 0 [] data then .inl () else .inr ()) := by
  unfold fileExistsLoop
  rw [recordLoop_eq _ _ _ _ _ (by omega)]
  generalize Records.decode 0 [] data = records
  induction records with
  | nil => simp [forRecords]
  | cons record records ih =>
    unfold forRecords
    by_cases hrecord : record = dhtFilename
    · simp [hrecord]
    · simp [hrecord, Ne.symm hrecord, ih]

/-- A get from the map. -/
theorem get_map_run {values : Key → Option Bytes} {key : Key} {chunk : Option Bytes}
    (h : values key = chunk) : Dht.map.get key values = ⟨[], values, .ok chunk⟩ := by
  rw [← h]
  rfl

/-! ## Metadata -/

/-- The metadata chunk that lists keys. -/
def metadataOf (keys : List Key) : Bytes := Records.encode 0 (keys.map Key.toBytes)

/-- The keys in a metadata chunk, which its records of `KEYBITS` characters are. -/
def metadataKeys (metadata : Bytes) : List Key :=
  ((Records.decode 0 [] metadata).filter (·.length = keyBits)).filterMap Key.ofBytes

/-- A metadata chunk that is read to its end: an `int` counts its bytes, and the records of `KEYBITS`
characters are made of `0` and `1`. -/
structure Readable (metadata : Bytes) : Prop where
  /-- The size. -/
  fits : metadata.length < 2^31
  /-- The records of the length of a key. -/
  binary : ∀ record ∈ Records.decode 0 [] metadata, record.length = keyBits → Key.IsBinary record

/-- The records of a metadata chunk of keys are these keys. -/
theorem decode_metadataOf (keys : List Key) :
    Records.decode 0 [] (metadataOf keys) = keys.map Key.toBytes := by
  apply Records.decode_encode
  intro r hr hzero
  obtain ⟨key, -, rfl⟩ := List.mem_map.1 hr
  rcases key.toBytes_binary 0 hzero with h | h <;> exact absurd h (by decide)

/-- The size of a metadata chunk. -/
theorem length_metadataOf (keys : List Key) :
    (metadataOf keys).length = (keyBits + 1) * keys.length := by
  rw [metadataOf, Records.length_encode 0 (m := keyBits) (by simp), List.length_map]

/-- The keys that a metadata chunk lists are in it. -/
@[simp]
theorem metadataKeys_metadataOf (keys : List Key) : metadataKeys (metadataOf keys) = keys := by
  unfold metadataKeys
  rw [decode_metadataOf]
  induction keys with
  | nil => rfl
  | cons key keys ih => simpa using ih

/-- A metadata chunk of keys is readable, if an `int` counts its bytes. -/
theorem readable_metadataOf_iff (keys : List Key) :
    Readable (metadataOf keys) ↔ (keyBits + 1) * keys.length < 2^31 := by
  rw [← length_metadataOf]
  refine ⟨Readable.fits, fun hfits => ⟨hfits, fun record hrecord _ => ?_⟩⟩
  rw [decode_metadataOf] at hrecord
  obtain ⟨key, -, rfl⟩ := List.mem_map.1 hrecord
  exact key.toBytes_binary

/-- From a readable metadata chunk its keys are read. -/
theorem metadataLoop_of_readable (orderedKeys : List Key) {metadata : Bytes}
    (h : Readable metadata) :
    metadataLoop orderedKeys metadata = .ok (.inr (orderedKeys ++ metadataKeys metadata)) := by
  obtain ⟨hfits, hbinary⟩ := h
  unfold metadataLoop metadataKeys
  rw [recordLoop_eq _ _ _ _ _ (by omega)]
  generalize Records.decode 0 [] metadata = records at hbinary ⊢
  induction records generalizing orderedKeys with
  | nil => simp [forRecords]
  | cons record records ih =>
    have hrest := fun r hr => hbinary r (List.mem_cons_of_mem _ hr)
    unfold forRecords
    by_cases hlen : record.length = keyBits
    · obtain ⟨key, hkey⟩ := Key.exists_ofBytes (hbinary record List.mem_cons_self hlen)
      simp only [hlen, ne_eq, not_true_eq_false, if_false, hkey]
      rw [ih _ hrest]
      simp [hlen, hkey]
    · simp only [hlen, ne_eq, not_false_eq_true, if_true]
      rw [ih _ hrest]
      simp [hlen]

/-- On a metadata chunk that is not readable the loop does not come to an end. -/
theorem metadataLoop_of_not_readable (orderedKeys : List Key) {metadata : Bytes}
    (h : ¬Readable metadata) : ∃ e, metadataLoop orderedKeys metadata = .error e := by
  by_cases hfits : metadata.length < 2^31
  · have hbad : ∃ record ∈ Records.decode 0 [] metadata,
        record.length = keyBits ∧ ¬Key.IsBinary record := by
      by_contra hall
      push Not at hall
      exact h ⟨hfits, hall⟩
    unfold metadataLoop
    rw [recordLoop_eq _ _ _ _ _ (by omega)]
    generalize Records.decode 0 [] metadata = records at hbad ⊢
    induction records generalizing orderedKeys with
    | nil => simp at hbad
    | cons record records ih =>
      unfold forRecords
      by_cases hlen : record.length = keyBits
      · by_cases hbinary : Key.IsBinary record
        · obtain ⟨key, hkey⟩ := Key.exists_ofBytes hbinary
          simp only [hlen, ne_eq, not_true_eq_false, if_false, hkey]
          exact ih _ (by simpa [hbinary] using hbad)
        · simp [hlen, (Key.ofBytes_eq_none_iff record).2 hbinary]
      · simp only [hlen, ne_eq, not_false_eq_true, if_true]
        exact ih _ (by simpa [hlen] using hbad)
  · have hstops : ∃ e, True ∧ metadataLoop orderedKeys metadata = .error e :=
      recordLoop_of_le (F := fun _ => True) (fun _ _ value => value.elim) (fun _ _ _ _ => trivial)
        trivial 0 [] orderedKeys metadata (by omega) (by omega)
    obtain ⟨e, -, he⟩ := hstops
    exact ⟨e, he⟩

/-- A metadata chunk of keys is read as these keys. -/
theorem metadataLoop_eq (orderedKeys keys : List Key)
    (hlen : (Records.encode 0 (keys.map Key.toBytes)).length < 2^31) :
    metadataLoop orderedKeys (Records.encode 0 (keys.map Key.toBytes)) =
      .ok (.inr (orderedKeys ++ keys)) := by
  have hreadable := (readable_metadataOf_iff keys).2 (length_metadataOf keys ▸ hlen)
  have hloop := metadataLoop_of_readable orderedKeys hreadable
  rwa [metadataKeys_metadataOf] at hloop

/-- A readable metadata chunk lists its keys if all its records are keys, and nothing follows them. -/
theorem Readable.eq_metadataOf_iff {metadata : Bytes} (h : Readable metadata) :
    metadata = metadataOf (metadataKeys metadata) ↔
      (∀ record ∈ Records.decode 0 [] metadata, record.length = keyBits) ∧
        Records.unterminated 0 [] metadata = [] := by
  rw [← Records.encode_decode_eq_iff]
  constructor
  · intro heq
    have hdecode : Records.decode 0 [] metadata = (metadataKeys metadata).map Key.toBytes :=
      (congrArg (Records.decode 0 []) heq).trans (decode_metadataOf _)
    rw [hdecode]
    refine ⟨fun record hrecord => ?_, heq.symm⟩
    obtain ⟨key, -, rfl⟩ := List.mem_map.1 hrecord
    exact key.toBytes_length
  · rintro ⟨hlen, hencode⟩
    have hkeys : (metadataKeys metadata).map Key.toBytes = Records.decode 0 [] metadata := by
      have hbinary := fun record hrecord => h.binary record hrecord (hlen record hrecord)
      unfold metadataKeys
      generalize Records.decode 0 [] metadata = records at hlen hbinary ⊢
      induction records with
      | nil => rfl
      | cons record records ih =>
        obtain ⟨hrecord, hrecords⟩ := List.forall_mem_cons.1 hlen
        obtain ⟨hfirst, hrest⟩ := List.forall_mem_cons.1 hbinary
        obtain ⟨key, hkey⟩ := Key.exists_ofBytes hfirst
        have hprint := Key.toBytes_of_ofBytes hrecord hkey
        simp [hrecord, hkey, hprint, ih hrecords hrest]
    rw [metadataOf, hkeys, hencode]

/-! ## Pieces -/

/-- The pieces of a file: each of `max_chunk_size` bytes, but the last, which is shorter, and empty
where the size of the file is a multiple. -/
def pieces (content : Bytes) : List Bytes := Blocks.blocks maxChunkSize content

theorem maxChunkSize_pos : 0 < maxChunkSize := by decide

/-- The pieces make up the file. -/
theorem flatten_pieces (content : Bytes) : (pieces content).flatten = content :=
  Blocks.flatten_blocks maxChunkSize_pos content

/-- A file that can be read is cut into its pieces. -/
theorem readChunks_eq (turns : ℕ) (content : Bytes) (hturns : content.length < turns) :
    readChunks turns ⟨⟨content, false⟩, false⟩ = .ok (pieces content) := by
  induction turns generalizing content with
  | zero => exact absurd hturns (Nat.not_lt_zero _)
  | succ turns ih =>
    have hpos := maxChunkSize_pos
    unfold readChunks
    simp only [Bool.false_eq_true, if_false, FileStream.read, Bool.not_false, Bool.and_true,
      Bool.false_or]
    by_cases hlt : content.length < maxChunkSize
    · have hend : readChunks turns ⟨⟨content.drop maxChunkSize, false⟩, true⟩ = .ok [] := by
        cases turns <;> simp [readChunks]
      rw [decide_eq_true hlt, hend, pieces, Blocks.blocks_of_lt hlt, List.take_of_length_le hlt.le]
    · have hle := Nat.le_of_not_lt hlt
      have hdrop : (content.drop maxChunkSize).length < turns := by
        rw [List.length_drop]
        omega
      rw [decide_eq_false hlt, ih _ hdrop, pieces, pieces, Blocks.blocks_of_le maxChunkSize_pos hle]

end Distft
