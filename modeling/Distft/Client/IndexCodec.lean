import Distft.Client.Codecs

/-!
# What is written to the index is listed

`add_files_to_index_file` appends records to the index chunk. `get_index_files` and `file_exists`
read it by two loops of their own, which agree on every chunk that they come to the end of: the
first lists the records that are not empty, and the second looks for a record (`getIndexFiles_run`,
`fileExists_run`). They come to the end of a chunk as long as an `int` counts its bytes, which is
the one condition of both halves of `indexCodec_iff`.
-/

namespace Distft

open Exec

/-- The name of a file in the index: it is not empty, and has no NUL. -/
abbrev FileName : Type := { name : Bytes // name ≠ [] ∧ (0 : UInt8) ∉ name }

/-- The bytes of names. -/
def fileNames (names : List FileName) : List Bytes := names.map Subtype.val

/-- Names are read back from the records that they are written to. -/
theorem decode_fileNames (names : List FileName) :
    (Records.decode 0 [] (Records.encode 0 (fileNames names))).filter (0 < ·.length) =
      fileNames names := by
  have hnames : ∀ name ∈ fileNames names, name ≠ [] ∧ (0 : UInt8) ∉ name := by
    intro _ hname
    obtain ⟨name, -, rfl⟩ := List.mem_map.1 hname
    exact name.2
  rw [Records.decode_encode 0 _ fun name hname => (hnames name hname).2, List.filter_eq_self]
  exact fun name hname => decide_eq_true (List.length_pos_iff.2 (hnames name hname).1)

namespace Platform

variable (P : Platform)

/-- The calls of `add_files_to_index_file` for some lists, one after the other. -/
def addLists {ε σ : Type} (s : Dht ε σ) : List (List Bytes) → Exec ε Fault σ Unit
  | [] => return ()
  | files :: lists => do
    let _ ← P.addFilesToIndexFile s files
    addLists s lists

/-- `init_index_file`, calls of `add_files_to_index_file`, and `get_index_files`. -/
def listAfter {ε σ : Type} (s : Dht ε σ) (lists : List (List Bytes)) :
    Exec ε Fault σ (Option (List Bytes)) := do
  let _ ← P.initIndexFile s
  P.addLists s lists
  P.getIndexFiles s

/-! ## The two readers -/

variable {P} {values : Key → Option Bytes} {data : Bytes}

/-- `get_index_files` lists the records that are not empty, of an index that an `int` counts the bytes
of. -/
theorem getIndexFiles_run (hdata : values P.indexKey = some data) (hlen : data.length < 2^31) :
    (P.getIndexFiles Dht.map values).result =
      .ok (some ((Records.decode 0 [] data).filter (0 < ·.length))) := by
  unfold getIndexFiles
  rw [bind_run (get_map_run hdata)]
  simp only [indexFilesLoop_eq _ _ hlen]
  rfl

/-- On a longer one it overflows. -/
theorem getIndexFiles_of_le (hdata : values P.indexKey = some data) (hlen : 2^31 ≤ data.length) :
    (P.getIndexFiles Dht.map values).result = .error .overflow := by
  unfold getIndexFiles
  rw [bind_run (get_map_run hdata)]
  simp only [indexFilesLoop_of_le _ _ hlen]
  rfl

/-- `file_exists` looks for a record. -/
theorem fileExists_run (hdata : values P.indexKey = some data) (hlen : data.length < 2^31)
    (name : Bytes) :
    (P.fileExists Dht.map name values).result =
      .ok (decide (name ∈ Records.decode 0 [] data)) := by
  unfold fileExists
  rw [bind_run (get_map_run hdata)]
  simp only [fileExistsLoop_eq _ _ hlen]
  by_cases hname : name ∈ Records.decode 0 [] data
  · rw [if_pos hname, decide_eq_true hname]
    rfl
  · rw [if_neg hname, decide_eq_false hname]
    rfl

/-! ## The writer -/

/-- The calls append all that they are given to the index. -/
theorem addLists_run (lists : List (List Bytes)) (hdata : values P.indexKey = some data) :
    ∃ values', P.addLists Dht.map lists values = ⟨[], values', .ok ()⟩ ∧
      values' P.indexKey = some (data ++ Records.encode 0 lists.flatten) := by
  induction lists generalizing values data with
  | nil => exact ⟨values, rfl, by simpa using hdata⟩
  | cons files lists ih =>
    -- Each call reads the index, and writes it back with its records behind it.
    have hadd : P.addFilesToIndexFile Dht.map files values =
        ⟨[], Function.update values P.indexKey (some (data ++ Records.encode 0 files)), .ok true⟩ := by
      unfold addFilesToIndexFile
      rw [bind_run (get_map_run hdata)]
      rfl
    obtain ⟨values', hrun, hindex⟩ := ih (Function.update_self P.indexKey _ values)
    refine ⟨values', ?_, ?_⟩
    · rw [addLists, bind_run hadd, hrun]
      rfl
    · rw [hindex, List.flatten_cons, Records.encode_append, List.append_assoc]

/-- `get_index_files` is run on the index that the calls have written. -/
theorem listAfter_run (lists : List (List Bytes)) (values : Key → Option Bytes) :
    ∃ values', values' P.indexKey = some (Records.encode 0 lists.flatten) ∧
      (P.listAfter Dht.map lists values).result = (P.getIndexFiles Dht.map values').result := by
  obtain ⟨values', hrun, hindex⟩ := addLists_run lists
    (Function.update_self P.indexKey (some ([] : Bytes)) values)
  have hinit : P.initIndexFile Dht.map values =
      ⟨[], Function.update values P.indexKey (some []), .ok true⟩ := rfl
  refine ⟨values', by simpa using hindex, ?_⟩
  rw [listAfter, bind_run hinit, bind_run hrun]

/-! ## The codec -/

variable (P)

/-- After `init_index_file` and calls of `add_files_to_index_file` with the given lists,
`get_index_files` returns them all in order. -/
def ListsBack (values : Key → Option Bytes) (lists : List (List FileName)) : Prop :=
  (P.listAfter Dht.map (lists.map fileNames) values).result = .ok (some (fileNames lists.flatten))

/-- With some bytes in the index chunk, `file_exists` is true of a name exactly when `get_index_files`
lists it. -/
def FindsListed (values : Key → Option Bytes) (data name : Bytes) : Prop :=
  ∃ listed found,
    (P.getIndexFiles Dht.map (Function.update values P.indexKey (some data))).result =
        .ok (some listed) ∧
      (P.fileExists Dht.map name (Function.update values P.indexKey (some data))).result = .ok found ∧
      (found = true ↔ name ∈ listed)

/-- All lists are returned in order exactly when an `int` counts the bytes of their records. -/
theorem listsBack_iff (values : Key → Option Bytes) (lists : List (List FileName)) :
    P.ListsBack values lists ↔ (Records.encode 0 (fileNames lists.flatten)).length < 2^31 := by
  obtain ⟨values', hindex, hrun⟩ := listAfter_run (P := P) (lists.map fileNames) values
  have hflatten : (lists.map fileNames).flatten = fileNames lists.flatten := by
    rw [fileNames, List.map_flatten]
    rfl
  rw [hflatten] at hindex
  unfold ListsBack
  rw [hrun]
  by_cases hlen : (Records.encode 0 (fileNames lists.flatten)).length < 2^31
  · rw [getIndexFiles_run hindex hlen, decode_fileNames]
    exact iff_of_true rfl hlen
  · rw [getIndexFiles_of_le hindex (Nat.le_of_not_lt hlen)]
    exact iff_of_false (by simp) hlen

/-- The two readers agree about a name that is not empty exactly when an `int` counts the bytes of the
chunk. -/
theorem findsListed_iff (values : Key → Option Bytes) (data : Bytes) {name : Bytes} (hname : name ≠ []) :
    P.FindsListed values data name ↔ data.length < 2^31 := by
  have hdata := Function.update_self P.indexKey (some data) values
  by_cases hlen : data.length < 2^31
  · -- Only the empty record is in the one and not in the other.
    refine iff_of_true ⟨_, _, getIndexFiles_run hdata hlen, fileExists_run hdata hlen name, ?_⟩ hlen
    rw [decide_eq_true_eq, List.mem_filter, decide_eq_true_eq, List.length_pos_iff]
    exact (and_iff_left hname).symm
  · refine iff_of_false ?_ hlen
    rintro ⟨listed, found, hlisted, -⟩
    rw [getIndexFiles_of_le hdata (Nat.le_of_not_lt hlen)] at hlisted
    exact nomatch hlisted

/-- What is written to the index is listed, and what is listed is found, exactly as long as an `int`
counts the bytes of the index. -/
theorem indexCodec_iff (values : Key → Option Bytes) :
    (∀ lists : List (List FileName), P.ListsBack values lists ↔
      (Records.encode 0 (fileNames lists.flatten)).length < 2^31) ∧
    ∀ data name : Bytes, name ≠ [] → (P.FindsListed values data name ↔ data.length < 2^31) :=
  ⟨P.listsBack_iff values, fun data _ hname => P.findsListed_iff values data hname⟩

/-- A name of 255 letters. -/
def longName : FileName := ⟨List.replicate 255 97, by decide, by decide⟩

/-- After `2^23 + 1` calls with one name of 255 letters each the index has more than `2^31` bytes,
and the loop that lists it counts past the largest int before it comes to the last name. -/
theorem not_indexCodec :
    ¬∀ (P : Platform) values, (∀ lists : List (List FileName), P.ListsBack values lists) ∧
      ∀ data name : Bytes, name ≠ [] → P.FindsListed values data name := by
  intro h
  let P : Platform := ⟨fun _ => Vector.replicate 20 0, id, fun _ => .rfl⟩
  have hlen := (P.listsBack_iff (fun _ => none) (List.replicate (2^23 + 1) [longName])).1
    ((h P fun _ => none).1 _)
  have hindex : ∀ n, (Records.encode 0 (fileNames (List.replicate n [longName]).flatten)).length =
      256 * n := by
    intro n
    have hlong : ∀ r ∈ List.replicate n longName.1, r.length = 255 := by
      intro r hr
      rw [List.eq_of_mem_replicate hr, longName, List.length_replicate]
    rw [List.flatten_replicate_singleton, fileNames, List.map_replicate,
      Records.length_encode 0 hlong, List.length_replicate]
  rw [hindex] at hlen
  exact absurd hlen (by decide)

end Platform

end Distft
