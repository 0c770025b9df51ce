import Mathlib.Data.List.Nodup
import Distft.General.Runs
import Distft.Client.Codecs

/-!
# The contract of the file store

A `Shelf` is what the file store is for: the files that were stored, by name, in order. The state of
the DHT stands for a shelf when the index lists its names, and the metadata and the pieces of each of
its files are under their keys (`Stored`). Names, pieces, and the string `index` share one space of
keys, so a store keeps this only as long as no two of them that stand for different things are the
same string (`Shelf.Free`): then the listings and the files that are read are those of the shelf
(`storeCmds_contract`). A file with the name `index` replaces the index.
-/

namespace Distft

open Exec

/-! ## Shelves -/

/-- Files with their names and contents, in the order in which they were stored. -/
abbrev Shelf : Type := List (Bytes × Bytes)

/-- A call of `store_cmd` over readable regular files with names that are not empty and have no NUL.
-/
structure StoreCall where
  /-- The paths of the files. -/
  paths : List Bytes
  /-- What the files have at the time of the call. -/
  content : Bytes → Bytes
  /-- The names. -/
  names : ∀ path ∈ paths, filename path ≠ [] ∧ (0 : UInt8) ∉ filename path

/-- The files that a call finds. -/
def StoreCall.disk (call : StoreCall) (path : Bytes) : Option LocalFile :=
  some ⟨call.content path, false⟩

namespace Shelf

/-- The names of the files. -/
def names (shelf : Shelf) : List Bytes := shelf.map Prod.fst

/-- The pieces of the files. -/
def allPieces (shelf : Shelf) : List Bytes := shelf.flatMap fun file => pieces file.2

/-- A file is put on the shelf, unless there is one of its name. -/
def put (shelf : Shelf) (name content : Bytes) : Shelf :=
  if name ∈ shelf.names then shelf else shelf ++ [(name, content)]

/-- The file at a path is put on the shelf. -/
def putFile (content : Bytes → Bytes) (shelf : Shelf) (path : Bytes) : Shelf :=
  shelf.put (filename path) (content path)

/-- What `store_cmd` says of a file whose name is there. -/
def existsMessage (path : Bytes) : Bytes :=
  text "File" ++ path ++ text " already exists in the current session. Skipping."

/-- What it says of a file that does not open. -/
def missingMessage (path : Bytes) : Bytes :=
  text "File " ++ path ++ text " does not exist or read failed. Skipping."

/-- Files of a disk are put on the shelf: it, the names that are added, and what is said of the
others. -/
def storeFiles (file : Bytes → Option LocalFile) :
    Shelf → List Bytes → List Bytes → Bytes → Shelf × List Bytes × Bytes
  | shelf, [], added, cmdErr => (shelf, added, cmdErr)
  | shelf, path :: paths, added, cmdErr =>
    if filename path ∈ shelf.names then
      storeFiles file shelf paths added (cmdErr ++ existsMessage path)
    else match file path with
      | none => storeFiles file shelf paths added (cmdErr ++ missingMessage path)
      | some f =>
        storeFiles file (shelf ++ [(filename path, f.bytes)]) paths (added ++ [filename path]) cmdErr

/-- The files of a call are put on the shelf. -/
def store (shelf : Shelf) (call : StoreCall) : Shelf :=
  Runs.run (putFile call.content) shelf call.paths

@[simp]
theorem names_append (shelf shelf' : Shelf) : (shelf ++ shelf').names = shelf.names ++ shelf'.names :=
  List.map_append

@[simp]
theorem allPieces_append (shelf shelf' : Shelf) :
    (shelf ++ shelf').allPieces = shelf.allPieces ++ shelf'.allPieces := List.flatMap_append

theorem prefix_put (shelf : Shelf) (name content : Bytes) : shelf <+: shelf.put name content := by
  unfold put
  split
  · exact List.prefix_refl shelf
  · exact List.prefix_append shelf _

theorem prefix_putAll (content : Bytes → Bytes) (paths : List Bytes) (shelf : Shelf) :
    shelf <+: Runs.run (putFile content) shelf paths :=
  Runs.run_invariant (fun _ _ h => h.trans (prefix_put _ _ _)) (List.prefix_refl shelf) paths

theorem prefix_storeAll (shelf : Shelf) (calls : List StoreCall) :
    shelf <+: Runs.run store shelf calls :=
  Runs.run_invariant (fun _ call h => h.trans (prefix_putAll call.content call.paths _))
    (List.prefix_refl shelf) calls

/-- Storing adds files at the end. -/
theorem prefix_storeFiles (file : Bytes → Option LocalFile) (shelf : Shelf) (paths added : List Bytes)
    (cmdErr : Bytes) : shelf <+: (shelf.storeFiles file paths added cmdErr).1 := by
  induction paths generalizing shelf added cmdErr with
  | nil => exact List.prefix_refl _
  | cons path paths ih =>
    unfold storeFiles
    split
    · exact ih _ _ _
    · split
      · exact ih _ _ _
      · exact (List.prefix_append _ _).trans (ih _ _ _)

/-- The files of a call are all found. -/
theorem storeFiles_disk (call : StoreCall) (shelf : Shelf) (paths added : List Bytes) (cmdErr : Bytes) :
    (shelf.storeFiles call.disk paths added cmdErr).1 = Runs.run (putFile call.content) shelf paths := by
  induction paths generalizing shelf added cmdErr with
  | nil => rfl
  | cons path paths ih =>
    rw [Runs.run_cons, putFile, put]
    unfold storeFiles
    split
    · exact ih _ _ _
    · exact ih _ _ _

/-- No two names are the same. -/
theorem nodup_put {shelf : Shelf} (h : shelf.names.Nodup) (name content : Bytes) :
    (shelf.put name content).names.Nodup := by
  unfold put
  split
  · exact h
  · next hname =>
    rw [names_append]
    exact h.append (List.nodup_singleton name) (by simpa [names] using hname)

theorem nodup_storeAll (calls : List StoreCall) : (Runs.run store [] calls).names.Nodup := by
  have hstore : ∀ (shelf : Shelf) call, shelf.names.Nodup → (shelf.store call).names.Nodup :=
    fun _ call h => Runs.run_invariant (I := fun shelf => names shelf |>.Nodup)
      (fun _ _ h => nodup_put h _ _) h call.paths
  have hnil : (names []).Nodup := List.nodup_nil
  exact Runs.run_invariant (I := fun shelf => names shelf |>.Nodup) hstore hnil calls

/-- No file has the name `index`, no piece of a file is the string `index` or the name of a file, and
the index and all metadata chunks are small enough for an `int` to count their bytes. -/
structure Free (shelf : Shelf) : Prop where
  /-- No file has the name `index`. -/
  index_notMem : text "index" ∉ shelf.names
  /-- No piece is the string `index`. -/
  piece_ne_index : text "index" ∉ shelf.allPieces
  /-- No piece is a name. -/
  piece_ne_name : ∀ piece ∈ shelf.allPieces, piece ∉ shelf.names
  /-- The size of the index. -/
  index_fits : (Records.encode 0 shelf.names).length < 2^31
  /-- The sizes of the metadata chunks. -/
  metadata_fits : ∀ file ∈ shelf, (keyBits + 1) * (pieces file.2).length < 2^31

/-- What is free of coincidences was so before. -/
theorem Free.before {shelf shelf' : Shelf} (h : shelf'.Free) (hbefore : shelf <+: shelf') :
    shelf.Free := by
  obtain ⟨rest, rfl⟩ := hbefore
  obtain ⟨hindex, hpiece, hname, hfits, hmetadata⟩ := h
  rw [names_append] at hindex hname hfits
  rw [allPieces_append] at hpiece hname
  rw [Records.encode_append, List.length_append] at hfits
  refine ⟨?_, ?_, ?_, by omega, fun file hfile => hmetadata file (List.mem_append_left _ hfile)⟩
  · exact fun hmem => hindex (List.mem_append_left _ hmem)
  · exact fun hmem => hpiece (List.mem_append_left _ hmem)
  · exact fun piece hmem hmem' =>
      hname piece (List.mem_append_left _ hmem) (List.mem_append_left _ hmem')

/-- The strings whose keys a shelf needs. -/
def hashed (shelf : Shelf) : Set Bytes :=
  { s | s = text "index" ∨ s ∈ shelf.names ∨ s ∈ shelf.allPieces }

theorem hashed_mono {shelf shelf' : Shelf} (hbefore : shelf <+: shelf') :
    shelf.hashed ⊆ shelf'.hashed := by
  obtain ⟨rest, rfl⟩ := hbefore
  intro s hs
  unfold hashed
  rw [names_append, allPieces_append]
  exact hs.imp_right (Or.imp (List.mem_append_left _) (List.mem_append_left _))

end Shelf

/-! ## The map under the files -/

variable {P : Platform} {values : Key → Option Bytes} {shelf : Shelf} {D : Empty → Prop}

/-- The metadata chunk of a file. -/
def Platform.metadata (P : Platform) (content : Bytes) : Bytes :=
  Records.encode 0 ((pieces content).map fun data => (P.keyFromData data).toBytes)

/-- The map holds the files of the shelf, and the index lists some names. -/
structure Stored (P : Platform) (listed : List Bytes) (shelf : Shelf) (values : Key → Option Bytes) :
    Prop where
  /-- The index. -/
  index : values P.indexKey = some (Records.encode 0 listed)
  /-- The metadata chunks. -/
  metadata : ∀ file ∈ shelf, values (P.keyFromString file.1) = some (P.metadata file.2)
  /-- The pieces. -/
  pieces : ∀ piece ∈ shelf.allPieces, values (P.keyFromData piece) = some piece
  /-- Only files of the shelf are listed, the first ones. -/
  listed_first : listed <+: shelf.names
  /-- Names are not empty and have no NUL. -/
  named : ∀ name ∈ shelf.names, name ≠ [] ∧ (0 : UInt8) ∉ name

/-- A get. -/
theorem succeeds_get_map {key : Key} {Q : (Key → Option Bytes) → Option Bytes → Prop}
    (h : Q values (values key)) : Succeeds D (Dht.map.get key) values Q := succeeds_read h

/-- A set. -/
theorem succeeds_set_map {key : Key} {data : Bytes} {force : Bool}
    {Q : (Key → Option Bytes) → Unit → Prop} (h : Q (Function.update values key (some data)) ()) :
    Succeeds D (Dht.map.set key data force) values Q := succeeds_act h

/-- Pieces are set, in any order: where two have the same key, they are the same. -/
theorem succeeds_setPieces (l : List Bytes) (hkeys : Set.InjOn P.keyFromData { data | data ∈ l }) :
    Succeeds D (forM l fun data => Dht.map.set (P.keyFromData data) data false) values
      fun values' _ => (∀ data ∈ l, values' (P.keyFromData data) = some data) ∧
        ∀ key, (∀ data ∈ l, P.keyFromData data ≠ key) → values' key = values key := by
  induction l generalizing values with
  | nil => exact succeeds_pure ⟨by simp, fun _ _ => rfl⟩
  | cons data l ih =>
    have hkeys' : Set.InjOn P.keyFromData { data | data ∈ l } :=
      hkeys.mono fun _ hmem => List.mem_cons_of_mem _ hmem
    rw [List.forM_cons]
    refine Succeeds.bind (succeeds_set_map ((ih hkeys').mono fun values' _ hvalues' => ?_))
    obtain ⟨hset, hframe⟩ := hvalues'
    constructor
    · intro data' hmem
      by_cases hl : data' ∈ l
      · exact hset data' hl
      · obtain rfl : data' = data := (List.mem_cons.1 hmem).resolve_right hl
        -- No later piece has the key, as it would be this one.
        rw [hframe _ fun other hother heq =>
          hl (hkeys List.mem_cons_self (List.mem_cons_of_mem _ hother) heq.symm ▸ hother)]
        exact Function.update_self ..
    · intro key hkey
      rw [hframe key fun other hother => hkey other (List.mem_cons_of_mem _ hother)]
      exact Function.update_of_ne (Ne.symm (hkey data List.mem_cons_self)) ..

/-- A file comes to the shelf if its pieces and its metadata chunk are set, and all else is as
before. -/
theorem stored_append {values' : Key → Option Bytes} {listed : List Bytes} {name content : Bytes}
    (h : Stored P listed shelf values) (hname : name ≠ [] ∧ (0 : UInt8) ∉ name)
    (hnew : name ∉ shelf.names) (hfree : Shelf.Free (shelf ++ [(name, content)]))
    (hmetadata : values' (P.keyFromString name) = some (P.metadata content))
    (hset : ∀ piece ∈ pieces content, values' (P.keyFromData piece) = some piece)
    (hsame : ∀ s ∈ Shelf.hashed (shelf ++ [(name, content)]), s ∉ pieces content →
      s ≠ name → values' (P.keyFromData s) = values (P.keyFromData s)) :
    Stored P listed (shelf ++ [(name, content)]) values' := by
  have hnames : Shelf.names (shelf ++ [(name, content)]) = shelf.names ++ [name] :=
    Shelf.names_append _ _
  have hpieces : Shelf.allPieces (shelf ++ [(name, content)]) =
      shelf.allPieces ++ pieces content := by
    simp [Shelf.allPieces]
  obtain ⟨hindex, hpieceindex, hpiecename, -, -⟩ := hfree
  rw [hnames] at hindex hpiecename
  rw [hpieces] at hpieceindex hpiecename
  constructor
  · have hne : text "index" ≠ name := fun heq => hindex (by simp [heq])
    have hnotpiece : text "index" ∉ pieces content := fun hmem =>
      hpieceindex (List.mem_append_right _ hmem)
    exact (hsame _ (.inl rfl) hnotpiece hne).trans h.index
  · intro file hfile
    rcases List.mem_append.1 hfile with hfile | hfile
    · have hmem : file.1 ∈ shelf.names := List.mem_map_of_mem hfile
      have hne : file.1 ≠ name := fun heq => hnew (heq ▸ hmem)
      have hnotpiece : file.1 ∉ pieces content := fun hpiece =>
        hpiecename _ (List.mem_append_right _ hpiece) (List.mem_append_left _ hmem)
      have hhashed : file.1 ∈ Shelf.hashed (shelf ++ [(name, content)]) :=
        .inr (.inl (by rw [hnames]; exact List.mem_append_left _ hmem))
      exact (hsame _ hhashed hnotpiece hne).trans (h.metadata file hfile)
    · rw [List.mem_singleton.1 hfile]
      exact hmetadata
  · intro piece hpiece
    have hhashed : piece ∈ Shelf.hashed (shelf ++ [(name, content)]) := .inr (.inr hpiece)
    rw [hpieces] at hpiece
    have hne : piece ≠ name := fun heq => hpiecename piece hpiece (by simp [heq])
    by_cases hnewpiece : piece ∈ pieces content
    · exact hset piece hnewpiece
    · have hold := (List.mem_append.1 hpiece).resolve_right hnewpiece
      exact (hsame _ hhashed hnewpiece hne).trans (h.pieces piece hold)
  · rw [hnames]
    exact h.listed_first.trans (List.prefix_append _ _)
  · intro name' hmem
    rw [hnames] at hmem
    rcases List.mem_append.1 hmem with hmem | hmem
    · exact h.named name' hmem
    · rw [List.mem_singleton.1 hmem]
      exact hname

/-- A new file is written under keys that nothing else has. -/
theorem succeeds_writeFromFile {listed : List Bytes} {name content : Bytes}
    (h : Stored P listed shelf values) (hname : name ≠ [] ∧ (0 : UInt8) ∉ name)
    (hnew : name ∉ shelf.names) (hfree : Shelf.Free (shelf ++ [(name, content)]))
    (hsha1 : Set.InjOn P.keyFromData (Shelf.hashed (shelf ++ [(name, content)]))) :
    Succeeds D (P.writeFromFile Dht.map (some ⟨content, false⟩) name) values
      fun values' written => written = true ∧ Stored P listed (shelf ++ [(name, content)]) values' := by
  have hnamemem : name ∈ Shelf.hashed (shelf ++ [(name, content)]) :=
    Or.inr (Or.inl (by
      rw [Shelf.names_append]
      exact List.mem_append_right _ (List.mem_singleton_self _)))
  have hpiecemem : ∀ {s}, s ∈ pieces content → s ∈ Shelf.hashed (shelf ++ [(name, content)]) :=
    fun hs => Or.inr (Or.inr (by simp [Shelf.allPieces, hs]))
  have hpiecename : name ∉ pieces content := fun hpiece => hfree.piece_ne_name name
    (by simp [Shelf.allPieces, hpiece]) (by rw [Shelf.names_append]; simp [Shelf.names])
  unfold Platform.writeFromFile
  refine Succeeds.bind (succeeds_ofExcept (readChunks_eq _ content (Nat.lt_succ_self _)) ?_)
  have hperm := P.order_perm (pieces content)
  have hkeys : Set.InjOn P.keyFromData { data | data ∈ P.order (pieces content) } :=
    hsha1.mono fun data hdata => hpiecemem (hperm.mem_iff.1 hdata)
  refine Succeeds.bind ((succeeds_setPieces _ hkeys).mono fun values' _ hvalues' => ?_)
  obtain ⟨hset, hframe⟩ := hvalues'
  refine Succeeds.bind (succeeds_set_map (succeeds_pure ⟨rfl, ?_⟩))
  -- What does not have the key of the name is as the pieces left it.
  have hother : ∀ s ∈ Shelf.hashed (shelf ++ [(name, content)]), s ≠ name →
      Function.update values' (P.keyFromString name) (some (P.metadata content)) (P.keyFromData s) =
        values' (P.keyFromData s) := fun s hs hne =>
    Function.update_of_ne (fun heq => hne (hsha1 hs hnamemem heq)) _ _
  refine stored_append h hname hnew hfree (Function.update_self ..) (fun piece hpiece => ?_)
    fun s hs hpiece hne => ?_
  · have hne : piece ≠ name := fun heq => hpiecename (heq ▸ hpiece)
    exact (hother piece (hpiecemem hpiece) hne).trans (hset piece (hperm.mem_iff.2 hpiece))
  · refine (hother s hs hne).trans (hframe _ fun data hdata heq => ?_)
    have hdata' := hperm.mem_iff.1 hdata
    exact hpiece (hsha1 (hpiecemem hdata') hs heq ▸ hdata')

/-! ## The commands -/

/-- `file_exists` finds the names that are listed. -/
theorem succeeds_fileExists {listed : List Bytes} (h : Stored P listed shelf values)
    (hfits : (Records.encode 0 listed).length < 2^31) (name : Bytes) :
    Succeeds D (P.fileExists Dht.map name) values
      fun values' found => values' = values ∧ (found = true ↔ name ∈ listed) := by
  have hfree : ∀ r ∈ listed, (0 : UInt8) ∉ r := fun r hr =>
    (h.named r (h.listed_first.subset hr)).2
  have hloop := fileExistsLoop_eq name _ hfits
  rw [Records.decode_encode 0 _ hfree] at hloop
  unfold Platform.fileExists
  refine Succeeds.bind (succeeds_get_map ?_)
  rw [h.index]
  refine Succeeds.bind (succeeds_ofExcept hloop ?_)
  by_cases hname : name ∈ listed
  · rw [if_pos hname]
    exact succeeds_pure ⟨rfl, by simp [hname]⟩
  · rw [if_neg hname]
    exact succeeds_pure ⟨rfl, by simp [hname]⟩

/-- The test of `store_cmd` finds the names of the shelf. -/
theorem succeeds_alreadyStored {listed added : List Bytes} (h : Stored P listed shelf values)
    (hadded : listed ++ added = shelf.names) (hfits : (Records.encode 0 listed).length < 2^31)
    (name : Bytes) :
    Succeeds D (P.alreadyStored Dht.map added name) values
      fun values' found => values' = values ∧ (found = true ↔ name ∈ shelf.names) := by
  unfold Platform.alreadyStored
  rw [← hadded]
  by_cases hmem : name ∈ added
  · rw [if_pos hmem]
    exact succeeds_pure ⟨rfl, by simp [hmem]⟩
  · rw [if_neg hmem]
    refine (succeeds_fileExists h hfits name).mono fun _ _ hr => ⟨hr.1, hr.2.trans ?_⟩
    simp [hmem]

/-- The loop of `store_cmd` puts the files on a shelf, adds the names of those that are new, and says
why the others are left out, as long as the writing of a new file keeps what is known of the map. -/
theorem succeeds_storeFiles {file : Bytes → Option LocalFile} {final : Shelf} {listed : List Bytes}
    {I : Shelf → (Key → Option Bytes) → Prop} {paths added : List Bytes} {cmdErr : Bytes}
    (hstored : ∀ shelf values, I shelf values → Stored P listed shelf values)
    (hwrite : ∀ shelf values, I shelf values → ∀ path ∈ paths, filename path ∉ shelf.names →
      ∀ f, file path = some f → shelf ++ [(filename path, f.bytes)] <+: final →
        Succeeds D (P.writeFromFile Dht.map (some f) (filename path)) values fun values' written =>
          written = true ∧ I (shelf ++ [(filename path, f.bytes)]) values')
    (hfits : (Records.encode 0 final.names).length < 2^31) (h : I shelf values)
    (hadded : listed ++ added = shelf.names)
    (hfinal : (shelf.storeFiles file paths added cmdErr).1 <+: final) :
    Succeeds D (P.storeFiles Dht.map file paths added cmdErr) values fun values' r =>
      r = (shelf.storeFiles file paths added cmdErr).2 ∧
        I (shelf.storeFiles file paths added cmdErr).1 values' ∧
        listed ++ r.1 = (shelf.storeFiles file paths added cmdErr).1.names := by
  induction paths generalizing values shelf added cmdErr with
  | nil => exact succeeds_pure ⟨rfl, h, hadded⟩
  | cons path paths ih =>
    have hrest := fun shelf values h path' hmem =>
      hwrite shelf values h path' (List.mem_cons_of_mem _ hmem)
    have hlisted : listed <+: final.names := (hstored _ _ h).listed_first.trans
      (((Shelf.prefix_storeFiles ..).trans hfinal).map Prod.fst)
    have hindex := (Records.length_encode_le 0 hlisted).trans_lt hfits
    unfold Shelf.storeFiles at hfinal ⊢
    unfold Platform.storeFiles
    refine Succeeds.bind ((succeeds_alreadyStored (hstored _ _ h) hadded hindex _).mono ?_)
    rintro _ found ⟨rfl, hfound⟩
    by_cases hthere : filename path ∈ shelf.names
    · rw [if_pos hthere] at hfinal ⊢
      rw [if_pos (hfound.2 hthere)]
      have herr : cmdErr ++ text "File" ++ path ++
          text " already exists in the current session. Skipping." =
          cmdErr ++ Shelf.existsMessage path := by simp [Shelf.existsMessage]
      rw [herr]
      exact ih hrest h hadded hfinal
    · rw [if_neg hthere] at hfinal ⊢
      rw [if_neg (mt hfound.1 hthere)]
      cases hopen : file path with
      | none =>
        simp only [hopen] at hfinal ⊢
        have herr : cmdErr ++ text "File " ++ path ++
            text " does not exist or read failed. Skipping." =
            cmdErr ++ Shelf.missingMessage path := by simp [Shelf.missingMessage]
        refine Succeeds.bind (succeeds_pure ?_)
        rw [if_neg Bool.false_ne_true, herr]
        exact ih hrest h hadded hfinal
      | some f =>
        simp only [hopen] at hfinal ⊢
        have hnext := (Shelf.prefix_storeFiles ..).trans hfinal
        refine Succeeds.bind ((hwrite _ _ h path List.mem_cons_self hthere f hopen hnext).mono ?_)
        rintro values' written ⟨rfl, h'⟩
        rw [if_pos rfl]
        refine ih hrest h' ?_ hfinal
        rw [Shelf.names_append, ← hadded, List.append_assoc]
        rfl

/-- `store_cmd` puts the files of the call on the shelf, lists those that are new, and reports them.
-/
theorem succeeds_storeCmd (call : StoreCall) (h : Stored P shelf.names shelf values)
    (hfree : (shelf.store call).Free) (hsha1 : Set.InjOn P.keyFromData (shelf.store call).hashed) :
    Succeeds D (P.storeCmd Dht.map call.disk call.paths) values fun values' r =>
      Stored P (shelf.store call).names (shelf.store call) values' ∧
        ∃ added, shelf.names ++ added = (shelf.store call).names ∧ r.success = true ∧
          r.cmdOut = storedReport added := by
  have hshelf : (shelf.storeFiles call.disk call.paths [] []).1 = shelf.store call :=
    Shelf.storeFiles_disk ..
  have hloop : Succeeds D (P.storeFiles Dht.map call.disk call.paths [] []) values fun values' r =>
      Stored P shelf.names (shelf.store call) values' ∧
        shelf.names ++ r.1 = (shelf.store call).names := by
    rw [← hshelf] at hfree hsha1 ⊢
    refine (succeeds_storeFiles (I := Stored P shelf.names) (fun _ _ h => h) ?_ hfree.index_fits h
      (List.append_nil _) (List.prefix_refl _)).mono fun _ _ hr => hr.2
    intro _ _ h path hpath hnew f hopen hnext
    obtain rfl : (⟨call.content path, false⟩ : LocalFile) = f := Option.some.inj hopen
    exact succeeds_writeFromFile h (call.names path hpath) hnew (hfree.before hnext)
      (hsha1.mono (Shelf.hashed_mono hnext))
  refine Succeeds.bind (hloop.mono ?_)
  rintro values' ⟨added, cmdErr⟩ ⟨h', hadded⟩
  have hadd : Succeeds D (P.addFilesToIndexFile Dht.map added) values' fun values'' r =>
      r = true ∧ Stored P (shelf.store call).names (shelf.store call) values'' := by
    refine Succeeds.bind (succeeds_get_map ?_)
    rw [h'.index]
    refine Succeeds.bind (succeeds_set_map (succeeds_pure ⟨rfl, ?_⟩))
    rw [← Records.encode_append, hadded]
    have hindex : text "index" ∈ (shelf.store call).hashed := Or.inl rfl
    constructor
    · exact Function.update_self ..
    · intro file hfile
      have hname : file.1 ∈ (shelf.store call).names := List.mem_map_of_mem hfile
      have hkey : P.keyFromString file.1 ≠ P.indexKey := fun heq =>
        hfree.index_notMem (hsha1 (Or.inr (Or.inl hname)) hindex heq ▸ hname)
      rw [Function.update_of_ne hkey]
      exact h'.metadata file hfile
    · intro piece hpiece
      have hkey : P.keyFromData piece ≠ P.indexKey := fun heq =>
        hfree.piece_ne_index (hsha1 (Or.inr (Or.inr hpiece)) hindex heq ▸ hpiece)
      rw [Function.update_of_ne hkey]
      exact h'.pieces piece hpiece
    · exact List.prefix_refl _
    · exact h'.named
  refine Succeeds.bind (hadd.mono ?_)
  rintro values'' success ⟨rfl, h''⟩
  exact succeeds_pure ⟨h'', added, hadded, rfl, rfl⟩

end Distft
