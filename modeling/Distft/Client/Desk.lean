import Distft.General.Runs
import Distft.Client.Commands
import Distft.Client.Contract

/-!
# What the commands are for

A `Desk` is a shelf and the daemon's disk, and each command does something plain to it: `list` says
the names of the shelf, `store` puts files of the disk on it, and `load` writes files of it to the
disk. Over a map the commands answer what the desk answers, their texts included
(`Shelved.perform`). This needs names and pieces that keep apart (`Apart`), as they share the keys
of the map, and an `int` that counts the bytes of the index and of the metadata chunks
(`Desk.Fits`).
-/

namespace Distft

open Exec

/-! ## The desk -/

namespace Shelf

/-- What the file of a name has. -/
def content (shelf : Shelf) (name : Bytes) : Option Bytes :=
  (shelf.find? fun file => file.1 = name).map Prod.snd

/-- Files of the shelf, one after the other, if all of them are there. -/
def read (shelf : Shelf) : List Bytes → Option Bytes
  | [] => some []
  | name :: names => do
    let data ← shelf.content name
    let rest ← read shelf names
    return data ++ rest

end Shelf

/-- A shelf, and the disk of the daemon. -/
structure Desk where
  /-- The files that are stored. -/
  shelf : Shelf
  /-- The local files. -/
  disk : Disk

namespace Desk

/-- What a command answers, and the desk that it leaves. -/
def perform (desk : Desk) : Dispatch → Option CmdResult × Desk
  | .skipped => (none, desk)
  | .exit => (none, desk)
  | .list => (some ⟨true, [], listReport desk.shelf.names⟩, desk)
  | .store args =>
    let (shelf, added, cmdErr) := desk.shelf.storeFiles desk.disk.file args [] []
    (some ⟨true, cmdErr, storedReport added⟩, { desk with shelf })
  | .load args outputFile =>
    match desk.shelf.read args with
    | none => (some ⟨false, text "Failed to read from files", []⟩, desk)
    | some data =>
      if desk.disk.writable outputFile then
        (some ⟨true, [], text "Successfully loaded all files into output file " ++ outputFile⟩,
          { desk with disk := desk.disk.write outputFile data })
      else (some ⟨false, text "Failed to open output file " ++ outputFile, []⟩, desk)

/-- The desk after commands. -/
def after (desk : Desk) (commands : List Dispatch) : Desk :=
  Runs.run (fun desk command => (desk.perform command).2) desk commands

/-- The answers to commands. -/
def answers (desk : Desk) (commands : List Dispatch) : List (Option CmdResult) :=
  Runs.observed (fun desk command => (desk.perform command).2)
    (fun desk command => (desk.perform command).1) desk commands

/-- An `int` counts the bytes of the index and of each metadata chunk. -/
structure Fits (shelf : Shelf) : Prop where
  /-- The index. -/
  index : (Records.encode 0 shelf.names).length < 2^31
  /-- The metadata chunks. -/
  metadata : ∀ file ∈ shelf, (keyBits + 1) * (pieces file.2).length < 2^31

/-- Some names and pieces. -/
structure Universe where
  /-- The names of files. -/
  names : Set Bytes
  /-- The pieces of files. -/
  pieces : Set Bytes

/-- The strings that are hashed. -/
def Universe.hashed (u : Universe) : Set Bytes :=
  { s | s = text "index" ∨ s ∈ u.names ∨ s ∈ u.pieces }

/-- The strings that are hashed have keys of their own, and no piece is a name or the string
`index`, which is no name. -/
structure Universe.Apart (u : Universe) (P : Platform) : Prop where
  /-- SHA-1 tells them apart. -/
  sha1 : Set.InjOn P.keyFromData u.hashed
  /-- `index` is no name. -/
  index_notMem : text "index" ∉ u.names
  /-- `index` is no piece. -/
  piece_ne_index : text "index" ∉ u.pieces
  /-- No piece is a name. -/
  piece_ne_name : ∀ piece ∈ u.pieces, piece ∉ u.names

/-- The command is about files of the universe: those that are stored are regular, with names that
are not empty and have no NUL. -/
def Within (u : Universe) (desk : Desk) : Dispatch → Prop
  | .store args =>
    (∀ path ∈ args, (filename path ≠ [] ∧ (0 : UInt8) ∉ filename path) ∧ filename path ∈ u.names ∧
      ∀ f, desk.disk.file path = some f →
        f.readsFail = false ∧ ∀ piece ∈ pieces f.bytes, piece ∈ u.pieces) ∧
    Fits (desk.shelf.storeFiles desk.disk.file args [] []).1
  | .load args _ => ∀ name ∈ args, name ∈ u.names
  | _ => True

end Desk

/-! ## The map under the desk -/

open Desk

variable {P : Platform} {u : Universe} {values : Key → Option Bytes} {shelf : Shelf}
variable {listed : List Bytes}
variable {D : Empty → Prop}

/-- The files of a shelf are of the universe. -/
structure Desk.Universe.Has (u : Universe) (shelf : Shelf) : Prop where
  /-- The names. -/
  names : ∀ name ∈ shelf.names, name ∈ u.names
  /-- The pieces. -/
  pieces : ∀ piece ∈ shelf.allPieces, piece ∈ u.pieces

/-- What is hashed for the shelf is of the universe. -/
theorem Desk.Universe.Has.hashed_subset (h : u.Has shelf) : shelf.hashed ⊆ u.hashed :=
  fun s hs => hs.imp_right (Or.imp (h.names s) (h.pieces s))

/-- A shelf of a universe whose strings keep apart is free of coincidences. -/
theorem Desk.Universe.Has.free (h : u.Has shelf) (hu : u.Apart P) (hfits : Fits shelf) : shelf.Free :=
  ⟨fun hmem => hu.index_notMem (h.names _ hmem), fun hmem => hu.piece_ne_index (h.pieces _ hmem),
    fun piece hpiece hmem => hu.piece_ne_name piece (h.pieces piece hpiece) (h.names piece hmem),
    hfits.index, hfits.metadata⟩

/-- A file of the universe is added. -/
theorem Desk.Universe.Has.append (h : u.Has shelf) {name content : Bytes} (hname : name ∈ u.names)
    (hpieces : ∀ piece ∈ Distft.pieces content, piece ∈ u.pieces) :
    u.Has (shelf ++ [(name, content)]) := by
  refine ⟨fun s hs => ?_, fun s hs => ?_⟩
  · rw [Shelf.names_append] at hs
    rcases List.mem_append.1 hs with hs | hs
    · exact h.names s hs
    · exact List.mem_singleton.1 hs ▸ hname
  · rw [Shelf.allPieces_append] at hs
    rcases List.mem_append.1 hs with hs | hs
    · exact h.pieces s hs
    · exact hpieces s (by simpa [Shelf.allPieces] using hs)

/-- What fits did so before. -/
theorem Desk.Fits.before {shelf' : Shelf} (hbefore : shelf <+: shelf') (h : Fits shelf') :
    Fits shelf := by
  obtain ⟨rest, rfl⟩ := hbefore
  refine ⟨?_, fun file hfile => h.metadata file (List.mem_append_left _ hfile)⟩
  refine (Records.length_encode_le 0 ?_).trans_lt h.index
  rw [Shelf.names_append]
  exact List.prefix_append _ _

/-- The map holds the files of the shelf, and nothing else, and the index lists some of them. -/
structure Shelved (P : Platform) (u : Universe) (listed : List Bytes) (shelf : Shelf)
    (values : Key → Option Bytes) : Prop where
  /-- The files. -/
  stored : Stored P listed shelf values
  /-- No two have the same name. -/
  nodup : shelf.names.Nodup
  /-- They are of the universe. -/
  has : u.Has shelf
  /-- Nothing is under other keys. -/
  only : ∀ key, values key ≠ none → ∃ s ∈ shelf.hashed, P.keyFromData s = key

/-- The map keeps what the sets keep. -/
theorem Dht.refines_self (I : (Key → Option Bytes) → Prop) :
    Dht.Refines D (fun values values' => values = values' ∧ I values)
      (fun key data _ => ∀ values, I values → I (Function.update values key (some data)))
      Dht.map Dht.map where
  get key := by
    rintro values _ ⟨rfl, h⟩ -
    exact ⟨rfl, rfl, h⟩
  set key data force hkeeps := by
    rintro values _ ⟨rfl, h⟩ -
    exact ⟨rfl, rfl, hkeeps values h⟩

/-- A set under the key of a hashed string leaves nothing under other keys. -/
theorem only_update {S : Set Bytes} {s : Bytes} (hs : s ∈ S) (data : Bytes)
    (h : ∀ key, values key ≠ none → ∃ s ∈ S, P.keyFromData s = key) :
    ∀ key, Function.update values (P.keyFromData s) (some data) key ≠ none →
      ∃ s ∈ S, P.keyFromData s = key := by
  intro key hkey
  by_cases heq : key = P.keyFromData s
  · exact ⟨s, hs, heq.symm⟩
  · rw [Function.update_of_ne heq] at hkey
    exact h key hkey

namespace Shelved

/-! ## Storing -/

/-- A new file is written. -/
theorem write (h : Shelved P u listed shelf values) (hu : u.Apart P) {name content : Bytes}
    (hname : name ≠ [] ∧ (0 : UInt8) ∉ name) (hmem : name ∈ u.names)
    (hpieces : ∀ piece ∈ pieces content, piece ∈ u.pieces) (hnew : name ∉ shelf.names)
    (hfits : Fits (shelf ++ [(name, content)])) :
    Succeeds D (P.writeFromFile Dht.map (some ⟨content, false⟩) name) values fun values' written =>
      written = true ∧ Shelved P u listed (shelf ++ [(name, content)]) values' := by
  have hhas := h.has.append hmem hpieces
  have hnames : Shelf.names (shelf ++ [(name, content)]) = shelf.names ++ [name] :=
    Shelf.names_append _ _
  have honly : ∀ key, values key ≠ none →
      ∃ s ∈ Shelf.hashed (shelf ++ [(name, content)]), P.keyFromData s = key := fun key hkey =>
    (h.only key hkey).imp fun s hs => ⟨Shelf.hashed_mono (List.prefix_append _ _) hs.1, hs.2⟩
  -- The sets are under keys of strings that are hashed.
  have hkeeps : Simulates D _ (P.writeFromFile Dht.map (some ⟨content, false⟩) name)
      (P.writeFromFile Dht.map (some ⟨content, false⟩) name) :=
    (Dht.refines_self fun values => ∀ key, values key ≠ none →
      ∃ s ∈ Shelf.hashed (shelf ++ [(name, content)]), P.keyFromData s = key).writeFromFile ?_ ?_
  · refine (hkeeps.self ⟨rfl, honly⟩ (succeeds_writeFromFile h.stored hname hnew
      (hhas.free hu hfits) (hu.sha1.mono hhas.hashed_subset))).mono ?_
    rintro values' written ⟨⟨hwritten, hstored⟩, -, honly'⟩
    refine ⟨hwritten, hstored, ?_, hhas, honly'⟩
    rw [hnames]
    exact h.nodup.append (List.nodup_singleton _) (by simpa using hnew)
  · rintro f ⟨⟩ chunks hchunks data hdata values honly
    rw [readChunks_eq _ _ (Nat.lt_succ_self _)] at hchunks
    obtain rfl := Except.ok.inj hchunks
    have hmem' : data ∈ Shelf.allPieces (shelf ++ [(name, content)]) := by
      rw [Shelf.allPieces_append]
      exact List.mem_append_right _ (by simpa [Shelf.allPieces] using hdata)
    exact only_update (Or.inr (Or.inr hmem')) data honly
  · have hmem' : name ∈ Shelf.names (shelf ++ [(name, content)]) := by
      rw [hnames]
      exact List.mem_append_right _ (List.mem_singleton_self _)
    exact fun data values honly => only_update (Or.inr (Or.inl hmem')) data honly

/-- The loop of `store_cmd` puts the files on the shelf that the desk puts there, and says what it
says. -/
theorem storeFiles (hu : u.Apart P) {file : Bytes → Option LocalFile} {paths added : List Bytes}
    {cmdErr : Bytes}
    (hpaths : ∀ path ∈ paths, (filename path ≠ [] ∧ (0 : UInt8) ∉ filename path) ∧
      filename path ∈ u.names ∧ ∀ f, file path = some f →
        f.readsFail = false ∧ ∀ piece ∈ pieces f.bytes, piece ∈ u.pieces)
    (h : Shelved P u listed shelf values) (hadded : listed ++ added = shelf.names)
    (hfits : Fits (shelf.storeFiles file paths added cmdErr).1) :
    Succeeds D (P.storeFiles Dht.map file paths added cmdErr) values fun values' r =>
      r = (shelf.storeFiles file paths added cmdErr).2 ∧
        Shelved P u listed (shelf.storeFiles file paths added cmdErr).1 values' ∧
        listed ++ r.1 = (shelf.storeFiles file paths added cmdErr).1.names := by
  refine succeeds_storeFiles (fun _ _ h => h.stored) ?_ hfits.index h hadded (List.prefix_refl _)
  intro shelf values h path hpath hnew f hopen hnext
  obtain ⟨hname, hmem, hfile⟩ := hpaths path hpath
  obtain ⟨hregular, hpieces⟩ := hfile f hopen
  obtain ⟨content, readsFail⟩ := f
  obtain rfl : readsFail = false := hregular
  exact h.write hu hname hmem hpieces hnew (hfits.before hnext)

/-- The names that were added are listed. -/
theorem addFiles (h : Shelved P u listed shelf values) (hu : u.Apart P) {added : List Bytes}
    (hadded : listed ++ added = shelf.names) :
    Succeeds D (P.addFilesToIndexFile Dht.map added) values fun values' r =>
      r = true ∧ Shelved P u shelf.names shelf values' := by
  have hindex : text "index" ∈ shelf.hashed := Or.inl rfl
  have hne : ∀ s ∈ shelf.hashed, s ≠ text "index" → P.keyFromData s ≠ P.indexKey := fun s hs hne heq =>
    hne (hu.sha1 (h.has.hashed_subset hs) (h.has.hashed_subset hindex) heq)
  refine Succeeds.bind (succeeds_get_map ?_)
  rw [h.stored.index]
  refine Succeeds.bind (succeeds_set_map (succeeds_pure ⟨rfl, ?_⟩))
  rw [← Records.encode_append, hadded]
  refine ⟨⟨Function.update_self .., fun file hfile => ?_, fun piece hpiece => ?_, List.prefix_refl _,
    h.stored.named⟩, h.nodup, h.has, only_update hindex _ h.only⟩
  · have hname : file.1 ∈ shelf.names := List.mem_map_of_mem hfile
    have hkey : P.keyFromString file.1 ≠ P.indexKey := hne _ (Or.inr (Or.inl hname)) fun heq =>
      hu.index_notMem (heq ▸ h.has.names _ hname)
    rw [Function.update_of_ne hkey]
    exact h.stored.metadata file hfile
  · have hkey : P.keyFromData piece ≠ P.indexKey := hne _ (Or.inr (Or.inr hpiece)) fun heq =>
      hu.piece_ne_index (heq ▸ h.has.pieces _ hpiece)
    rw [Function.update_of_ne hkey]
    exact h.stored.pieces piece hpiece

/-! ## Reading -/

/-- Files of the shelf are what their names stand for, or one of the names stands for none. -/
theorem read_cases (shelf : Shelf) (names : List Bytes) :
    (∃ files : Shelf, files ⊆ shelf ∧ files.names = names ∧
      shelf.read names = some (files.flatMap Prod.snd)) ∨
    (∃ name ∈ names, name ∉ shelf.names) ∧ shelf.read names = none := by
  induction names with
  | nil => exact Or.inl ⟨[], List.nil_subset _, rfl, rfl⟩
  | cons name names ih =>
    cases hfind : shelf.find? fun file => file.1 = name with
    | none =>
      refine Or.inr ⟨⟨name, List.mem_cons_self, fun hmem => ?_⟩, ?_⟩
      · obtain ⟨file, hfile, heq⟩ := List.mem_map.1 hmem
        exact absurd heq (by simpa using List.find?_eq_none.1 hfind file hfile)
      · simp [Shelf.read, Shelf.content, hfind]
    | some file =>
      have hname : file.1 = name := by simpa using List.find?_some hfind
      have hcontent : shelf.content name = some file.2 := by simp [Shelf.content, hfind]
      rcases ih with ⟨files, hfiles, hnames, hread⟩ | ⟨⟨other, hother, hmissing⟩, hread⟩
      · refine Or.inl ⟨file :: files, ?_, ?_, ?_⟩
        · exact List.cons_subset.2 ⟨List.mem_of_find?_eq_some hfind, hfiles⟩
        · rw [← hnames, ← hname]
          rfl
        · simp [Shelf.read, hcontent, hread]
      · exact Or.inr ⟨⟨other, List.mem_cons_of_mem _ hother, hmissing⟩, by
          simp [Shelf.read, hcontent, hread]⟩

/-- A metadata chunk is that of one of the files. -/
theorem mem_metadataChunks {files : List Bytes} {chunk : Bytes}
    (h : chunk ∈ P.metadataChunks values files) :
    ∃ file ∈ files, values (P.keyFromString file) = some chunk := by
  induction files with
  | nil => exact absurd h List.not_mem_nil
  | cons file files ih =>
    cases hfile : values (P.keyFromString file) with
    | none =>
      rw [Platform.metadataChunks_cons_none hfile] at h
      exact absurd h List.not_mem_nil
    | some metadata =>
      rw [Platform.metadataChunks_cons_some hfile] at h
      rcases List.mem_cons.1 h with rfl | h
      · exact ⟨file, List.mem_cons_self, hfile⟩
      · obtain ⟨file', hfile', hvalue⟩ := ih h
        exact ⟨file', List.mem_cons_of_mem _ hfile', hvalue⟩

/-- Under the key of a name of the universe there is something exactly if the shelf has the name. -/
theorem metadata_iff (h : Shelved P u listed shelf values) (hu : u.Apart P) {name : Bytes}
    (hname : name ∈ u.names) : values (P.keyFromString name) ≠ none ↔ name ∈ shelf.names := by
  constructor
  · intro hvalue
    obtain ⟨s, hs, hkey⟩ := h.only _ hvalue
    obtain rfl := hu.sha1 (h.has.hashed_subset hs) (Or.inr (Or.inl hname)) hkey
    rcases hs with rfl | hs | hs
    · exact absurd hname hu.index_notMem
    · exact hs
    · exact absurd hname (hu.piece_ne_name _ (h.has.pieces _ hs))
  · intro hmem
    obtain ⟨file, hfile, rfl⟩ := List.mem_map.1 hmem
    rw [h.stored.metadata file hfile]
    exact Option.some_ne_none _

/-- `read_in_files` reads what the shelf has. -/
theorem read (h : Shelved P u listed shelf values) (hu : u.Apart P) (hfits : Fits shelf)
    {names : List Bytes} (hnames : ∀ name ∈ names, name ∈ u.names) :
    P.readInFiles Dht.map names values = ⟨[], values, .ok (shelf.read names)⟩ := by
  rcases read_cases shelf names with ⟨files, hfiles, rfl, hread⟩ | ⟨⟨name, hmem, hmissing⟩, hread⟩
  · have hkeys : ∀ fileKeys ∈ files.map fun file => (pieces file.2).map P.keyFromData,
        (keyBits + 1) * fileKeys.length < 2^31 := by
      intro fileKeys hmem
      obtain ⟨file, hfile, rfl⟩ := List.mem_map.1 hmem
      rw [List.length_map]
      exact hfits.metadata file (hfiles hfile)
    rw [(hasFiles_of_stored h.stored hfiles).readInFiles hkeys, flatten_allPieces, hread]
  · have hnone : values (P.keyFromString name) = none := by
      by_contra hvalue
      exact hmissing ((h.metadata_iff hu (hnames name hmem)).1 hvalue)
    rw [Platform.readInFiles_of_missing_metadata ⟨name, hmem, hnone⟩, hread]
    intro chunk hchunk
    obtain ⟨file, hfile, hvalue⟩ := mem_metadataChunks hchunk
    have hthere := (h.metadata_iff hu (hnames file hfile)).1 (hvalue ▸ Option.some_ne_none _)
    obtain ⟨stored, hstored, rfl⟩ := List.mem_map.1 hthere
    have hmetadata : chunk = metadataOf ((pieces stored.2).map P.keyFromData) := by
      rw [h.stored.metadata stored hstored] at hvalue
      rw [← Option.some.inj hvalue, Platform.metadata, metadataOf, List.map_map]
      rfl
    rw [hmetadata, readable_metadataOf_iff, List.length_map]
    exact hfits.metadata stored hstored

end Shelved

/-! ## Commands -/

/-- Between commands the index lists all names, and the sizes fit. -/
structure Desk.Stands (P : Platform) (u : Universe) (shelf : Shelf) (values : Key → Option Bytes) :
    Prop where
  /-- The map holds the files of the shelf. -/
  shelved : Shelved P u shelf.names shelf values
  /-- The sizes. -/
  fits : Fits shelf

namespace Desk

/-- A command answers what the desk answers. -/
theorem Stands.perform {desk : Desk} (h : Stands P u desk.shelf values) (hu : u.Apart P)
    {command : Dispatch} (hwithin : Within u desk command) :
    Succeeds D (P.perform Dht.map desk.disk command) values fun values' r =>
      r = ((desk.perform command).1, (desk.perform command).2.disk) ∧
        Stands P u (desk.perform command).2.shelf values' := by
  obtain ⟨hshelved, hfits⟩ := h
  cases command with
  | skipped => exact succeeds_pure ⟨rfl, hshelved, hfits⟩
  | exit => exact succeeds_pure ⟨rfl, hshelved, hfits⟩
  | list =>
    have hsame : Simulates D _ (P.getIndexFiles Dht.map) (P.getIndexFiles Dht.map) :=
      (Dht.refines_self (· = values)).getIndexFiles
    refine Succeeds.bind (Succeeds.bind ((hsame.self ⟨rfl, rfl⟩ (succeeds_getIndexFiles hshelved.stored
      (hshelved.has.free hu hfits))).mono ?_))
    rintro values' files ⟨rfl, -, rfl⟩
    exact succeeds_pure (succeeds_pure ⟨rfl, hshelved, hfits⟩)
  | store args =>
    obtain ⟨hpaths, hfits'⟩ := hwithin
    have hstored := hshelved.storeFiles (D := D) hu hpaths (List.append_nil _) hfits'
    refine Succeeds.bind (Succeeds.bind (hstored.mono ?_))
    rintro values' ⟨added, cmdErr⟩ ⟨hspec, h', hadded⟩
    refine Succeeds.bind ((h'.addFiles hu hadded).mono ?_)
    rintro values'' _ ⟨rfl, h''⟩
    refine succeeds_pure (succeeds_pure ⟨?_, h'', hfits'⟩)
    simp only [Desk.perform, ← hspec]
  | load args outputFile =>
    have hread := hshelved.read hu hfits hwithin
    have hrun : Succeeds D (P.readInFiles Dht.map args) values fun values' data =>
        values' = values ∧ data = desk.shelf.read args := fun _ => ⟨_, congrArg Run.result hread,
      congrArg Run.state hread, rfl⟩
    refine Succeeds.bind (Succeeds.bind (hrun.mono ?_))
    rintro _ data ⟨rfl, rfl⟩
    cases hdata : desk.shelf.read args with
    | none =>
      simp only [Desk.perform, hdata]
      exact succeeds_pure (succeeds_pure ⟨rfl, hshelved, hfits⟩)
    | some data =>
      simp only [Desk.perform, hdata]
      split
      · exact succeeds_pure (succeeds_pure ⟨rfl, hshelved, hfits⟩)
      · exact succeeds_pure (succeeds_pure ⟨rfl, hshelved, hfits⟩)

/-- Of the universe, the sets are allowed. -/
structure Universe.Allowed (u : Universe) (P : Platform) (allowed : Key → Bytes → Bool → Prop) :
    Prop where
  /-- The index. -/
  index : ∀ data, allowed P.indexKey data true
  /-- Metadata chunks. -/
  names : ∀ name ∈ u.names, ∀ data, allowed (P.keyFromString name) data true
  /-- Pieces under their keys. -/
  pieces : ∀ piece ∈ u.pieces, allowed (P.keyFromData piece) piece false

/-- So are those of a command about it. -/
theorem Within.allows {allowed : Key → Bytes → Bool → Prop} (hallowed : u.Allowed P allowed)
    {desk : Desk} {command : Dispatch} (h : Within u desk command) :
    Dht.Refines.Allows P allowed desk.disk command := by
  cases command with
  | store args =>
    refine ⟨fun path hpath f hf chunks hchunks data hdata => ?_, fun path hpath data => ?_⟩
    · obtain ⟨-, -, hfile⟩ := h.1 path hpath
      obtain ⟨hregular, hpieces⟩ := hfile f hf
      obtain ⟨content, readsFail⟩ := f
      obtain rfl : readsFail = false := hregular
      rw [readChunks_eq _ _ (Nat.lt_succ_self _)] at hchunks
      exact hallowed.pieces data (hpieces data (Except.ok.inj hchunks ▸ hdata))
    · exact hallowed.names _ (h.1 path hpath).2.1 data
  | _ => trivial

variable {ε σ : Type} {E : ε → Prop} {R : σ → (Key → Option Bytes) → Prop}
variable {allowed : Key → Bytes → Bool → Prop} {s : Dht ε σ} {t : σ}

/-- Over a DHT that runs as the map does, commands answer what the desk answers. -/
theorem Stands.performAll (hs : Dht.Refines E R allowed s Dht.map) (hu : u.Apart P)
    (hallowed : u.Allowed P allowed) {desk : Desk} (h : Stands P u desk.shelf values) (hR : R t values)
    {commands : List Dispatch}
    (hwithin : Runs.AllSteps (fun desk command => (desk.perform command).2) (Within u) desk commands) :
    Succeeds E (P.performAll s desk.disk commands) t fun _ r =>
      r = (desk.answers commands, (desk.after commands).disk) := by
  induction commands generalizing desk values t with
  | nil => exact succeeds_pure rfl
  | cons command commands ih =>
    obtain ⟨hfirst, hrest⟩ := (Runs.allSteps_cons _ _ _ _).1 hwithin
    have hperform :=
      (hs.perform hallowed.index (hfirst.allows hallowed)).succeeds hR (h.perform hu hfirst)
    refine Succeeds.bind (hperform.mono ?_)
    rintro t' _ ⟨values', hR', rfl, h'⟩
    refine Succeeds.bind ((ih h' hR' hrest).mono ?_)
    rintro t'' _ rfl
    exact succeeds_pure rfl

/-- An empty map, with the index that `init_index_file` sets. -/
theorem stands_init (P : Platform) (u : Universe) :
    Succeeds D (P.initIndexFile Dht.map) (fun _ => none) fun values' _ => Stands P u [] values' := by
  have hindex : text "index" ∈ Shelf.hashed [] := Or.inl rfl
  refine Succeeds.bind (succeeds_set_map (succeeds_pure ⟨⟨?_, List.nodup_nil, ?_, ?_⟩, ?_⟩))
  · exact ⟨Function.update_self .., by simp, by simp [Shelf.allPieces], List.nil_prefix,
      by simp [Shelf.names]⟩
  · exact ⟨by simp [Shelf.names], by simp [Shelf.allPieces]⟩
  · exact only_update hindex [] fun key hkey => absurd rfl hkey
  · exact ⟨by simp [Shelf.names], by simp⟩

/-- The daemon over a DHT that runs as an empty map does answers what the desk answers. -/
theorem succeeds_daemonRun (hs : Dht.Refines E R allowed s Dht.map) (hu : u.Apart P)
    (hallowed : u.Allowed P allowed) (hR : R t fun _ => none) {disk : Disk} {commands : List Dispatch}
    (hwithin : Runs.AllSteps (fun desk command => (desk.perform command).2) (Within u) ⟨[], disk⟩
      (commands.takeWhile (· ≠ .exit))) :
    Succeeds E (P.daemonRun s disk commands) t fun _ r =>
      r = ((⟨[], disk⟩ : Desk).answers (commands.takeWhile (· ≠ .exit)),
        ((⟨[], disk⟩ : Desk).after (commands.takeWhile (· ≠ .exit))).disk) := by
  have hinit := (hs.initIndexFile hallowed.index).succeeds hR (stands_init P u)
  refine Succeeds.bind (hinit.mono ?_)
  rintro t' _ ⟨values', hR', h'⟩
  exact h'.performAll hs hu hallowed hR' hwithin

end Desk

/-- For commands about files whose names and pieces keep apart, the daemon over a map answers what a
plain shelf of files answers, with the texts of the code, and leaves the same files on its disk. -/
theorem daemonRun_desk (P : Platform) (u : Universe) (hu : u.Apart P) (disk : Disk)
    (commands : List Dispatch)
    (hwithin : Runs.AllSteps (fun desk command => (desk.perform command).2) (Within u) ⟨[], disk⟩
      (commands.takeWhile (· ≠ .exit))) :
    (P.daemonRun Dht.map disk commands fun _ => none).result =
      .ok ((⟨[], disk⟩ : Desk).answers (commands.takeWhile (· ≠ .exit)),
        ((⟨[], disk⟩ : Desk).after (commands.takeWhile (· ≠ .exit))).disk) := by
  have hs := Dht.refines_self (D := fun _ => True) fun _ => True
  obtain ⟨r, hr, rfl⟩ := succeeds_daemonRun hs hu ⟨fun _ _ _ => trivial, fun _ _ _ _ _ => trivial,
    fun _ _ _ _ => trivial⟩ ⟨rfl, trivial⟩ hwithin fun _ _ => trivial
  exact hr

/-- The universe of a file `a` that has `hello`, and of a file that is missing. -/
def helloUniverse : Universe := ⟨{ s | s ∈ [text "a", text "missing"] }, { s | s ∈ [text "hello"] }⟩

/-- A disk with two files, of one name. -/
def helloDisk : Disk where
  file path := if path = text "dir/a" ∨ path = text "b/a" then some ⟨text "hello", false⟩ else none
  writable path := path = text "out"

/-- A file is stored and loaded; others are refused, or missing. -/
def helloCommands : List Dispatch :=
  [.store [text "dir/a", text "dir/missing", text "b/a"], .list,
    .load [text "a", text "a"] (text "out"), .load [text "missing"] (text "out"), .exit, .list]

theorem helloUniverse_apart : helloUniverse.Apart inOrder := by
  have hkeys : ∀ s ∈ [text "index", text "a", text "missing", text "hello"],
      ∀ s' ∈ [text "index", text "a", text "missing", text "hello"],
        inOrder.keyFromData s = inOrder.keyFromData s' → s = s' := by decide +kernel
  have hhashed : ∀ s ∈ helloUniverse.hashed,
      s ∈ [text "index", text "a", text "missing", text "hello"] := by
    intro s hs
    simpa [Universe.hashed, helloUniverse, or_assoc] using hs
  refine ⟨fun s hs s' hs' heq => hkeys s (hhashed s hs) s' (hhashed s' hs') heq, ?_, ?_, ?_⟩
  · show text "index" ∉ [text "a", text "missing"]
    decide +kernel
  · show text "index" ∉ [text "hello"]
    decide +kernel
  · show ∀ piece ∈ [text "hello"], piece ∉ [text "a", text "missing"]
    decide +kernel

/-- Storing from the disk of `hello` is within the universe. -/
theorem helloStore_within {paths : List Bytes}
    (hpaths : ∀ path ∈ paths, (filename path ≠ [] ∧ (0 : UInt8) ∉ filename path) ∧
      filename path ∈ [text "a", text "missing"])
    (hshelf : (Shelf.storeFiles helloDisk.file [] paths [] []).1 = [(text "a", text "hello")]) :
    Within helloUniverse ⟨[], helloDisk⟩ (.store paths) := by
  refine ⟨fun path hpath => ⟨(hpaths path hpath).1, (hpaths path hpath).2, fun f hf => ?_⟩, ?_⟩
  · have hhello : f = ⟨text "hello", false⟩ := by
      simp only [helloDisk] at hf
      split at hf
      · exact (Option.some.inj hf).symm
      · exact nomatch hf
    rw [hhello]
    refine ⟨rfl, ?_⟩
    show ∀ piece ∈ pieces (text "hello"), piece ∈ [text "hello"]
    decide +kernel
  · rw [hshelf]
    exact ⟨by decide +kernel, by decide +kernel⟩

theorem helloCommands_within :
    Runs.AllSteps (fun desk command => (desk.perform command).2) (Within helloUniverse) ⟨[], helloDisk⟩
      (helloCommands.takeWhile (· ≠ .exit)) := by
  have hcommands : helloCommands.takeWhile (· ≠ .exit) =
      [.store [text "dir/a", text "dir/missing", text "b/a"], .list,
        .load [text "a", text "a"] (text "out"), .load [text "missing"] (text "out")] := by
    decide +kernel
  rw [hcommands]
  simp only [Runs.allSteps_cons, Runs.allSteps_nil, and_true]
  refine ⟨helloStore_within (by decide +kernel) (by decide +kernel), trivial, ?_, ?_⟩
  · show ∀ name ∈ [text "a", text "a"], name ∈ [text "a", text "missing"]
    decide +kernel
  · show ∀ name ∈ [text "missing"], name ∈ [text "a", text "missing"]
    decide +kernel

/-- The daemon stores one of three files, lists it, loads it twice, and does not find the missing
one. -/
theorem daemonRun_desk_hello :
    (inOrder.daemonRun Dht.map helloDisk helloCommands fun _ => none).result =
      .ok ((⟨[], helloDisk⟩ : Desk).answers (helloCommands.takeWhile (· ≠ .exit)),
        ((⟨[], helloDisk⟩ : Desk).after (helloCommands.takeWhile (· ≠ .exit))).disk) :=
  daemonRun_desk inOrder helloUniverse helloUniverse_apart helloDisk helloCommands helloCommands_within

end Distft
