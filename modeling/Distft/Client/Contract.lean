import Distft.Client.Reading
import Distft.Client.Store

/-!
# Listing and reading what was stored

Where the map stands for a shelf, `get_index_files` lists the names of the shelf, and `read_in_files`
reads the contents of its files. With the runs of `store_cmd` this is the contract of the file store.
-/

namespace Distft

open Exec

variable {P : Platform} {values : Key → Option Bytes} {shelf : Shelf} {D : Empty → Prop}

/-! ## Listing and reading -/

/-- `get_index_files` lists the names of the shelf. -/
theorem succeeds_getIndexFiles (h : Stored P shelf.names shelf values) (hfree : shelf.Free) :
    Succeeds D (P.getIndexFiles Dht.map) values fun _ files => files = some shelf.names := by
  have hnul : ∀ r ∈ shelf.names, (0 : UInt8) ∉ r := fun r hr => (h.named r hr).2
  have hkept : shelf.names.filter (0 < ·.length) = shelf.names := by
    rw [List.filter_eq_self]
    exact fun r hr => decide_eq_true (List.length_pos_iff.2 (h.named r hr).1)
  have hloop := indexFilesLoop_eq [] _ hfree.index_fits
  rw [Records.decode_encode 0 _ hnul, hkept, List.nil_append] at hloop
  unfold Platform.getIndexFiles
  refine Succeeds.bind (succeeds_get_map ?_)
  rw [h.index]
  exact Succeeds.bind (succeeds_ofExcept hloop (succeeds_pure rfl))

/-- The map has the files of the shelf. -/
theorem hasFiles_of_stored {listed : List Bytes} (h : Stored P listed shelf values) {files : Shelf}
    (hfiles : files ⊆ shelf) :
    P.HasFiles values files.names (files.map fun file => (pieces file.2).map P.keyFromData)
      files.allPieces := by
  constructor
  · unfold Shelf.names
    rw [List.map_map, List.map_map]
    apply List.map_congr_left
    intro file hfile
    have hmetadata : P.metadata file.2 = metadataOf ((pieces file.2).map P.keyFromData) := by
      rw [Platform.metadata, metadataOf, List.map_map]
      rfl
    exact (h.metadata file (hfiles hfile)).trans (congrArg some hmetadata)
  · have hkeys : (files.map fun file => (pieces file.2).map P.keyFromData).flatten =
        files.allPieces.map P.keyFromData := by
      rw [Shelf.allPieces, List.map_flatMap, ← List.flatMap_def]
    rw [hkeys, List.map_map]
    apply List.map_congr_left
    intro piece hpiece
    obtain ⟨file, hfile, hmem⟩ := List.mem_flatMap.1 hpiece
    exact h.pieces piece (List.mem_flatMap.2 ⟨file, hfiles hfile, hmem⟩)

/-- The pieces of files make up the files. -/
theorem flatten_allPieces (files : Shelf) : files.allPieces.flatten = files.flatMap Prod.snd := by
  unfold Shelf.allPieces
  induction files with
  | nil => rfl
  | cons file files ih =>
    rw [List.flatMap_cons, List.flatten_append, flatten_pieces, ih, List.flatMap_cons]

/-- `read_in_files` reads files of the shelf, one after the other. -/
theorem readInFiles_of_stored {listed : List Bytes} (h : Stored P listed shelf values)
    (hfree : shelf.Free) {files : Shelf} (hfiles : files ⊆ shelf) :
    (P.readInFiles Dht.map files.names values).result = .ok (some (files.flatMap Prod.snd)) := by
  have hfits : ∀ fileKeys ∈ files.map fun file => (pieces file.2).map P.keyFromData,
      (keyBits + 1) * fileKeys.length < 2^31 := by
    intro fileKeys hmem
    obtain ⟨file, hfile, rfl⟩ := List.mem_map.1 hmem
    rw [List.length_map]
    exact hfree.metadata_fits file (hfiles hfile)
  rw [(hasFiles_of_stored h hfiles).readInFiles hfits, flatten_allPieces]

/-! ## Runs -/

namespace Platform

variable {ε σ : Type} (P : Platform) (s : Dht ε σ)

/-- Calls of `store_cmd`, one after the other. -/
def storeCmds : List StoreCall → Exec ε Fault σ (List CmdResult)
  | [] => return []
  | call :: calls => do
    let result ← P.storeCmd s call.disk call.paths
    let results ← storeCmds calls
    return result :: results

/-- A run of the file store: `init_index_file`, and then calls of `store_cmd`. -/
def storeRun (calls : List StoreCall) : Exec ε Fault σ (List CmdResult) := do
  let _ ← P.initIndexFile s
  P.storeCmds s calls

/-- After calls of `store_cmd`, which all return true and report the names of files, these are the
names that are listed, each of them once, and any of the files are read as they were when they were
stored. -/
def KeepsFiles (values : Key → Option Bytes) (calls : List StoreCall) : Prop :=
  let shelf := Runs.run Shelf.store [] calls
  let r := P.storeRun Dht.map calls values
  ∃ reported : List (List Bytes),
    (∃ results, r.result = .ok results ∧ results.map (fun c => (c.success, c.cmdOut)) =
      reported.map fun names => (true, storedReport names)) ∧
    (P.getIndexFiles Dht.map r.state).result = .ok (some reported.flatten) ∧
    reported.flatten.Nodup ∧
    reported.flatten = shelf.names ∧
    ∀ files : Shelf, files ⊆ shelf →
      (P.readInFiles Dht.map files.names r.state).result = .ok (some (files.flatMap Prod.snd))

end Platform

/-- Calls of `store_cmd` put their files on the shelf, and report those that are new. -/
theorem succeeds_storeCmds (calls : List StoreCall) (h : Stored P shelf.names shelf values)
    (hfree : (Runs.run Shelf.store shelf calls).Free)
    (hsha1 : Set.InjOn P.keyFromData (Runs.run Shelf.store shelf calls).hashed) :
    Succeeds D (P.storeCmds Dht.map calls) values fun values' results =>
      Stored P (Runs.run Shelf.store shelf calls).names (Runs.run Shelf.store shelf calls) values' ∧
        ∃ reported : List (List Bytes),
          results.map (fun c => (c.success, c.cmdOut)) =
            reported.map (fun names => (true, storedReport names)) ∧
          shelf.names ++ reported.flatten = (Runs.run Shelf.store shelf calls).names := by
  induction calls generalizing values shelf with
  | nil => exact succeeds_pure ⟨h, [], rfl, List.append_nil _⟩
  | cons call calls ih =>
    have hbefore := Shelf.prefix_storeAll (shelf.store call) calls
    rw [Runs.run_cons] at hfree hsha1 ⊢
    have hsha1' := hsha1.mono (Shelf.hashed_mono hbefore)
    refine Succeeds.bind ((succeeds_storeCmd call h (hfree.before hbefore) hsha1').mono ?_)
    rintro values' result ⟨h', added, hadded, hsuccess, hcmdOut⟩
    refine Succeeds.bind ((ih h' hfree hsha1).mono ?_)
    rintro values'' results ⟨h'', reported, hresults, hreported⟩
    refine succeeds_pure ⟨h'', added :: reported, ?_, ?_⟩
    · rw [List.map_cons, List.map_cons, hresults, hsuccess, hcmdOut]
    · rw [List.flatten_cons, ← List.append_assoc, hadded, hreported]

/-- If SHA-1 tells the strings apart that are hashed, and the files that were put on the shelf are
free of coincidences, the contract holds after each of the calls. -/
theorem storeCmds_contract (P : Platform) (values : Key → Option Bytes) (calls : List StoreCall)
    (hsha1 : Set.InjOn P.keyFromData (Runs.run Shelf.store [] calls).hashed)
    (hfree : (Runs.run Shelf.store [] calls).Free) :
    ∀ calls', calls' <+: calls → P.KeepsFiles values calls' := by
  rintro calls' ⟨rest, rfl⟩
  have hbefore : Runs.run Shelf.store [] calls' <+: Runs.run Shelf.store [] (calls' ++ rest) := by
    rw [Runs.run_append]
    exact Shelf.prefix_storeAll _ rest
  have hfree' := hfree.before hbefore
  have hsha1' := hsha1.mono (Shelf.hashed_mono hbefore)
  have hinit : Stored P [] [] (Function.update values P.indexKey (some [])) :=
    ⟨Function.update_self .., by simp, by simp [Shelf.allPieces], List.nil_prefix, by simp [Shelf.names]⟩
  have hrun := @succeeds_storeCmds P _ [] (fun _ => True) calls' hinit hfree' hsha1'
  have hall : Succeeds (fun _ => True) (P.storeRun Dht.map calls') values _ :=
    Succeeds.bind (Succeeds.bind (succeeds_set_map (succeeds_pure hrun)))
  obtain ⟨results, hresults, hstored, reported, hreport, hnames⟩ := hall fun _ _ => trivial
  rw [show Shelf.names [] = [] from rfl, List.nil_append] at hnames
  refine ⟨reported, ⟨results, hresults, hreport⟩, ?_, ?_, hnames, fun files hfiles => ?_⟩
  · obtain ⟨files, hfiles, rfl⟩ := @succeeds_getIndexFiles P _ _ (fun _ => True) hstored hfree'
      fun _ _ => trivial
    rw [hfiles, hnames]
  · rw [hnames]
    exact Shelf.nodup_storeAll calls'
  · exact readInFiles_of_stored hstored hfree' hfiles

/-- The SHA-1 digests of the string `index`, the name `a`, the bytes `hello`, and no bytes. -/
def digests (data : Bytes) : Vector UInt8 20 :=
  if data = text "index" then
    #v[229, 64, 205, 209, 50, 139, 43, 33, 226, 154, 149, 64, 92, 48, 27, 147, 19, 183, 195, 70]
  else if data = text "a" then
    #v[134, 247, 228, 55, 250, 165, 167, 252, 225, 93, 29, 220, 185, 234, 234, 234, 55, 118, 103, 184]
  else if data = text "hello" then
    #v[170, 244, 198, 29, 220, 197, 232, 162, 218, 190, 222, 15, 59, 72, 44, 217, 174, 169, 67, 77]
  else #v[218, 57, 163, 238, 94, 107, 75, 13, 50, 85, 191, 239, 149, 96, 24, 144, 175, 216, 7, 9]

/-- A platform that runs threads in the order in which they were started. -/
def inOrder : Platform where
  sha1 := digests
  order l := l
  order_perm := List.Perm.refl

/-- A call of `store_cmd` for a file `a` that has `hello`. -/
def storeHello : StoreCall where
  paths := [text "dir/a"]
  content _ := text "hello"
  names := by decide +kernel

/-- The file `a` is stored, listed, and read. -/
theorem storeCmds_contract_hello : inOrder.KeepsFiles (fun _ => none) [storeHello] := by
  have hshelf : Runs.run Shelf.store [] [storeHello] = [(text "a", text "hello")] := by decide +kernel
  have hsha1 : Set.InjOn inOrder.keyFromData (Runs.run Shelf.store [] [storeHello]).hashed := by
    have hkeys : ∀ s ∈ [text "index", text "a", text "hello"],
        ∀ s' ∈ [text "index", text "a", text "hello"],
          inOrder.keyFromData s = inOrder.keyFromData s' → s = s' := by decide +kernel
    have hhashed : ∀ s ∈ (Runs.run Shelf.store [] [storeHello]).hashed,
        s ∈ [text "index", text "a", text "hello"] := by
      have hnames : Shelf.names [(text "a", text "hello")] = [text "a"] := rfl
      have hpieces : Shelf.allPieces [(text "a", text "hello")] = [text "hello"] := by decide +kernel
      intro s hs
      unfold Shelf.hashed at hs
      rw [hshelf, hnames, hpieces] at hs
      simpa using hs
    exact fun s hs s' hs' h => hkeys s (hhashed s hs) s' (hhashed s' hs') h
  have hfree : (Runs.run Shelf.store [] [storeHello]).Free := by
    rw [hshelf]
    exact ⟨by decide +kernel, by decide +kernel, by decide +kernel, by decide +kernel,
      by decide +kernel⟩
  exact storeCmds_contract inOrder (fun _ => none) [storeHello] hsha1 hfree _ (List.prefix_refl _)

/-- A call of `store_cmd` for an empty file `index`. -/
def storeIndex : StoreCall where
  paths := [text "index"]
  content _ := []
  names := by decide +kernel

/-- An empty file `index` is stored and reported, but then a second name is listed: the key of its
piece, which its metadata chunk put in the place of the index. -/
theorem not_keepsFiles :
    let r := inOrder.storeRun Dht.map [storeIndex] fun _ => none
    Set.InjOn inOrder.keyFromData { s | s = text "index" ∨ s = [] } ∧
      r.result = .ok [⟨true, [], storedReport [text "index"]⟩] ∧
      (inOrder.getIndexFiles Dht.map r.state).result =
        .ok (some [(inOrder.keyFromData []).toBytes, text "index"]) ∧
      ¬inOrder.KeepsFiles (fun _ => none) [storeIndex] := by
  have hkey : inOrder.keyFromData (text "index") ≠ inOrder.keyFromData [] := by decide +kernel
  have hlist : (inOrder.getIndexFiles Dht.map
      (inOrder.storeRun Dht.map [storeIndex] fun _ => none).state).result =
        .ok (some [(inOrder.keyFromData []).toBytes, text "index"]) := by decide +kernel
  refine ⟨?_, by decide +kernel, hlist, ?_⟩
  · rintro s (rfl | rfl) s' (rfl | rfl) h
    · rfl
    · exact absurd h hkey
    · exact absurd h.symm hkey
    · rfl
  · rintro ⟨reported, -, hlisted, -, hnames, -⟩
    have hshelf : (Runs.run Shelf.store [] [storeIndex]).names = [text "index"] := by decide +kernel
    rw [hlist, hnames, hshelf] at hlisted
    exact absurd hlisted (by decide +kernel)

end Distft
