import Mathlib.Data.List.DropRight
import Fcopy.Schemes.Numerals
import Fcopy.Schemes.Scan
import Fcopy.Server.FileManager

/-! The files to send (`load_files`, `load_dir`, `load_file` in `common/utils.cpp`).

    A file system that does not change, with directories in the order the system lists them; it is given
    by what the library calls answer for a path, so symbolic links may lead anywhere, also back. Every
    command-line path is scanned depth first, and all share one `LoadState`:

        paths ──▶ file      ──▶ readable? ──▶ canonical path seen? ──▶ files
              └─▶ directory ──▶ depth > max_depth? ──▶ its entries, one by one
              └─▶ other

    Whatever goes wrong is thrown, and ends the scan with the files found so far. -/

namespace Fcopy
open Relay

def EACCES : ℕ := 13

/-- `fs::filesystem_error`. -/
structure FsError where
  what : String
  path1 : Bytes
  code : ℕ := 0
  deriving DecidableEq

inductive FileType where
  | directory
  | regular
  | other
  deriving DecidableEq

/-- The answers of `std::filesystem` and `access`. A directory that cannot be listed to its end has an
    error behind the entries. -/
structure FileSystem where
  status : Bytes → Except FsError FileType
  entries : Bytes → List Bytes × Option FsError
  readable : Bytes → Bool
  canonical : Bytes → Except FsError Bytes
  fileSize : Bytes → Except FsError ℕ

structure FileDesc where
  name : Bytes
  dir : Bytes
  path : Bytes
  fullpath : Bytes
  size : ℕ
  deriving DecidableEq

structure LoadState where
  maxDepth : ℕ
  maxFiles : ℕ
  uniquePath : Finset Bytes
  files : List FileDesc

/-- What has been thrown, and the state then. -/
abbrev Loaded := Option FsError × LoadState

/-! ### `path::filename` and `path::parent_path` -/

def filename (p : Bytes) : Bytes := p.rtakeWhile (· ≠ slash)

/-- The path up to the last separators; the root directory stays. -/
def parentPath (p : Bytes) : Bytes :=
  if p.all (· = slash) then p
  else
    let stem := p.rdropWhile (· ≠ slash)
    let dir := stem.rdropWhile (· = slash)
    if dir = [] then stem.take 1 else dir

section
variable (fs : FileSystem)

/-! ### The three functions -/

/-- The first part of `load_file`: all that it does with the file. -/
def describe (path : Bytes) : Except FsError FileDesc :=
  if fs.readable path then do
    let fullpath ← fs.canonical path
    let size ← fs.fileSize path
    return { name := filename path, dir := parentPath path, path, fullpath, size }
  else .error ⟨"No read permission", path, EACCES⟩

def loadFile (path : Bytes) (state : LoadState) : Loaded :=
  match describe fs path with
  | .error e => (some e, state)
  | .ok desc =>
    if desc.fullpath ∈ state.uniquePath then (some ⟨"Duplicate files", path, 0⟩, state)
    else
      (none, { state with
        uniquePath := insert desc.fullpath state.uniquePath, files := state.files ++ [desc] })

/-- The loop over paths, until something is thrown. -/
def loadEach (load : Bytes → LoadState → Loaded) : List Bytes → LoadState → Loaded
  | [], state => (none, state)
  | path :: paths, state =>
    match load path state with
    | (none, state) => loadEach load paths state
    | thrown => thrown

/-- The branches on the type of an entry, the same in `load_dir` and `load_files`. -/
def loadEntry (loadDir : Bytes → LoadState → Loaded) (path : Bytes) (state : LoadState) : Loaded :=
  match fs.status path with
  | .error e => (some e, state)
  | .ok .directory => loadDir path state
  | .ok .regular => loadFile fs path state
  | .ok .other => (some ⟨"Unsupported file type", path, 0⟩, state)

/-- The paths of the entries of a directory. -/
def entryPaths (path : Bytes) : List Bytes := (fs.entries path).1.map (joinPath path)

/-- `load_dir`. The number is `max_depth + 1 - depth`, so the check fails where it is zero. -/
def loadDir : ℕ → Bytes → LoadState → Loaded
  | 0, path, state => (some ⟨"Traversing folders encountered maximum depth", path, 0⟩, state)
  | left + 1, path, state =>
    match loadEach (loadEntry fs (loadDir left)) (entryPaths fs path) state with
    | (none, state) => ((fs.entries path).2, state)
    | thrown => thrown

def loadFiles (paths : List Bytes) (files : List FileDesc) : Loaded :=
  let state : LoadState := { maxDepth := 16, maxFiles := 65536, uniquePath := ∅, files }
  loadEach (loadEntry fs (loadDir fs state.maxDepth)) paths state

/-! ### What is scanned -/

/-- A path as a node of the scan. -/
def look (path : Bytes) : Scan.Node Bytes FsError FileDesc :=
  match fs.status path with
  | .error e => .leaf (.error e)
  | .ok .directory => .branch (entryPaths fs path) (fs.entries path).2
  | .ok .regular => .leaf (describe fs path)
  | .ok .other => .leaf (.error ⟨"Unsupported file type", path, 0⟩)

def tooDeep (path : Bytes) : FsError := ⟨"Traversing folders encountered maximum depth", path, 0⟩

/-- What the traversal meets, in order. -/
def traversal (paths : List Bytes) : List (Except FsError FileDesc) :=
  paths.flatMap (Scan.items (look fs) tooDeep 16)

/-- `path` is an entry of the directory `dir`. -/
def Entry (dir path : Bytes) : Prop := fs.status dir = .ok .directory ∧ path ∈ entryPaths fs dir

end

/-- The collection of the library, on a `LoadState`. -/
def LoadState.collect (state : LoadState) (items : List (Except FsError FileDesc)) : Loaded :=
  let (thrown, uniquePath, files) := Scan.collect FileDesc.fullpath
    (fun desc => ⟨"Duplicate files", desc.path, 0⟩) items state.uniquePath state.files
  (thrown, { state with uniquePath, files })

variable {fs : FileSystem} {path : Bytes} {paths : List Bytes} {state : LoadState}

/-! ### One entry -/

theorem describe_path {desc : FileDesc} (h : describe fs path = .ok desc) :
    desc.path = path ∧ fs.readable path = true ∧ fs.canonical path = .ok desc.fullpath ∧
      fs.fileSize path = .ok desc.size := by
  rw [describe] at h
  split at h
  · rename_i hread
    cases hc : fs.canonical path with
    | error e =>
      rw [hc] at h
      cases h
    | ok fullpath =>
      cases hs : fs.fileSize path with
      | error e =>
        rw [hc, hs] at h
        cases h
      | ok size =>
        rw [hc, hs] at h
        cases h
        exact ⟨rfl, hread, rfl, rfl⟩
  · cases h

theorem collect_append (xs ys : List (Except FsError FileDesc)) (state : LoadState) :
    state.collect (xs ++ ys) =
      match state.collect xs with
      | (none, state) => state.collect ys
      | thrown => thrown := by
  simp only [LoadState.collect, Scan.collect_append]
  obtain ⟨thrown, keys, files⟩ := Scan.collect FileDesc.fullpath
    (fun desc => (⟨"Duplicate files", desc.path, 0⟩ : FsError)) xs state.uniquePath state.files
  cases thrown <;> rfl

theorem loadFile_collect (path : Bytes) (state : LoadState) :
    loadFile fs path state = state.collect [describe fs path] := by
  rw [loadFile, LoadState.collect]
  cases h : describe fs path with
  | error e => rfl
  | ok desc =>
    simp only [Scan.collect, (describe_path h).1]
    split <;> rfl

theorem loadEach_collect {load : Bytes → LoadState → Loaded} {g : Bytes → List (Except FsError FileDesc)}
    (hload : ∀ path state, load path state = state.collect (g path)) :
    ∀ (paths : List Bytes) (state : LoadState), loadEach load paths state = state.collect (paths.flatMap g)
  | [], state => rfl
  | path :: paths, state => by
    rw [loadEach, List.flatMap_cons, collect_append, hload]
    obtain ⟨thrown, state'⟩ := state.collect (g path)
    cases thrown with
    | none => exact loadEach_collect hload paths state'
    | some e => rfl

/-- A path that is no directory. -/
theorem loadEntry_leaf (load : Bytes → LoadState → Loaded) (state : LoadState)
    (hne : fs.status path ≠ .ok .directory) :
    ∃ a, look fs path = .leaf a ∧ loadEntry fs load path state = state.collect [a] := by
  rw [look, loadEntry]
  split
  · exact ⟨_, rfl, rfl⟩
  · exact absurd ‹_› hne
  · exact ⟨_, rfl, loadFile_collect path state⟩
  · exact ⟨_, rfl, rfl⟩

/-- CORRECT (scan): the recursion collects what the scan meets. -/
theorem loadEntry_collect : ∀ (left : ℕ) (path : Bytes) (state : LoadState),
    loadEntry fs (loadDir fs left) path state =
      state.collect (Scan.items (look fs) tooDeep left path) := by
  have hleaf : ∀ (left : ℕ) (path : Bytes) (state : LoadState), fs.status path ≠ .ok .directory →
      loadEntry fs (loadDir fs left) path state =
        state.collect (Scan.items (look fs) tooDeep left path) := by
    intro left path state hne
    obtain ⟨a, ha, heq⟩ := loadEntry_leaf (loadDir fs left) state hne
    rw [heq, Scan.items_leaf ha]
  intro left
  induction left with
  | zero =>
    intro path state
    by_cases hdir : fs.status path = .ok .directory
    · simp only [loadEntry, loadDir, hdir, Scan.items, look]
      rfl
    · exact hleaf 0 path state hdir
  | succ left ih =>
    intro path state
    by_cases hdir : fs.status path = .ok .directory
    · have hbranch : look fs path = .branch (entryPaths fs path) (fs.entries path).2 := by rw [look, hdir]
      rw [Scan.items_branch hbranch, collect_append]
      simp only [loadEntry, hdir, loadDir, loadEach_collect ih]
      generalize state.collect ((entryPaths fs path).flatMap (Scan.items (look fs) tooDeep left)) = r
      obtain ⟨thrown, state'⟩ := r
      cases thrown with
      | some e => rfl
      | none => cases (fs.entries path).2 <;> rfl
    · exact hleaf _ path state hdir

theorem loadFiles_collect (fs : FileSystem) (paths : List Bytes) (files : List FileDesc) :
    loadFiles fs paths files = LoadState.collect ⟨16, 65536, ∅, files⟩ (traversal fs paths) :=
  loadEach_collect (loadEntry_collect 16) paths _

/-! ### What is found -/

theorem child_look : Scan.Child (look fs) = Entry fs := by
  funext dir path
  refine propext ⟨?_, fun ⟨hdir, hmem⟩ => ⟨_, _, by rw [look, hdir], hmem⟩⟩
  rintro ⟨ns, e, hlook, hmem⟩
  rw [look] at hlook
  split at hlook <;> cases hlook
  exact ⟨‹_›, hmem⟩

/-- What a leaf with a value is. -/
theorem look_ok {desc : FileDesc} (h : look fs path = .leaf (.ok desc)) :
    fs.status path = .ok .regular ∧ describe fs path = .ok desc := by
  rw [look] at h
  split at h
  · cases h
  · cases h
  · exact ⟨‹_›, Scan.Node.leaf.inj h⟩
  · cases h

/-- What a branch without an error is. -/
theorem look_branch {ns : List Bytes} (h : look fs path = .branch ns none) :
    fs.status path = .ok .directory ∧ (fs.entries path).2 = none := by
  rw [look] at h
  split at h
  · cases h
  · rename_i hdir
    simp only [Scan.Node.branch.injEq] at h
    exact ⟨hdir, h.2⟩
  · cases h
  · cases h

/-- What has been loaded when nothing is thrown: the traversal meets files only, with different canonical
    paths; each path below the given ones is a directory within the limit that was listed to its end, or
    one of the files; and each file is below one of the paths, with 16 directories above it at most. -/
structure Found (fs : FileSystem) (paths : List Bytes) (descs : List FileDesc) : Prop where
  order : traversal fs paths = descs.map .ok
  nodup : (descs.map (·.fullpath)).Nodup
  complete : ∀ root ∈ paths, ∀ k path, Path (Entry fs) k root path → k ≤ 16 ∧
    (fs.status path = .ok .regular ∧ fs.readable path = true ∧
        (∃ desc ∈ descs, describe fs path = .ok desc) ∨
      fs.status path = .ok .directory ∧ k < 16 ∧ (fs.entries path).2 = none)
  sound : ∀ desc ∈ descs, ∃ root ∈ paths, ∃ k ≤ 16, ∃ path, Path (Entry fs) k root path ∧
    fs.status path = .ok .regular ∧ describe fs path = .ok desc

/-- A traversal of files only has found them. -/
theorem Found.of_traversal {descs : List FileDesc} (htrav : traversal fs paths = descs.map .ok)
    (hnodup : (descs.map (·.fullpath)).Nodup) : Found fs paths descs := by
  have hmem : ∀ {root}, root ∈ paths → ∀ x ∈ Scan.items (look fs) tooDeep 16 root,
      x ∈ descs.map Except.ok := by
    intro root hroot x hx
    rw [← htrav]
    exact List.mem_flatMap.mpr ⟨root, hroot, hx⟩
  refine ⟨htrav, hnodup, fun root hroot k path hpath => ?_, fun desc hdesc => ?_⟩
  · rw [← child_look] at hpath
    have hok : ∀ e, .error e ∉ Scan.items (look fs) tooDeep 16 root := fun e he => by
      simpa using hmem hroot _ he
    obtain ⟨hk, hend⟩ := Scan.reach_ok hpath hok
    refine ⟨hk, ?_⟩
    rcases hend with ⟨desc, hdesc, hin⟩ | ⟨ns, hns, hlt⟩
    · obtain ⟨hreg, hdescribe⟩ := look_ok hdesc
      have hin : desc ∈ descs := by simpa using hmem hroot _ hin
      exact .inl ⟨hreg, (describe_path hdescribe).2.1, desc, hin, hdescribe⟩
    · obtain ⟨hdir, hentries⟩ := look_branch hns
      exact .inr ⟨hdir, hlt, hentries⟩
  · have hin : .ok desc ∈ traversal fs paths := by
      rw [htrav]
      exact List.mem_map_of_mem hdesc
    obtain ⟨root, hroot, hin⟩ := List.mem_flatMap.mp hin
    obtain ⟨k, path, hk, hpath, hleaf⟩ := Scan.mem_items_ok hin
    rw [child_look] at hpath
    exact ⟨root, hroot, k, hk, path, hpath, look_ok hleaf⟩

/-- The files collected are a run of files with different canonical paths at the start of the items, and
    nothing is thrown only if that is all. -/
theorem collect_files (files : List FileDesc) (items : List (Except FsError FileDesc)) :
    ∃ descs rest, items = descs.map .ok ++ rest ∧ (descs.map (·.fullpath)).Nodup ∧
      (LoadState.collect ⟨16, 65536, ∅, files⟩ items).2.files = files ++ descs ∧
      ((LoadState.collect ⟨16, 65536, ∅, files⟩ items).1 = none → rest = []) := by
  obtain ⟨descs, rest, hitems, hnodup, _, hfiles, hend⟩ := Scan.collect_spec FileDesc.fullpath
    (fun desc => (⟨"Duplicate files", desc.path, 0⟩ : FsError)) items ∅ files
  exact ⟨descs, rest, hitems, hnodup, hfiles, hend⟩

/-- Files with different canonical paths are all collected. -/
theorem collect_all {descs : List FileDesc} (files : List FileDesc)
    (hnodup : (descs.map (·.fullpath)).Nodup) :
    (LoadState.collect ⟨16, 65536, ∅, files⟩ (descs.map .ok)).1 = none ∧
      (LoadState.collect ⟨16, 65536, ∅, files⟩ (descs.map .ok)).2.files = files ++ descs :=
  Scan.collect_ok hnodup fun _ _ => Finset.notMem_empty _

/-- What `load_files` returns, where it does. -/
theorem loadFiles_found {files : List FileDesc} (h : (loadFiles fs paths files).1 = none) :
    ∃ descs, (loadFiles fs paths files).2.files = files ++ descs ∧ Found fs paths descs := by
  rw [loadFiles_collect] at h ⊢
  obtain ⟨descs, rest, htrav, hnodup, hfiles, hend⟩ := collect_files files (traversal fs paths)
  rw [hend h, List.append_nil] at htrav
  exact ⟨descs, hfiles, .of_traversal htrav hnodup⟩

/-- CORRECT (complete, no duplicates): `load_files` returns exactly if there are files that the traversal
    finds, all that is below the paths and each once; and it has added them, in that order. -/
theorem load_files_complete (fs : FileSystem) (paths : List Bytes) (files : List FileDesc) :
    (loadFiles fs paths files).1 = none ↔
      ∃ descs, (loadFiles fs paths files).2.files = files ++ descs ∧ Found fs paths descs := by
  refine ⟨loadFiles_found, ?_⟩
  rintro ⟨descs, _, hfound⟩
  rw [loadFiles_collect, hfound.order]
  exact (collect_all files hfound.nodup).1

/-! ### The cap -/

/-- The state when the traversal has come past `k` items; `load_files` ends with the last. -/
def loadedAfter (fs : FileSystem) (paths : List Bytes) (files : List FileDesc) (k : ℕ) : LoadState :=
  (LoadState.collect ⟨16, 65536, ∅, files⟩ ((traversal fs paths).take k)).2

/-- A regular file with 16 directories above it at most. -/
def FileBelow (fs : FileSystem) (paths : List Bytes) (path : Bytes) : Prop :=
  ∃ root ∈ paths, ∃ k ≤ 16, Path (Entry fs) k root path ∧ fs.status path = .ok .regular

/-- No more than `max_files` files are collected at any point, and where there are more it throws. -/
def Capped (fs : FileSystem) (paths : List Bytes) (files : List FileDesc) : Prop :=
  (∀ k, (loadedAfter fs paths files k).files.length ≤
    files.length + (loadedAfter fs paths files k).maxFiles) ∧
  ∀ found : List Bytes, found.Nodup → (∀ path ∈ found, FileBelow fs paths path) →
    (loadFiles fs paths files).2.maxFiles < found.length → (loadFiles fs paths files).1 ≠ none

theorem loadFiles_maxFiles (fs : FileSystem) (paths : List Bytes) (files : List FileDesc) :
    (loadFiles fs paths files).2.maxFiles = 65536 := by
  rw [loadFiles_collect]
  rfl

theorem loadFiles_last (fs : FileSystem) (paths : List Bytes) (files : List FileDesc) :
    (loadFiles fs paths files).2 = loadedAfter fs paths files (traversal fs paths).length := by
  rw [loadFiles_collect, loadedAfter, List.take_length]

/-- All files within the limit are among those found. -/
theorem Found.length_le {descs : List FileDesc} (h : Found fs paths descs) {found : List Bytes}
    (hnodup : found.Nodup) (hwithin : ∀ path ∈ found, FileBelow fs paths path) :
    found.length ≤ descs.length := by
  have hsub : found ⊆ descs.map (·.path) := by
    intro path hpath
    obtain ⟨root, hroot, k, _, hp, hreg⟩ := hwithin path hpath
    obtain ⟨_, ⟨_, _, desc, hdesc, hdescribe⟩ | ⟨hdir, _⟩⟩ := h.complete root hroot k path hp
    · exact List.mem_map.mpr ⟨desc, hdesc, (describe_path hdescribe).1⟩
    · rw [hreg] at hdir
      cases hdir
  simpa using (hnodup.subperm hsub).length_le

/-- CORRECT (exact condition): the cap holds exactly when no more than 65536 readable regular files with
    different canonical paths come before the first item of the traversal that is none. -/
theorem file_cap_iff (fs : FileSystem) (paths : List Bytes) (files : List FileDesc) :
    Capped fs paths files ↔
      ∀ (descs : List FileDesc) rest, traversal fs paths = descs.map .ok ++ rest →
        (descs.map (·.fullpath)).Nodup → descs.length ≤ 65536 := by
  constructor
  · rintro ⟨hcap, _⟩ descs rest htrav hnodup
    have hlen := hcap descs.length
    have htake : (traversal fs paths).take descs.length = descs.map .ok := by
      rw [htrav, List.take_left' (List.length_map _)]
    rw [loadedAfter, htake, (collect_all files hnodup).2, List.length_append] at hlen
    exact Nat.le_of_add_le_add_left hlen
  · intro hfew
    refine ⟨fun k => ?_, fun found hnodup hwithin hmany hnone => ?_⟩
    · obtain ⟨descs, rest, htake, hnodup, hfiles, _⟩ := collect_files files ((traversal fs paths).take k)
      have hlen := hfew descs (rest ++ (traversal fs paths).drop k)
        (by rw [← List.append_assoc, ← htake, List.take_append_drop]) hnodup
      rw [loadedAfter, hfiles, List.length_append]
      exact Nat.add_le_add_left hlen _
    · obtain ⟨descs, _, hfound⟩ := loadFiles_found hnone
      have hlen := hfew descs [] (by rw [hfound.order, List.append_nil]) hfound.nodup
      have := hfound.length_le hnodup hwithin
      rw [loadFiles_maxFiles] at hmany
      exact absurd hmany (Nat.not_lt.mpr (this.trans hlen))

/-- One directory `d` with the files `0`, `1`, and so on. -/
def flatDirectory (n : ℕ) : FileSystem where
  status path := .ok (if path = text "d" then .directory else .regular)
  entries path := if path = text "d" then ((List.range n).map decimal, none) else ([], none)
  readable _ := true
  canonical path := .ok (slash :: path)
  fileSize _ := .ok 0

/-- The file that is found for an entry there. -/
def flatDesc (i : ℕ) : FileDesc where
  name := filename (joinPath (text "d") (decimal i))
  dir := parentPath (joinPath (text "d") (decimal i))
  path := joinPath (text "d") (decimal i)
  fullpath := slash :: joinPath (text "d") (decimal i)
  size := 0

theorem joinPath_decimal (i : ℕ) : joinPath (text "d") (decimal i) = text "d/" ++ decimal i := by
  have hname : isAbsolute (decimal i) = false := by
    rw [isAbsolute, decide_eq_false_iff_not]
    intro hhead
    have := Numerals.allDigits_toDigits i slash (List.mem_of_mem_head? hhead)
    exact absurd this (by decide)
  rw [joinPath, hname, if_neg Bool.false_ne_true, if_pos (by decide)]
  rfl

theorem traversal_flat (n : ℕ) :
    traversal (flatDirectory n) [text "d"] = ((List.range n).map flatDesc).map .ok := by
  have hfile : ∀ i, Scan.items (look (flatDirectory n)) tooDeep 15 (joinPath (text "d") (decimal i)) =
      [.ok (flatDesc i)] := by
    intro i
    have hne : joinPath (text "d") (decimal i) ≠ text "d" := by
      rw [joinPath_decimal]
      exact fun h => absurd (congrArg List.length h) (by simp [text])
    refine Scan.items_leaf ?_ 15
    simp only [look, flatDirectory, if_neg hne]
    rfl
  have hdir : look (flatDirectory n) (text "d") =
      .branch (((List.range n).map decimal).map (joinPath (text "d"))) none := by
    simp [look, entryPaths, flatDirectory]
  rw [traversal, List.flatMap_singleton, Scan.items_branch hdir, List.flatMap_map, List.flatMap_map,
    List.map_map, Option.map_none, Option.toList_none, List.append_nil, List.map_eq_flatMap]
  exact List.flatMap_congr fun i _ => hfile i

theorem nodup_flat (n : ℕ) : (((List.range n).map flatDesc).map (·.fullpath)).Nodup := by
  rw [List.map_map]
  refine List.Nodup.map (fun i j h => ?_) List.nodup_range
  simp only [Function.comp, flatDesc, joinPath_decimal, List.cons.injEq, true_and,
    List.append_cancel_left_eq] at h
  rw [← Numerals.value_toDigits i, ← Numerals.value_toDigits j]
  exact congrArg Numerals.value h

/-- A directory of 65537 files: all are collected, and nothing is thrown. -/
theorem file_cap_ignored :
    (loadFiles (flatDirectory 65537) [text "d"] []).1 = none ∧
      (loadFiles (flatDirectory 65537) [text "d"] []).2.maxFiles = 65536 ∧
      (loadFiles (flatDirectory 65537) [text "d"] []).2.files.length = 65537 ∧
      ¬Capped (flatDirectory 65537) [text "d"] [] := by
  obtain ⟨hnone, hfiles⟩ := collect_all [] (nodup_flat 65537)
  have hlen : (loadFiles (flatDirectory 65537) [text "d"] []).2.files.length = 65537 := by
    rw [loadFiles_collect, traversal_flat, hfiles, List.nil_append, List.length_map, List.length_range]
  have hmax := loadFiles_maxFiles (flatDirectory 65537) [text "d"] []
  refine ⟨?_, hmax, hlen, fun hcap => ?_⟩
  · rw [loadFiles_collect, traversal_flat]
    exact hnone
  · have hover := hcap.1 (traversal (flatDirectory 65537) [text "d"]).length
    rw [← loadFiles_last, hlen, hmax, List.length_nil] at hover
    omega

end Fcopy
