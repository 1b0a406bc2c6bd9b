import Fcopy.Server.Partition
import Fcopy.Client.Batch
import Fcopy.Startup.InitConfig
import Fcopy.Startup.ParseArgs

/-! Where the files of a command end up (`main` in `client/fcopy_cli.cpp`, `get_abs_path` on the server).

    `main` asks for the path that `load_files` has found, below the default partition. Where no path on
    the command line is absolute or climbs, and no symbolic link is on the way, the tree that is sent
    comes out as it is:

        paths ──load_files──▶ d/x   d/e/y        cwd / default_partition / . / d/x
                                                 cwd / default_partition / . / d/e/y

    Different files have different places then, so no upload of a command touches what another has
    stored. -/

namespace Fcopy
open LexPath Relay Function Run

/-! ### Paths that go down -/

/-- Where a path leads from where it starts, as far as it does not climb. -/
def placeOf (p : Bytes) : List Bytes := (cancel componentKind (components p)).2

/-- A relative path, for a system call, that never leaves the directory it starts in. -/
structure Descends (p : Bytes) : Prop where
  relative : ¬isAbsolute p = true
  zero : 0 ∉ p
  stays : (cancel componentKind (components p)).1 = 0

instance (p : Bytes) : Decidable (Descends p) :=
  decidable_of_iff (¬isAbsolute p = true ∧ 0 ∉ p ∧ (cancel componentKind (components p)).1 = 0)
    ⟨fun ⟨h₁, h₂, h₃⟩ => ⟨h₁, h₂, h₃⟩, fun h => ⟨h.1, h.2, h.3⟩⟩

/-- What a directory calls an entry. -/
structure EntryName (n : Bytes) : Prop where
  kind : componentKind n = .name
  slash : slash ∉ n
  zero : 0 ∉ n

/-- Paths that lead to the same place lead to the same file: there are no symbolic links. -/
structure NoLinks (fs : FileSystem) : Prop where
  entries : ∀ dir, ∀ n ∈ (fs.entries dir).1, EntryName n
  canonical : ∀ p q, Descends p → Descends q → placeOf p = placeOf q → fs.canonical p = fs.canonical q

/-- The system can follow the paths of the server. -/
structure Based (c : Conf) : Prop where
  cwd : isAbsolute c.cwd = true
  cwd_zero : 0 ∉ c.cwd
  partition_zero : 0 ∉ c.defaultPartition

/-- The directory of the default partition. -/
def baseDir (c : Conf) : List Bytes := normal (joinPath c.cwd c.defaultPartition)

/-- The uploads of `main`, where `content` are the contents of the files. -/
def commandUploads (cfg : ClientConfig) (content : Bytes → Bytes) : List Upload :=
  cfg.files.map fun file => ⟨senderParams cfg.toGlobalConfig file, content file.fullpath⟩

variable {p q n : Bytes} {c : Conf} {fs : FileSystem} {paths : List Bytes}

/-! ### Joins -/

/-- The components of a join are those of both sides, but for empty ones. -/
theorem foldl_components_joinPath {S : Type*} {f : S → Bytes → S} (hf : ∀ s, f s [] = s)
    (hq : ¬isAbsolute q = true) (s : S) :
    (components (joinPath p q)).foldl f s = (components q).foldl f ((components p).foldl f s) := by
  have hsep : ∀ p' q' : Bytes, components (p' ++ slash :: q') = components p' ++ components q' :=
    fun p' q' => List.splitOn_append_cons_self ..
  rw [joinPath, if_neg hq]
  by_cases hname : hasFilename p = true
  · rw [if_pos hname, hsep, List.foldl_append]
  · rw [if_neg hname]
    rcases List.eq_nil_or_concat p with rfl | ⟨p', b, rfl⟩
    · change _ = (components q).foldl f (f s [])
      rw [hf, List.nil_append]
    · -- the left-hand side ends in a separator
      rw [List.concat_eq_append] at hname ⊢
      have hb : b = slash := by simpa [hasFilename] using hname
      subst hb
      rw [List.append_assoc, List.cons_append, List.nil_append, hsep, hsep, List.foldl_append,
        List.foldl_append]
      change _ = (components q).foldl f (f _ [])
      rw [hf]

theorem cancel_joinPath (hq : ¬isAbsolute q = true) :
    cancel componentKind (components (joinPath p q)) =
      (components q).foldl (cancelStep componentKind) (cancel componentKind (components p)) :=
  foldl_components_joinPath (fun _ => rfl) hq _

theorem zero_notMem_joinPath (hp : 0 ∉ p) (hq : 0 ∉ q) : 0 ∉ joinPath p q := by
  by_cases habs : isAbsolute q = true
  · rw [joinPath_absolute habs]
    exact hq
  · have hsep : (0 : UInt8) ∉ if hasFilename p then [slash] else [] := by
      split
      · exact fun h => slash_ne_zero.symm (List.mem_singleton.mp h)
      · exact List.not_mem_nil
    rw [joinPath_relative habs, List.mem_append, List.mem_append]
    rintro ((h | h) | h)
    · exact hp h
    · exact hsep h
    · exact hq h

theorem EntryName.components (h : EntryName n) : components n = [n] :=
  List.splitOnP_eq_singleton fun x hx => by
    rw [beq_eq_false_iff_ne]
    rintro rfl
    exact h.slash hx

theorem EntryName.relative (h : EntryName n) : ¬isAbsolute n = true := by
  intro habs
  obtain ⟨q, rfl⟩ := isAbsolute_iff.mp habs
  exact h.slash List.mem_cons_self

/-- An entry of a directory goes down one more. -/
theorem Descends.entry (h : Descends p) (hn : EntryName n) : Descends (joinPath p n) := by
  refine ⟨fun habs => ?_, zero_notMem_joinPath h.zero hn.zero, ?_⟩
  · by_cases hp : p = []
    · subst hp
      rw [joinPath_relative hn.relative] at habs
      exact hn.relative habs
    · obtain ⟨q, hq⟩ := isAbsolute_iff.mp habs
      obtain ⟨b, p', rfl⟩ := List.exists_cons_of_ne_nil hp
      rw [joinPath_relative hn.relative, List.append_assoc, List.cons_append, List.cons.injEq] at hq
      exact h.relative (isAbsolute_iff.mpr ⟨p', by rw [hq.1]⟩)
  · rw [cancel_joinPath hn.relative, hn.components, List.foldl_cons, List.foldl_nil, cancelStep, hn.kind]
    exact h.stays

/-! ### What is loaded -/

theorem Descends.below (h : Descends p) (hfs : NoLinks fs) {k : ℕ} (hpath : Path (Entry fs) k p q) :
    Descends q := by
  induction hpath with
  | nil => exact h
  | cons hentry _ ih =>
    obtain ⟨n, hn, rfl⟩ := List.mem_map.mp hentry.2
    exact ih (h.entry (hfs.entries _ n hn))

/-- The files found go down as the paths do, each to a place of its own. -/
theorem Found.placed {descs : List FileDesc} (h : Found fs paths descs) (hfs : NoLinks fs)
    (hpaths : ∀ p ∈ paths, Descends p) :
    (∀ desc ∈ descs, Descends desc.path) ∧
      descs.Pairwise fun d e => placeOf d.path ≠ placeOf e.path := by
  have hdesc : ∀ desc ∈ descs, Descends desc.path ∧ fs.canonical desc.path = .ok desc.fullpath := by
    intro desc hdesc
    obtain ⟨root, hroot, k, _, path, hpath, _, hdescribe⟩ := h.sound desc hdesc
    obtain ⟨rfl, _, hcanonical, _⟩ := describe_path hdescribe
    exact ⟨(hpaths root hroot).below hfs hpath, hcanonical⟩
  refine ⟨fun desc hd => (hdesc desc hd).1, ?_⟩
  refine (List.pairwise_map.mp h.nodup).imp_of_mem fun {d e} hd he hne hsame => hne ?_
  obtain ⟨hdd, hdc⟩ := hdesc d hd
  obtain ⟨hed, hec⟩ := hdesc e he
  exact Except.ok.inj (hdc.symm.trans ((hfs.canonical _ _ hdd hed hsame).trans hec))

/-! ### Where the server stores it -/

/-- Whatever the default partition is, the path is below it, seen from the working directory. -/
theorem call_path {req : CreateFileReq} {call : CreateCall} (hc : Based c) (hpart : req.partition = [])
    (hopen : handleCreateFile c req = .createOpen call) :
    call.path = joinPath (joinPath (joinPath c.cwd c.defaultPartition) req.relativePath) req.fileName := by
  obtain ⟨_, path, hpath, hcreate⟩ := handleCreateFile_call
    (show (handleCreateFile c req).call = some call by rw [hopen]; rfl)
  rw [(createFile_ok hcreate).2.2]
  rw [getAbsPath, absolute, getPartitionDir, if_pos hpart] at hpath
  simp only [getFullPath, joinPath_assoc] at hpath ⊢
  generalize joinPath c.defaultPartition (joinPath req.relativePath req.fileName) = t at hpath ⊢
  split at hpath
  · cases hpath
  · split at hpath <;> cases hpath
    · rfl
    · exact joinPath_absolute (isAbsolute_joinPath hc.cwd)

/-- CORRECT (place): a path that goes down does so from the default partition. -/
theorem file_place {cfg : GlobalConfig} {file : FileDesc} {source : Bytes} {call : CreateCall}
    (hc : Based c) (hp : Descends file.path)
    (hopen : handleCreateFile c (openRequest (senderParams cfg file) source) = .createOpen call) :
    fileOf call.path = baseDir c ++ placeOf file.path := by
  have hbase : joinPath c.cwd c.defaultPartition ≠ [] := by
    intro h0
    have habs := isAbsolute_joinPath (q := c.defaultPartition) hc.cwd
    rw [h0] at habs
    cases habs
  have hdot : joinPath (joinPath c.cwd c.defaultPartition) (text ".") ≠ [] := by
    intro h0
    have habs := isAbsolute_joinPath (q := text ".") (isAbsolute_joinPath (q := c.defaultPartition) hc.cwd)
    rw [h0] at habs
    cases habs
  have hzero : (0 : UInt8) ∉ joinPath (joinPath (joinPath c.cwd c.defaultPartition) (text ".")) file.path :=
    zero_notMem_joinPath (zero_notMem_joinPath (zero_notMem_joinPath hc.cwd_zero hc.partition_zero)
      (by decide)) hp.zero
  have hstay : ∀ R, walk componentKind R (components (text ".")) = R := fun R => rfl
  rw [call_path hc rfl hopen]
  change fileOf (joinPath (joinPath (joinPath c.cwd c.defaultPartition) (text ".")) file.path) = _
  rw [fileOf, cString_of_not_mem hzero, normal_joinPath hdot hp.relative, normal_joinPath hbase (by decide),
    hstay, walk_eq_cancel, hp.stays, Nat.sub_zero, List.take_length]
  rfl

/-! ### The command -/

section
variable {read : Bytes → Option Bytes} {opts : List ClientOpt} {cfg : ClientConfig} {conf : Addr → Conf}
  {addrs : Option (List Bytes)} {content : Bytes → Bytes}

/-- The uploads of a command do not meet. -/
theorem uploads_apart (content : Bytes → Bytes) (hparse : parseArgs fs read opts paths = .ok cfg)
    (hfs : NoLinks fs) (hpaths : ∀ p ∈ paths, Descends p) (hconf : ∀ a ∈ cfg.targets, Based (conf a)) :
    (∀ file ∈ cfg.files, Descends file.path) ∧
      (commandUploads cfg content).Pairwise (Upload.Apart conf) := by
  obtain ⟨_, hload, hchosen⟩ := parseArgs_eq_ok.mp hparse
  obtain ⟨descs, hfiles, hfound⟩ := loadFiles_found hload
  obtain ⟨hdesc, hpair⟩ := hfound.placed hfs hpaths
  rw [List.nil_append, ← hchosen.files] at hfiles
  subst hfiles
  refine ⟨hdesc, List.pairwise_map.mpr (hpair.imp_of_mem fun {d e} hd he hne => ?_)⟩
  intro a ha file hfile hsame
  obtain ⟨call, hopen, rfl⟩ := Upload.file_eq.mp hfile
  obtain ⟨call', hopen', heq⟩ := Upload.file_eq.mp hsame
  rw [file_place (hconf a ha) (hdesc d hd) hopen, file_place (hconf a ha) (hdesc e he) hopen'] at heq
  exact hne (List.append_cancel_left heq).symm

theorem uploads_ready (hself : doCheckSelf addrs cfg.targets = true) (hwait : cfg.waitClose = true)
    (hcontent : ∀ file ∈ cfg.files, (content file.fullpath).length < 2 ^ 63) :
    ∀ u ∈ commandUploads cfg content, u.Fits := by
  intro u hu
  obtain ⟨file, hfile, rfl⟩ := List.mem_map.mp hu
  exact ⟨hcontent file hfile, (sendParallel_eq cfg.toGlobalConfig).1, hwait, (doCheckSelf_eq_true hself).1⟩

end

/-! ### A directory -/

/-- The directory `d`, with the files `x` and `y`. -/
def smallTree : FileSystem where
  status p := .ok (if placeOf p = [text "d"] then .directory else .regular)
  entries p := if placeOf p = [text "d"] then ([text "x", text "y"], none) else ([], none)
  readable _ := true
  canonical p := .ok ((placeOf p).flatMap (slash :: ·))
  fileSize _ := .ok 2

theorem smallTree_noLinks : NoLinks smallTree where
  entries dir n hn := by
    simp only [smallTree] at hn
    split at hn
    · rcases List.mem_pair.mp hn with rfl | rfl
      · exact ⟨by decide, by decide, by decide⟩
      · exact ⟨by decide, by decide, by decide⟩
    · cases hn
  canonical p q _ _ hsame := by simp only [smallTree, hsame]

def treeUpload : ClientConfig where
  targets := sampleUpload.targets
  files := [⟨text "x", text "d", text "d/x", text "/d/x", 2⟩,
    ⟨text "y", text "d", text "d/y", text "/d/y", 2⟩]

theorem treeUpload_parsed : parseArgs smallTree (fun _ => none)
    [.target (text "a:1"), .target (text "b:1")] [text "d"] = .ok treeUpload := by
  decide +kernel

/-- The configuration file `c` is read in the root directory. -/
def sampleEnv : Env where
  home := none
  cwd := .ok (text "/")
  read p := if p = text "c" then some (text "default-partition p") else none
  isRegular _ := false

/-- A server as its `main` starts it, with `p` for the default partition. -/
def startedConf : Conf :=
  ((serverMain sampleEnv [.config (text "c")]).toOption.getD {}).service (text "/") fun p =>
    BitVec.ofNat 64 p.length

/-- Only `x` is not empty. -/
def treeContent (p : Bytes) : Bytes := if p = text "/d/x" then text "hi" else []

def treeBatch : Batch := ⟨sampleSys, none, commandUploads treeUpload treeContent, []⟩

/-- As for two files, but for the size of a read. -/
def treeLabels : List BatchLabel := batchLabels.map fun l =>
  if l = .upload (.work 0 (.read 8192)) then .upload (.work 0 (.read defaultChunkSize.toNat)) else l

theorem treeBatch_initial :
    BatchInitial (fun _ => startedConf) (commandUploads treeUpload treeContent) treeBatch where
  reached _ := ⟨sampleServer, [], sampleServer_initial, .nil _⟩
  unvisited _ _ := sampleSys_unvisited
  current := rfl
  waiting := rfl
  done := rfl

/-- A path that climbs can meet one that does not. -/
example : Upload.file (fun _ => startedConf)
      ⟨senderParams treeUpload.toGlobalConfig ⟨text "x", text "../p", text "../p/x", text "/p/x", 2⟩, []⟩
      (text "a", 1) =
    Upload.file (fun _ => startedConf)
      ⟨senderParams treeUpload.toGlobalConfig ⟨text "x", [], text "x", text "/x", 2⟩, []⟩ (text "a", 1) := by
  decide +kernel

end Fcopy
