import Fcopy.Wire.Ints
import Fcopy.Schemes.LexPath

/-! Paths (`common/utils.cpp`, `server/file_manager.cpp`, `server/service.cpp`).

    Paths are byte strings; `joinPath` is `operator/=` of `std::filesystem::path` on a POSIX system. The
    path of an upload is built by three joins, none of which looks at `.` or `..`:

        partition root / relative_path / file_name  ──absolute──▶  current_path / it

    The operating system gets the string up to its first NUL, and follows it component by component. -/

namespace Fcopy

def slash : UInt8 := 47

def dot : UInt8 := 46

/-! ### `std::filesystem::path` -/

/-- What following a component does. -/
def componentKind (c : Bytes) : LexPath.Kind :=
  if c = [] ∨ c = [dot] then .skip else if c = [dot, dot] then .up else .name

def components (p : Bytes) : List Bytes := p.splitOn slash

/-- The directory or file a path leads to from the root when there are no symbolic links. -/
def normal (p : Bytes) : List Bytes := LexPath.walk componentKind [] (components p)

def isAbsolute (p : Bytes) : Bool := p.head? = some slash

def hasFilename (p : Bytes) : Bool := p ≠ [] ∧ p.getLast? ≠ some slash

/-- `operator/=`: an absolute right-hand side replaces the left, otherwise a separator is put between
    unless the left is empty or ends in one. -/
def joinPath (p q : Bytes) : Bytes :=
  if isAbsolute q then q else if hasFilename p then p ++ slash :: q else p ++ q

/-- `path::c_str()` as the system calls read it. -/
def cString (p : Bytes) : Bytes := p.takeWhile (· ≠ 0)

/-- The file a system call given `p` means. -/
def fileOf (p : Bytes) : List Bytes := normal (cString p)

/-- A path that can be opened as a file: its last component is a name, and it is not one of the
    directories passed on the way. -/
def Openable (p : Bytes) : Prop := LexPath.Settles componentKind (components (cString p))

instance (p : Bytes) : Decidable (Openable p) :=
  inferInstanceAs (Decidable (LexPath.Settles _ _))

/-! ### The server's paths -/

/-- What a server runs with: its parameters, its working directory, and `std::hash` of its library. -/
structure Conf where
  defaultPartition : Bytes
  partitions : Bytes → Option Bytes
  cwd : Bytes
  hash : Bytes → BitVec 64

def EINVAL : ℕ := 22

def errNoPartition : ℤ := 1026

def errNoFile : ℤ := 1027

section
variable (conf : Conf)

/-- `fs::absolute`, which reports an empty path. -/
def absolute (p : Bytes) : Except ℤ Bytes :=
  if p = [] then .error EINVAL else if isAbsolute p then .ok p else .ok (joinPath conf.cwd p)

def getAbsPath (base relative filename : Bytes) : Except ℤ Bytes :=
  absolute conf (joinPath (joinPath base relative) filename)

/-- Empty when there is no such partition. -/
def getPartitionDir (partition : Bytes) : Bytes :=
  if partition = [] then conf.defaultPartition else (conf.partitions partition).getD []

def getFullPath (name : Bytes) : Bytes := joinPath conf.cwd name

/-- A byte of text for each character. -/
def text (s : String) : Bytes := s.toList.map fun c => UInt8.ofNat c.toNat

/-- The token of a session: the hash of its path in hexadecimal. -/
def getToken (path : Bytes) : Bytes :=
  (Nat.toDigits 16 (conf.hash path).toNat).map fun c => UInt8.ofNat c.toNat

end

/-! ### Joins -/

theorem slash_ne_zero : slash ≠ 0 := by decide

theorem isAbsolute_iff {p : Bytes} : isAbsolute p = true ↔ ∃ q, p = slash :: q := by
  rw [isAbsolute, decide_eq_true_iff]
  cases p with
  | nil => simp
  | cons b p => simp

theorem joinPath_absolute {p q : Bytes} (hq : isAbsolute q = true) : joinPath p q = q :=
  if_pos hq

/-- A relative right-hand side is put behind a fixed string. -/
theorem joinPath_relative {p q : Bytes} (hq : ¬ isAbsolute q = true) :
    joinPath p q = p ++ (if hasFilename p then [slash] else []) ++ q := by
  rw [joinPath, if_neg hq]
  split <;> simp

theorem isAbsolute_joinPath {p q : Bytes} (hp : isAbsolute p = true) :
    isAbsolute (joinPath p q) = true := by
  by_cases hq : isAbsolute q = true
  · rw [joinPath_absolute hq, hq]
  · obtain ⟨p', rfl⟩ := isAbsolute_iff.mp hp
    rw [joinPath_relative hq, List.append_assoc, List.cons_append]
    exact isAbsolute_iff.mpr ⟨_, rfl⟩

theorem hasFilename_append {p q : Bytes} (hq : q ≠ []) : hasFilename (p ++ q) = hasFilename q := by
  simp only [hasFilename, List.getLast?_append_of_ne_nil p hq]
  simp [hq]

/-- Joining is associative. -/
theorem joinPath_assoc (p q r : Bytes) :
    joinPath (joinPath p q) r = joinPath p (joinPath q r) := by
  by_cases hr : isAbsolute r = true
  · rw [joinPath_absolute hr, joinPath_absolute hr, joinPath_absolute hr]
  by_cases hq : isAbsolute q = true
  · rw [joinPath_absolute hq, joinPath_absolute (isAbsolute_joinPath hq)]
  by_cases hqe : q = []
  · subst hqe
    have hnil : joinPath [] r = r := by rw [joinPath_relative hr]; rfl
    rw [hnil, joinPath_relative (p := p) hr, joinPath_relative hq, joinPath_relative hr,
      List.append_nil]
    split
    · have : hasFilename (p ++ [slash]) = false := by
        rw [hasFilename_append (List.cons_ne_nil _ _)]
        rfl
      simp [this]
    · rename_i hf
      simp [hf]
  · have hqr : ¬ isAbsolute (joinPath q r) = true := by
      rw [joinPath_relative hr, isAbsolute_iff]
      rintro ⟨s, hs⟩
      obtain ⟨b, q', rfl⟩ := List.exists_cons_of_ne_nil hqe
      simp only [List.cons_append, List.cons.injEq] at hs
      exact hq (isAbsolute_iff.mpr ⟨q', by rw [hs.1]⟩)
    have hf : hasFilename (joinPath p q) = hasFilename q := by
      rw [joinPath_relative hq, hasFilename_append hqe]
    rw [joinPath_relative (p := joinPath p q) hr, joinPath_relative hqr, joinPath_relative hr, hf,
      joinPath_relative hq]
    simp only [List.append_assoc]

/-! ### Where a path leads -/

theorem walk_slash (dir : List Bytes) (p q : Bytes) :
    LexPath.walk componentKind dir (components (p ++ slash :: q)) =
      LexPath.walk componentKind (LexPath.walk componentKind dir (components p)) (components q) := by
  rw [components, List.splitOn_append_cons_self, LexPath.walk_append]
  rfl

/-- A relative path is followed from where the left-hand side leads. -/
theorem normal_joinPath {p q : Bytes} (hp : p ≠ []) (hq : ¬ isAbsolute q = true) :
    normal (joinPath p q) = LexPath.walk componentKind (normal p) (components q) := by
  rw [joinPath, if_neg hq]
  by_cases hf : hasFilename p = true
  · rw [if_pos hf, normal, walk_slash]
    rfl
  · -- the left-hand side ends in a separator
    rw [if_neg hf]
    obtain ⟨p', b, rfl⟩ := (List.eq_nil_or_concat p).resolve_left hp
    rw [List.concat_eq_append] at hf ⊢
    have hb : b = slash := by simpa [hasFilename] using hf
    subst hb
    rw [List.append_assoc, List.cons_append, List.nil_append, normal, walk_slash, normal, walk_slash]
    rfl

theorem cString_append {p : Bytes} (hp : 0 ∉ p) (q : Bytes) : cString (p ++ q) = p ++ cString q :=
  List.takeWhile_append_of_pos fun b hb => by simpa using fun h : b = 0 => hp (h ▸ hb)

theorem isAbsolute_cString (p : Bytes) : isAbsolute (cString p) = isAbsolute p := by
  cases p with
  | nil => rfl
  | cons b p =>
    by_cases hb : b = 0
    · subst hb
      rfl
    · simp [cString, isAbsolute, hb]

/-- The terminating NUL is looked for in the right-hand side alone when the left has none. -/
theorem cString_joinPath {p q : Bytes} (hp : 0 ∉ p) :
    cString (joinPath p q) = joinPath p (cString q) := by
  by_cases hq : isAbsolute q = true
  · rw [joinPath_absolute hq, joinPath_absolute (by rw [isAbsolute_cString]; exact hq)]
  · have hs : (0 : UInt8) ∉ p ++ (if hasFilename p then [slash] else []) := by
      rw [List.mem_append]
      rintro (h | h)
      · exact hp h
      · split at h
        · exact absurd (List.mem_singleton.mp h) slash_ne_zero.symm
        · cases h
    rw [joinPath_relative hq, cString_append hs,
      joinPath_relative (by rw [isAbsolute_cString]; exact hq)]

end Fcopy
