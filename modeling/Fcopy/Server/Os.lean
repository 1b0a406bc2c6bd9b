import Mathlib.Logic.Function.Basic
import Fcopy.Server.Paths
import Fcopy.Schemes.Content

/-! The part of the operating system the server works on.

    Files are known by where their path leads, there being no symbolic links. A descriptor stands for
    an open file description: the file, and a serial number no two calls of `open` share. Whether a
    call succeeds, and which free descriptor `open` returns, is not decided here; each function is the
    effect of a call that succeeds, and is `none` where the call cannot. -/

namespace Fcopy
open Function

structure Desc where
  serial : ℕ
  file : List Bytes
  deriving DecidableEq

structure Os where
  files : List Bytes → Option Bytes
  fds : ℕ → Option Desc
  serial : ℕ

namespace Os

def content (os : Os) (file : List Bytes) : Bytes := (os.files file).getD []

/-- `open` with `O_CREAT | O_RDWR`: what the file holds stays. -/
def openFile (os : Os) (path : Bytes) (fd : ℕ) : Option (Os × Desc) :=
  if os.fds fd = none ∧ Openable path then
    let desc : Desc := ⟨os.serial, fileOf path⟩
    some (⟨update os.files desc.file (some (os.content desc.file)), update os.fds fd (some desc),
      os.serial + 1⟩, desc)
  else none

/-- The length is an `off_t`, so one from `2 ^ 63` on is negative and refused. -/
def ftruncate (os : Os) (fd : ℕ) (size : BitVec 64) : Option Os :=
  match os.fds fd with
  | none => none
  | some d =>
    if size.toNat < 2 ^ 63 then
      some { os with
        files := update os.files d.file (some (Content.resize 0 (os.content d.file) size.toNat)) }
    else none

def pwrite (os : Os) (fd : ℕ) (data : Bytes) (offset : BitVec 64) : Option Os :=
  match os.fds fd with
  | none => none
  | some d =>
    if offset.toNat < 2 ^ 63 then
      some { os with
        files := update os.files d.file
          (some (Content.writeAt 0 (os.content d.file) offset.toNat data)) }
    else none

def close (os : Os) (fd : ℕ) : Os := { os with fds := update os.fds fd none }

/-! ### What the calls do -/

variable {os os' : Os} {fd : ℕ}

theorem openFile_eq {path : Bytes} {desc : Desc} (h : os.openFile path fd = some (os', desc)) :
    os.fds fd = none ∧ Openable path ∧ desc = ⟨os.serial, fileOf path⟩ ∧
      os' = ⟨update os.files desc.file (some (os.content desc.file)),
        update os.fds fd (some desc), os.serial + 1⟩ := by
  rw [openFile] at h
  split at h
  · rename_i hfree
    cases h
    exact ⟨hfree.1, hfree.2, rfl, rfl⟩
  · cases h

theorem ftruncate_eq {size : BitVec 64} (h : os.ftruncate fd size = some os') :
    ∃ d, os.fds fd = some d ∧ size.toNat < 2 ^ 63 ∧ os' = { os with
      files := update os.files d.file (some (Content.resize 0 (os.content d.file) size.toNat)) } := by
  rw [ftruncate] at h
  split at h
  · cases h
  · rename_i d hd
    split at h
    · rename_i hsize
      cases h
      exact ⟨d, hd, hsize, rfl⟩
    · cases h

theorem pwrite_eq {data : Bytes} {offset : BitVec 64} (h : os.pwrite fd data offset = some os') :
    ∃ d, os.fds fd = some d ∧ offset.toNat < 2 ^ 63 ∧ os' = { os with
      files := update os.files d.file
        (some (Content.writeAt 0 (os.content d.file) offset.toNat data)) } := by
  rw [pwrite] at h
  split at h
  · cases h
  · rename_i d hd
    split at h
    · rename_i hoff
      cases h
      exact ⟨d, hd, hoff, rfl⟩
    · cases h

theorem content_update {file : List Bytes} {c : Bytes}
    (h : os'.files = update os.files file (some c)) (g : List Bytes) :
    os'.content g = if g = file then c else os.content g := by
  rw [content, h]
  by_cases hg : g = file
  · rw [hg, update_self, if_pos rfl, Option.getD_some]
  · rw [update_of_ne hg, if_neg hg, content]

end Os

end Fcopy
