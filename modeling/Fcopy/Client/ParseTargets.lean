import Mathlib.Data.List.Forall2
import Fcopy.Client.FileSender
import Fcopy.Server.ParseSize

/-! The list of targets (`parse_target`, `parse_targets` in `client/fcopy_cli.cpp`).

    A line that is neither blank nor a comment is split at its first colon. The port is what `atoi` finds
    behind it, in the lower half of an `int`:

        h o s t : 6 5 6 1 6
        └─────┘   └───────┘   65616 = 65536 + 80, so port 80

    Where `atoi` finds no number it is 0, and port 0 is refused; what is behind the number is not
    looked at. -/

namespace Fcopy
open Numerals

def newline : UInt8 := 10

def colon : UInt8 := 58

/-! ### `std::getline` and `std::atoi` -/

/-- What `getline` reads until it fails. -/
def getlines : Bytes → List Bytes
  | [] => []
  | c :: t =>
    if c = newline then [] :: getlines t
    else
      match getlines t with
      | [] => [[c]]
      | line :: lines => (c :: line) :: lines

/-- The number at the start of a text, whatever its size: behind white space, maybe with a sign. It is 0
    where there is none. -/
def number (t : Bytes) : ℤ :=
  let (minus, t) := sign ((cString t).dropWhile isSpace)
  if minus then -(value (digits t) : ℤ) else value (digits t)

/-- Between `LONG_MIN` and `LONG_MAX`. -/
def strtol (t : Bytes) : ℤ := max (-2 ^ 63) (min (2 ^ 63 - 1) (number t))

/-- The library converts a `long`. -/
def atoi (t : Bytes) : BitVec 32 := BitVec.ofInt 32 (strtol t)

/-! ### The two functions -/

def parseTarget (targets : List Addr) (arg : Bytes) : Bool × List Addr :=
  match arg.dropWhile (· ≠ colon) with
  | [] => (false, targets)
  | _ :: t =>
    let host := arg.takeWhile (· ≠ colon)
    let port := (atoi t).setWidth 16
    if host = [] ∨ port = 0 then (false, targets) else (true, targets ++ [(host, port)])

/-- The loop over the lines. -/
def parseLines : List Bytes → List Addr → Bool × List Addr
  | [], targets => (true, targets)
  | line :: lines, targets =>
    let arg := line.dropWhile isSpace
    if arg = [] ∨ arg.head? = some hash then parseLines lines targets
    else
      match parseTarget targets arg with
      | (true, targets) => parseLines lines targets
      | (false, targets) => (false, targets)

/-- The file is `none` if it cannot be opened. -/
def parseTargets (targets : List Addr) (file : Option Bytes) : Bool × List Addr :=
  match file with
  | none => (false, targets)
  | some text => parseLines (getlines text) targets

/-! ### What a list should mean -/

/-- The lines that are neither blank nor a comment, without the white space they start with. -/
def targetLines (lines : List Bytes) : List Bytes :=
  (lines.map fun line => line.dropWhile isSpace).filter fun arg => arg ≠ [] ∧ arg.head? ≠ some hash

/-- Nothing but the digits of a number, and white space behind. -/
def Plain (t : Bytes) : Prop := ∃ ds sp, t = ds ++ sp ∧ ds ≠ [] ∧ AllDigits ds ∧ AllSpace sp

/-- The line `arg` is `host:port` for this host and port. -/
def Writes (arg : Bytes) (t : Addr) : Prop :=
  ∃ ds sp, arg = t.1 ++ colon :: (ds ++ sp) ∧ t.1 ≠ [] ∧ colon ∉ t.1 ∧
    ds ≠ [] ∧ AllDigits ds ∧ AllSpace sp ∧ 1 ≤ value ds ∧ value ds ≤ 65535 ∧ t.2.toNat = value ds

def behindColon (arg : Bytes) : Bytes := (arg.dropWhile (· ≠ colon)).tail

/-- The list is accepted exactly if each line is `host:port`, and then these are the targets that are
    added; and whenever a line is accepted, its target has the number that it gives. -/
def PortsKept (targets : List Addr) (text : Bytes) : Prop :=
  let (ok, after) := parseTargets targets (some text)
  let args := targetLines (getlines text)
  ∃ new, after = targets ++ new ∧
    (ok = true ↔ ∀ arg ∈ args, ∃ t, Writes arg t) ∧
    (ok = true → List.Forall₂ Writes args new) ∧
    ∃ read, read <+: args ∧
      List.Forall₂ (fun arg t => number (behindColon arg) = t.2.toNat) read new

/-- There is no host, or the number is 0 modulo 2 ^ 16, as it also is below `LONG_MIN`. -/
def Rejected (arg : Bytes) : Prop :=
  colon ∉ arg ∨ arg.head? = some colon ∨
    65536 ∣ number (behindColon arg) ∧ number (behindColon arg) < 2 ^ 63 ∨
    number (behindColon arg) < -2 ^ 63

instance (arg : Bytes) : Decidable (Rejected arg) :=
  inferInstanceAs (Decidable (_ ∨ _ ∨ _ ∧ _ ∨ _))

/-- The lines before the first that is rejected. -/
def accepted (args : List Bytes) : List Bytes := args.takeWhile fun arg => ¬Rejected arg

/-! ### One line -/

variable {t arg : Bytes}

theorem port_toNat (t : Bytes) : (((atoi t).setWidth 16).toNat : ℤ) = strtol t % 65536 := by
  rw [atoi, BitVec.toNat_setWidth, BitVec.toNat_ofInt]
  omega

theorem port_eq_zero (t : Bytes) :
    (atoi t).setWidth 16 = 0 ↔ 65536 ∣ number t ∧ number t < 2 ^ 63 ∨ number t < -2 ^ 63 := by
  have hport := port_toNat t
  have hzero : (atoi t).setWidth 16 = 0 ↔ strtol t % 65536 = 0 := by
    rw [← hport, ← BitVec.toNat_inj]
    exact Int.natCast_eq_zero.symm
  rw [hzero, strtol]
  omega

/-- The port is the number exactly if that is one of a port. -/
theorem port_eq_number (t : Bytes) :
    number t = ((atoi t).setWidth 16).toNat ↔ 0 ≤ number t ∧ number t ≤ 65535 := by
  rw [port_toNat, strtol]
  omega

/-- The target that a line is read as. -/
def targetOf (arg : Bytes) : Addr :=
  (arg.takeWhile (· ≠ colon), (atoi (behindColon arg)).setWidth 16)

/-- What is in front of the colon, and behind it. -/
theorem split_colon {host : Bytes} (hhost : colon ∉ host) (t : Bytes) :
    (host ++ colon :: t).takeWhile (· ≠ colon) = host ∧
      (host ++ colon :: t).dropWhile (· ≠ colon) = colon :: t := by
  have hall : ∀ c ∈ host, decide (c ≠ colon) = true := by
    intro c hc
    rw [decide_eq_true_eq]
    rintro rfl
    exact hhost hc
  rw [List.takeWhile_append_of_pos hall, List.dropWhile_append_of_pos hall]
  simp

theorem behindColon_split {host : Bytes} (hhost : colon ∉ host) (t : Bytes) :
    behindColon (host ++ colon :: t) = t := by
  rw [behindColon, (split_colon hhost t).2]
  rfl

/-- A line with a colon is rejected for its host or its port. -/
theorem rejected_split {host : Bytes} (hhost : colon ∉ host) (t : Bytes) :
    Rejected (host ++ colon :: t) ↔ host = [] ∨ (atoi t).setWidth 16 = 0 := by
  have hmem : colon ∈ host ++ colon :: t := List.mem_append_right host List.mem_cons_self
  have hhead : (host ++ colon :: t).head? = some colon ↔ host = [] := by
    cases host with
    | nil => simp
    | cons c host => simpa using fun hc : c = colon => hhost (hc ▸ List.mem_cons_self)
  rw [Rejected, behindColon_split hhost, hhead, port_eq_zero]
  exact or_iff_right (not_not.mpr hmem)

theorem parseTarget_eq (targets : List Addr) (arg : Bytes) :
    parseTarget targets arg =
      if Rejected arg then (false, targets) else (true, targets ++ [targetOf arg]) := by
  by_cases hcolon : colon ∈ arg
  · obtain ⟨host, t, rfl, hhost⟩ := List.eq_append_cons_of_mem hcolon
    obtain ⟨htake, hdrop⟩ := split_colon hhost t
    simp only [parseTarget, hdrop, htake, rejected_split hhost, targetOf, behindColon_split hhost]
  · have hdrop : arg.dropWhile (· ≠ colon) = [] := by
      rw [List.dropWhile_eq_nil_iff]
      intro c hc
      rw [decide_eq_true_eq]
      rintro rfl
      exact hcolon hc
    rw [parseTarget, hdrop, if_pos (.inl hcolon)]

/-- White space behind the digits is not part of the number. -/
theorem number_plain {ds sp : Bytes} (hds : AllDigits ds) (hne : ds ≠ []) (hsp : AllSpace sp) :
    number (ds ++ sp) = value ds := by
  have hhead : ∀ c ∈ (cString sp).head?, isDigit c = false := by
    intro c hc
    have hspace := hsp c ((List.takeWhile_prefix _).subset (List.mem_of_mem_head? hc))
    rw [Bool.eq_false_iff]
    intro hd
    rw [isSpace_digit hd] at hspace
    cases hspace
  simp only [number, cString_numeral hds, dropWhile_numeral hds hne, sign_digits hds hne,
    (digits_append hds hhead).1, Bool.false_eq_true, if_false]

/-- A line that is `host:port` is read as that. -/
theorem Writes.read {a : Addr} (h : Writes arg a) :
    ¬Rejected arg ∧ Plain (behindColon arg) ∧ number (behindColon arg) ≤ 65535 := by
  obtain ⟨ds, sp, rfl, hne, hcolon, hdigits, hds, hsp, hlow, hhigh, _⟩ := h
  rw [behindColon_split hcolon, rejected_split hcolon, port_eq_zero, number_plain hds hdigits hsp]
  refine ⟨?_, ⟨ds, sp, rfl, hdigits, hds, hsp⟩, by omega⟩
  rintro (hnil | ⟨hdvd, _⟩ | hneg)
  · exact hne hnil
  · omega
  · omega

/-- A line that is not rejected is `host:port` if its number is in range and alone. -/
theorem writes_targetOf (hok : ¬Rejected arg) (hlow : 1 ≤ number (behindColon arg))
    (hhigh : number (behindColon arg) ≤ 65535) (hplain : Plain (behindColon arg)) :
    Writes arg (targetOf arg) := by
  obtain ⟨host, t, rfl, hhost⟩ :=
    List.eq_append_cons_of_mem (not_not.mp fun h : colon ∉ arg => hok (.inl h))
  obtain ⟨htake, _⟩ := split_colon hhost t
  rw [behindColon_split hhost] at hlow hhigh hplain
  have hport := (port_eq_number t).mpr ⟨by omega, hhigh⟩
  obtain ⟨ds, sp, rfl, hdigits, hds, hsp⟩ := hplain
  rw [number_plain hds hdigits hsp] at hlow hhigh hport
  rw [targetOf, htake, behindColon_split hhost]
  exact ⟨ds, sp, rfl, fun h => hok ((rejected_split hhost _).mpr (.inl h)), hhost, hdigits, hds, hsp,
    by omega, by omega, (Int.natCast_inj.mp hport).symm⟩

/-! ### All lines -/

theorem targetLines_cons (line : Bytes) (lines : List Bytes) :
    targetLines (line :: lines) =
      if line.dropWhile isSpace = [] ∨ (line.dropWhile isSpace).head? = some hash then targetLines lines
      else line.dropWhile isSpace :: targetLines lines := by
  rw [targetLines, List.map_cons, List.filter_cons]
  split <;> rename_i h <;> simp only [decide_eq_true_eq] at h
  · rw [if_neg (not_or.mpr h)]
    rfl
  · rw [if_pos (by tauto)]
    rfl

/-- CORRECT (loop): the targets of the lines before the first that is rejected are added. -/
theorem parseLines_eq (lines : List Bytes) (targets : List Addr) : parseLines lines targets =
    ((targetLines lines).all fun arg => ¬Rejected arg,
      targets ++ (accepted (targetLines lines)).map targetOf) := by
  induction lines generalizing targets with
  | nil => simp [parseLines, targetLines, accepted]
  | cons line lines ih =>
    rw [parseLines, targetLines_cons]
    by_cases hskip : line.dropWhile isSpace = [] ∨ (line.dropWhile isSpace).head? = some hash
    · simp only [if_pos hskip]
      exact ih targets
    · simp only [if_neg hskip, parseTarget_eq]
      by_cases hrej : Rejected (line.dropWhile isSpace)
      · simp [accepted, hrej]
      · simp [accepted, hrej, ih]

theorem mem_accepted {args : List Bytes} (h : arg ∈ accepted args) : ¬Rejected arg := by
  simpa using List.mem_takeWhile_imp h

theorem accepted_all {args : List Bytes} (h : ∀ arg ∈ args, ¬Rejected arg) : accepted args = args :=
  List.takeWhile_eq_self_iff.mpr fun arg harg => decide_eq_true (h arg harg)

/-- The numbers that the targets have are those of the lines, exactly if they are in range. -/
theorem numbers_iff (args : List Bytes) :
    (∃ read, read <+: args ∧
        List.Forall₂ (fun arg (t : Addr) => number (behindColon arg) = t.2.toNat) read
          ((accepted args).map targetOf)) ↔
      ∀ arg ∈ accepted args, 1 ≤ number (behindColon arg) ∧ number (behindColon arg) ≤ 65535 := by
  have hrange : ∀ arg ∈ accepted args,
      number (behindColon arg) = (targetOf arg).2.toNat ↔
        1 ≤ number (behindColon arg) ∧ number (behindColon arg) ≤ 65535 := by
    intro arg harg
    have hzero : number (behindColon arg) ≠ 0 := fun h =>
      mem_accepted harg (.inr (.inr (.inl (by rw [h]; decide))))
    rw [targetOf, port_eq_number]
    omega
  have hprefix : accepted args <+: args := List.takeWhile_prefix _
  constructor
  · rintro ⟨read, hread, hall⟩ arg harg
    -- both start the lines, and are as long as there are targets
    have hlen := hall.length_eq
    rw [List.length_map] at hlen
    obtain rfl := (List.prefix_of_prefix_length_le hread hprefix hlen.le).eq_of_length hlen
    rw [List.forall₂_map_right_iff, List.forall₂_same] at hall
    exact (hrange arg harg).mp (hall arg harg)
  · intro h
    refine ⟨accepted args, hprefix, ?_⟩
    rw [List.forall₂_map_right_iff, List.forall₂_same]
    exact fun arg harg => (hrange arg harg).mpr (h arg harg)

/-- CORRECT (exact condition): the lines up to the first that is rejected have a number from 1 to 65535
    behind their colon; and where none is rejected, nothing else stands there. -/
theorem ports_kept_iff (targets : List Addr) (text : Bytes) :
    PortsKept targets text ↔
      (∀ arg ∈ accepted (targetLines (getlines text)),
        1 ≤ number (behindColon arg) ∧ number (behindColon arg) ≤ 65535) ∧
      ((∃ arg ∈ targetLines (getlines text), Rejected arg) ∨
        ∀ arg ∈ targetLines (getlines text), Plain (behindColon arg)) := by
  simp only [PortsKept, parseTargets, parseLines_eq]
  generalize targetLines (getlines text) = args
  have hok : (args.all fun arg => ¬Rejected arg) = true ↔ ∀ arg ∈ args, ¬Rejected arg := by
    simp only [List.all_eq_true, decide_eq_true_eq]
  constructor
  · rintro ⟨new, hnew, hall, _, hnumbers⟩
    rw [← List.append_cancel_left hnew] at hnumbers
    refine ⟨(numbers_iff args).mp hnumbers, ?_⟩
    by_cases hrej : ∃ arg ∈ args, Rejected arg
    · exact .inl hrej
    · refine .inr fun arg harg => ?_
      push Not at hrej
      obtain ⟨t, ht⟩ := hall.mp (hok.mpr hrej) arg harg
      exact ht.read.2.1
  · rintro ⟨hrange, hplain⟩
    have hwritten : (∀ arg ∈ args, ¬Rejected arg) → ∀ arg ∈ args, Writes arg (targetOf arg) := by
      intro hnone arg harg
      have hplain := hplain.resolve_left fun ⟨arg, harg, hrej⟩ => hnone arg harg hrej
      rw [accepted_all hnone] at hrange
      obtain ⟨hlow, hhigh⟩ := hrange arg harg
      exact writes_targetOf (hnone arg harg) hlow hhigh (hplain arg harg)
    refine ⟨_, rfl, ?_, fun htrue => ?_, (numbers_iff args).mpr hrange⟩
    · rw [hok]
      refine ⟨fun hnone arg harg => ⟨_, hwritten hnone arg harg⟩, fun hall arg harg => ?_⟩
      obtain ⟨t, ht⟩ := hall arg harg
      exact ht.read.1
    · have hnone := hok.mp htrue
      rw [accepted_all hnone, List.forall₂_map_right_iff, List.forall₂_same]
      exact hwritten hnone

/-- Port 65616 is accepted as port 80. -/
theorem port_wraps :
    parseTargets [] (some (text "h:65616")) = (true, [(text "h", 80)]) ∧
      ¬PortsKept [] (text "h:65616") := by
  have hparse : parseTargets [] (some (text "h:65616")) = (true, [(text "h", 80)]) := by
    decide +kernel
  refine ⟨hparse, fun h => ?_⟩
  rw [PortsKept, hparse] at h
  obtain ⟨_, _, hall, _⟩ := h
  obtain ⟨t, ht⟩ := hall.mp rfl (text "h:65616") (by decide +kernel)
  exact absurd ht.read.2.2 (by decide +kernel)

end Fcopy
