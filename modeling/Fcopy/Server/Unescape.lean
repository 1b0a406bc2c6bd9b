import Fcopy.Server.LoadConfig

/-! Quoted tokens of the configuration file (`server/load_config.cpp`, `unescape`).

    `Escapes s e` says that `e` is `s` written between double quotes: double quotes and backslashes as
    escapes, newlines, carriage returns, tabs and single quotes as escapes or as they are, any other
    byte as it is.

        s:   a   "    \    ⏎         the scan is over at the first quote that no
        e:   a  \ "  \ \  \ n  "     backslash stands for: a run of backslashes
                               ▲     in front of it is read in pairs

    `unescape` reads `e` back, and what it reads up to a quote is always such an `e`
    (`unescape_escapes`). -/

namespace Fcopy

/-- The letter that stands for a byte behind a backslash. -/
def escapeLetter (c : UInt8) : Option UInt8 :=
  if c = 10 then some 110
  else if c = 13 then some 114
  else if c = 9 then some 116
  else if c = 39 ∨ c = quote ∨ c = backslash then some c
  else none

/-- `e` is `s`, escaped. -/
inductive Escapes : Bytes → Bytes → Prop
  | nil : Escapes [] []
  | plain (c : UInt8) (hc : c ≠ quote ∧ c ≠ backslash) {s e : Bytes} (h : Escapes s e) :
      Escapes (c :: s) (c :: e)
  | escape (c l : UInt8) (hl : escapeLetter c = some l) {s e : Bytes} (h : Escapes s e) :
      Escapes (c :: s) (backslash :: l :: e)

/-! ### Escapes and their pieces -/

/-- The `switch` of `unescape` is the table of letters, read the other way round. -/
theorem escapeOf_eq_some_iff {l c : UInt8} : escapeOf l = some c ↔ escapeLetter c = some l := by
  constructor
  · intro h
    rw [escapeOf] at h
    split_ifs at h with h₁ h₂ h₃ h₄
    · cases h; subst h₁; decide
    · cases h; subst h₂; decide
    · cases h; subst h₃; decide
    · cases h
      rcases h₄ with rfl | rfl | rfl <;> decide
  · intro h
    rw [escapeLetter] at h
    split_ifs at h with h₁ h₂ h₃ h₄
    · cases h; subst h₁; decide
    · cases h; subst h₂; decide
    · cases h; subst h₃; decide
    · cases h
      rcases h₄ with rfl | rfl | rfl <;> decide

/-- An escaped string as pieces of a quoted token. -/
theorem Escapes.pieces {s e : Bytes} (h : Escapes s e) :
    ∃ ps : List QuotedChar, s = ps.map QuotedChar.value ∧ e = (ps.map QuotedChar.text).flatten := by
  induction h with
  | nil => exact ⟨[], rfl, rfl⟩
  | plain c hc _ ih =>
    obtain ⟨ps, rfl, rfl⟩ := ih
    exact ⟨.plain c hc :: ps, rfl, rfl⟩
  | escape c l hl _ ih =>
    obtain ⟨ps, rfl, rfl⟩ := ih
    exact ⟨.escape l c (escapeOf_eq_some_iff.mpr hl) :: ps, rfl, rfl⟩

/-! ### What `unescape` reads -/

/-- A scan that does not end at `end` has read an escaped string, up to the quote behind it. -/
theorem unescape_reads (str out : Bytes) (hne : (unescape str out).2 ≠ []) :
    ∃ s e r, Escapes s e ∧ str = e ++ quote :: r ∧ unescape str out = (out ++ s, quote :: r) := by
  fun_induction unescape str out with
  | case2 str out => exact ⟨[], [], str, .nil, rfl, by rw [List.append_nil]⟩
  | case5 out l str c hesc hquote ih =>
    obtain ⟨s, e, r, he, rfl, hun⟩ := ih hne
    refine ⟨c :: s, backslash :: l :: e, r, .escape c l (escapeOf_eq_some_iff.mp hesc) he, rfl, ?_⟩
    rw [hun, List.append_assoc, List.singleton_append]
  | case6 c str out hquote hback ih =>
    obtain ⟨s, e, r, he, rfl, hun⟩ := ih hne
    refine ⟨c :: s, c :: e, r, .plain c ⟨hquote, hback⟩ he, rfl, ?_⟩
    rw [hun, List.append_assoc, List.singleton_append]
  | _ => exact absurd rfl hne

/-- An escaped string, up to the quote behind it. -/
theorem Escapes.unescape {s e : Bytes} (h : Escapes s e) (r out : Bytes) :
    Fcopy.unescape (e ++ quote :: r) out = (out ++ s, quote :: r) := by
  obtain ⟨ps, rfl, rfl⟩ := h.pieces
  exact unescape_quoted ps r out

/-- CORRECT (quoted token): what `parse_line` takes for a token behind an opening quote is the text
    up to the closing quote, with its escapes undone. -/
theorem parseToken_quote_iff (str tmp rest : Bytes) :
    parseToken quote str = some (tmp, rest) ↔
      ∃ e r, Escapes tmp e ∧ str = e ++ quote :: r ∧ rest = quote :: r := by
  rw [parseToken, if_pos rfl]
  constructor
  · intro h
    have hreads := unescape_reads str []
    split at h
    · cases h
    · rename_i hne heq
      cases h
      rw [heq] at hreads
      obtain ⟨s, e, r, he, hstr, hun⟩ := hreads hne
      cases hun
      exact ⟨e, r, he, hstr, rfl⟩
  · rintro ⟨e, r, he, rfl, rfl⟩
    rw [he.unescape]
    rfl

/-- CORRECT (escapes): `unescape` undoes any escaping of any string and stops on the quote behind it;
    and where it stops on anything but `end`, it has read an escaping of what it has appended. -/
theorem unescape_escapes (out : Bytes) :
    (∀ s e r, Escapes s e → unescape (e ++ quote :: r) out = (out ++ s, quote :: r)) ∧
    ∀ str out' rest, unescape str out = (out', rest) → rest ≠ [] →
      ∃ s e r, Escapes s e ∧ str = e ++ rest ∧ out' = out ++ s ∧ rest = quote :: r := by
  refine ⟨fun s e r he => he.unescape r out, fun str out' rest hun hne => ?_⟩
  have hreads := unescape_reads str out
  rw [hun] at hreads
  obtain ⟨s, e, r, he, hstr, heq⟩ := hreads hne
  cases heq
  exact ⟨s, e, r, he, hstr, rfl, rfl⟩

/-- The string `a`, backslash, newline, written `a\\\n`, before a quote and a further backslash. -/
theorem unescape_escapes_backslashes :
    let str := [97, backslash, backslash, backslash, 110] ++ quote :: [backslash]
    unescape str [] = ([97, backslash, 10], quote :: [backslash]) ∧
      ∃ s e r, Escapes s e ∧ str = e ++ quote :: [backslash] ∧ [97, backslash, 10] = [] ++ s ∧
        quote :: [backslash] = quote :: r := by
  have he : Escapes [97, backslash, 10] [97, backslash, backslash, backslash, 110] :=
    .plain 97 (by decide) (.escape backslash backslash (by decide) (.escape 10 110 (by decide) .nil))
  have hun := (unescape_escapes []).1 _ _ [backslash] he
  exact ⟨hun, (unescape_escapes []).2 _ _ _ hun (List.cons_ne_nil _ _)⟩

end Fcopy
