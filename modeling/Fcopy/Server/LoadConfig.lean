import Mathlib.Data.List.TakeWhile
import Fcopy.Wire.Ints

/-! Lines of the configuration file (`server/load_config.cpp`).

    `parse_line` walks over a line and collects its tokens. A token that starts with a double quote is read
    by `unescape`, which stops at the closing quote:

        "a b" c            after `unescape` the cursor is on the second quote,
            ▲              and the next round takes it for the start of a token

    Nothing steps over the closing quote, so after a quoted token every round starts at a quote, until
    there is none left and the line is refused. `Written` and `Spells` say how a line writes down its
    tokens; such a line gives them back exactly when none of them is quoted (`parseLine_iff`). -/

namespace Fcopy

def quote : UInt8 := 34

def backslash : UInt8 := 92

def hash : UInt8 := 35

/-- `std::isspace` of the "C" locale. -/
def isSpace (c : UInt8) : Bool := c = 32 ∨ 9 ≤ c ∧ c ≤ 13

/-- The byte an escape stands for. -/
def escapeOf (e : UInt8) : Option UInt8 :=
  if e = 110 then some 10
  else if e = 114 then some 13
  else if e = 116 then some 9
  else if e = 39 ∨ e = quote ∨ e = backslash then some e
  else none

/-- Output and cursor of `unescape`; a cursor is the text from it on, so `[]` is `end`. -/
def unescape : Bytes → Bytes → Bytes × Bytes
  | [], s => (s, [])
  | c :: str, s =>
    if c = quote then (s, c :: str)
    else if c = backslash then
      match str with
      | [] => (s, [])
      | e :: str =>
        match escapeOf e with
        | none => (s, [])
        | some b => unescape str (s ++ [b])
    else unescape str (s ++ [c])

def isBare (c : UInt8) : Bool := !isSpace c ∧ c ≠ hash

/-- One token, from its first byte `c`, and the cursor behind it; `none` is `return -1`. -/
def parseToken (c : UInt8) (str : Bytes) : Option (Bytes × Bytes) :=
  if c = quote then
    match unescape str [] with
    | (_, []) => none
    | (tmp, str) => some (tmp, str)
  else some ((c :: str).takeWhile isBare, (c :: str).dropWhile isBare)

/-- The loop of `parse_line`. Every round moves the cursor, so as many rounds as there are bytes
    suffice (`parseLoop_fuel`). -/
def parseLoop : ℕ → Bytes → List Bytes → Option (List Bytes)
  | 0, _, vec => some vec
  | fuel + 1, str, vec =>
    match str.dropWhile isSpace with
    | [] => some vec
    | c :: str =>
      if c = hash then some vec
      else
        match parseToken c str with
        | none => none
        | some (tmp, str) => parseLoop fuel str (vec ++ [tmp])

/-- The results -1, 0, and 1 with `key` and `args`. -/
inductive ParsedLine where
  | failed
  | blank
  | parsed (key : Bytes) (args : List Bytes)
  deriving DecidableEq

def ParsedLine.ofTokens : List Bytes → ParsedLine
  | [] => .blank
  | key :: args => .parsed key args

def parseLine (line : Bytes) : ParsedLine :=
  match parseLoop (line.length + 1) line [] with
  | none => .failed
  | some vec => .ofTokens vec

/-! ### How tokens are written -/

/-- A piece of a quoted token: a byte that stands for itself, or an escape. -/
inductive QuotedChar where
  | plain (c : UInt8) (hc : c ≠ quote ∧ c ≠ backslash)
  | escape (e b : UInt8) (he : escapeOf e = some b)

def QuotedChar.text : QuotedChar → Bytes
  | .plain c _ => [c]
  | .escape e _ _ => [backslash, e]

def QuotedChar.value : QuotedChar → UInt8
  | .plain c _ => c
  | .escape _ b _ => b

/-- A token as it is written. -/
inductive Written where
  | bare (t : Bytes) (hne : t ≠ []) (ht : ∀ c ∈ t, isBare c = true) (hq : t.head? ≠ some quote)
  | quoted (ps : List QuotedChar)

namespace Written

def text : Written → Bytes
  | .bare t _ _ _ => t
  | .quoted ps => quote :: ((ps.map QuotedChar.text).flatten ++ [quote])

def value : Written → Bytes
  | .bare t _ _ _ => t
  | .quoted ps => ps.map QuotedChar.value

def IsBare : Written → Prop
  | .bare .. => True
  | .quoted _ => False

end Written

def AllSpace (t : Bytes) : Prop := ∀ c ∈ t, isSpace c = true

/-- What may follow the last token: whitespace, and behind some whitespace a comment. -/
def Trailing (t : Bytes) : Prop :=
  AllSpace t ∨ ∃ sep comment, sep ≠ [] ∧ AllSpace sep ∧ t = sep ++ hash :: comment

/-- The line writes down these tokens. -/
inductive Spells : List Written → Bytes → Prop
  | last (w : Written) (t : Bytes) (ht : Trailing t) : Spells [w] (w.text ++ t)
  | cons (w : Written) (sep : Bytes) (hne : sep ≠ []) (hsep : AllSpace sep) {ws : List Written}
      {line : Bytes} (h : Spells ws line) : Spells (w :: ws) (w.text ++ (sep ++ line))

/-- The text writes down these tokens with whitespace behind each. -/
inductive Precedes : List Written → Bytes → Prop
  | nil : Precedes [] []
  | cons (w : Written) (sep : Bytes) (hne : sep ≠ []) (hsep : AllSpace sep) {ws : List Written}
      {t : Bytes} (h : Precedes ws t) : Precedes (w :: ws) (w.text ++ (sep ++ t))

/-- What is behind an opening quote is not closed, or has an escape that does not exist. -/
def Malformed (body : Bytes) : Prop :=
  ∃ ps : List QuotedChar, body = (ps.map QuotedChar.text).flatten ∨
    body = (ps.map QuotedChar.text).flatten ++ [backslash] ∨
    ∃ e rest, escapeOf e = none ∧ body = (ps.map QuotedChar.text).flatten ++ backslash :: e :: rest

/-! ### The cursor -/

theorem unescape_length (str s : Bytes) : (unescape str s).2.length ≤ str.length := by
  fun_induction unescape str s with
  | case1 s => exact le_rfl
  | case2 str s => exact le_rfl
  | case3 s hne => exact Nat.zero_le _
  | case4 s e str hesc hne => exact Nat.zero_le _
  | case5 s e str b hesc hne ih => exact ih.trans (by simp only [List.length_cons]; omega)
  | case6 c str s hq hb ih => exact ih.trans (Nat.le_succ _)

/-- `unescape` stops at the end or at a quote. -/
theorem unescape_stop (str s : Bytes) :
    (unescape str s).2 = [] ∨ ∃ rest, (unescape str s).2 = quote :: rest := by
  fun_induction unescape str s with
  | case2 str s => exact .inr ⟨str, rfl⟩
  | case5 s e str b hesc hne ih => exact ih
  | case6 c str s hq hb ih => exact ih
  | _ => exact .inl rfl

theorem unescape_quote (str s : Bytes) : unescape (quote :: str) s = (s, quote :: str) := by
  cases str <;> rfl

theorem unescape_char (p : QuotedChar) (str s : Bytes) :
    unescape (p.text ++ str) s = unescape str (s ++ [p.value]) := by
  cases p with
  | plain c hc => cases str <;> simp [QuotedChar.text, QuotedChar.value, unescape, hc]
  | escape e b he =>
    have hne : backslash ≠ quote := by decide
    simp [QuotedChar.text, QuotedChar.value, unescape, hne, he]

/-- `unescape` undoes the pieces of a quoted token one by one and leaves the cursor on the closing
    quote. -/
theorem unescape_quoted (ps : List QuotedChar) (str s : Bytes) :
    unescape ((ps.map QuotedChar.text).flatten ++ quote :: str) s =
      (s ++ ps.map QuotedChar.value, quote :: str) := by
  induction ps generalizing s with
  | nil => rw [List.map_nil, List.map_nil, List.flatten_nil, List.nil_append, List.append_nil,
      unescape_quote]
  | cons p ps ih =>
    rw [List.map_cons, List.flatten_cons, List.append_assoc, unescape_char, ih, List.append_assoc]
    rfl

theorem parseToken_length {c : UInt8} {str tmp rest : Bytes} (hc : isSpace c = false ∧ c ≠ hash)
    (h : parseToken c str = some (tmp, rest)) : rest.length ≤ str.length := by
  rw [parseToken] at h
  split at h
  · have hlen := unescape_length str []
    split at h
    · cases h
    · rename_i heq
      cases h
      rwa [heq] at hlen
  · have hbare : isBare c = true := by simp [isBare, hc]
    rw [List.takeWhile_cons_of_pos hbare, List.dropWhile_cons_of_pos hbare] at h
    cases h
    exact (List.dropWhile_sublist _).length_le

/-- The byte a round starts from. -/
theorem head_dropWhile {str rest : Bytes} {c : UInt8} (h : str.dropWhile isSpace = c :: rest) :
    isSpace c = false ∧ rest.length < str.length := by
  have hlen := (List.dropWhile_sublist isSpace (l := str)).length_le
  have hhead := List.head_dropWhile_not isSpace (l := str) (by rw [h]; exact List.cons_ne_nil _ _)
  simp only [h, List.head_cons] at hhead
  rw [h, List.length_cons] at hlen
  exact ⟨hhead, hlen⟩

/-- Rounds to spare change nothing. -/
theorem parseLoop_fuel : ∀ {n m : ℕ} {str : Bytes} (vec : List Bytes), str.length < n →
    str.length < m → parseLoop n str vec = parseLoop m str vec
  | n + 1, m + 1, str, vec, hn, hm => by
    rw [parseLoop, parseLoop]
    split
    · rfl
    rename_i c rest hstr
    obtain ⟨hc, hlen⟩ := head_dropWhile hstr
    split
    · rfl
    rename_i hhash
    split
    · rfl
    rename_i tmp rest' htok
    have hrest := parseToken_length ⟨hc, hhash⟩ htok
    exact parseLoop_fuel _ (by omega) (by omega)

/-! ### A round -/

/-- A round that finds nothing but whitespace, or whitespace and a comment, is the last. -/
theorem parseLoop_trailing {t : Bytes} (ht : Trailing t) (n : ℕ) (vec : List Bytes) :
    parseLoop n t vec = some vec := by
  cases n with
  | zero => rfl
  | succ n =>
    rw [parseLoop]
    rcases ht with ht | ⟨sep, comment, _, hsep, rfl⟩
    · rw [List.dropWhile_eq_nil_iff.mpr ht]
    · rw [List.dropWhile_append_of_pos hsep]
      rfl

/-- Whitespace in front of a round is skipped. -/
theorem parseLoop_space {sep : Bytes} (hsep : AllSpace sep) (n : ℕ) (str : Bytes)
    (vec : List Bytes) : parseLoop n (sep ++ str) vec = parseLoop n str vec := by
  cases n with
  | zero => rfl
  | succ n => rw [parseLoop, parseLoop, List.dropWhile_append_of_pos hsep]

/-- A round on a bare token. -/
theorem parseLoop_bare {t r : Bytes} (hne : t ≠ []) (ht : ∀ c ∈ t, isBare c = true)
    (hq : t.head? ≠ some quote) (hr : r.dropWhile isBare = r) (n : ℕ) (vec : List Bytes) :
    parseLoop (n + 1) (t ++ r) vec = parseLoop n r (vec ++ [t]) := by
  obtain ⟨c, t', rfl⟩ := List.exists_cons_of_ne_nil hne
  have hc : isSpace c = false ∧ c ≠ hash := by simpa [isBare] using ht c List.mem_cons_self
  have hquote : c ≠ quote := by simpa using hq
  have hstop : r.takeWhile isBare = [] := by
    have h := List.takeWhile_append_dropWhile (p := isBare) (l := r)
    rw [hr] at h
    exact List.append_left_eq_self.mp h
  rw [parseLoop, List.cons_append, List.dropWhile_cons_of_neg (by simp [hc.1])]
  simp only [if_neg hc.2, parseToken, if_neg hquote]
  rw [← List.cons_append, List.takeWhile_append_of_pos ht, List.dropWhile_append_of_pos ht, hstop, hr,
    List.append_nil]

/-- A round that starts at a quote never gets past quotes: the line is refused. -/
theorem parseLoop_quote : ∀ {n : ℕ} (str : Bytes) (vec : List Bytes), str.length < n →
    parseLoop n (quote :: str) vec = none
  | n + 1, str, vec, hn => by
    have hspace : isSpace quote = false := by decide
    have hhash : quote ≠ hash := by decide
    rw [parseLoop, List.dropWhile_cons_of_neg (by simp [hspace])]
    simp only [if_neg hhash, parseToken, if_true]
    have hlen := unescape_length str []
    obtain ⟨tmp, cursor, hun⟩ : ∃ tmp cursor, unescape str [] = (tmp, cursor) := ⟨_, _, rfl⟩
    have hstop := unescape_stop str []
    simp only [hun] at hlen hstop ⊢
    rcases hstop with rfl | ⟨rest, rfl⟩
    · rfl
    · rw [List.length_cons] at hlen
      exact parseLoop_quote rest _ (by omega)

/-! ### Lines -/

/-- Where a bare token ends. -/
theorem dropWhile_bare_sep {sep : Bytes} (hne : sep ≠ []) (hsep : AllSpace sep) (t : Bytes) :
    (sep ++ t).dropWhile isBare = sep ++ t := by
  obtain ⟨c, sep, rfl⟩ := List.exists_cons_of_ne_nil hne
  have hc : isSpace c = true := hsep c List.mem_cons_self
  rw [List.cons_append, List.dropWhile_cons_of_neg (by simp [isBare, hc])]

theorem dropWhile_bare_trailing {t : Bytes} (ht : Trailing t) : t.dropWhile isBare = t := by
  rcases ht with ht | ⟨sep, comment, hne, hsep, rfl⟩
  · cases t with
    | nil => rfl
    | cons c t => exact List.append_nil (c :: t) ▸ dropWhile_bare_sep (List.cons_ne_nil c t) ht []
  · exact dropWhile_bare_sep hne hsep _

/-- The tokens of a text that goes on are all read when they are bare; a quoted one is the end. -/
theorem parseLoop_precedes {ws : List Written} {pre : Bytes} (h : Precedes ws pre) (body : Bytes) :
    ∀ {n m : ℕ} (vec : List Bytes), (pre ++ body).length < n → body.length < m →
      (∀ w ∈ ws, w.IsBare) ∧
          parseLoop n (pre ++ body) vec = parseLoop m body (vec ++ ws.map Written.value) ∨
        ¬(∀ w ∈ ws, w.IsBare) ∧ parseLoop n (pre ++ body) vec = none := by
  induction h with
  | nil =>
    intro n m vec hn hm
    refine .inl ⟨by simp, ?_⟩
    rw [List.map_nil, List.append_nil, List.nil_append]
    exact parseLoop_fuel vec hn hm
  | @cons w sep hne hsep ws t h ih =>
    intro n m vec hn hm
    obtain ⟨k, rfl⟩ : ∃ k, n = k + 1 := ⟨n - 1, by omega⟩
    cases w with
    | quoted ps =>
      refine .inr ⟨fun hall => hall _ List.mem_cons_self, ?_⟩
      simp only [Written.text, List.cons_append, List.length_cons] at hn ⊢
      exact parseLoop_quote _ vec hn.le
    | bare tok hne' htok hq =>
      have hpos := List.length_pos_iff.mpr hne'
      simp only [Written.text, List.append_assoc, List.length_append] at hn ⊢
      rw [parseLoop_bare hne' htok hq (dropWhile_bare_sep hne hsep _), parseLoop_space hsep]
      rcases ih (vec ++ [tok]) (n := k) (by rw [List.length_append]; omega) hm with
        ⟨hall, hrun⟩ | ⟨hall, hrun⟩
      · refine .inl ⟨?_, by rw [hrun, List.append_assoc]; rfl⟩
        rintro w (_ | ⟨_, hw⟩)
        exacts [trivial, hall w hw]
      · exact .inr ⟨fun hw => hall fun w hmem => hw w (List.mem_cons_of_mem _ hmem), hrun⟩

/-- A line is its last token and what precedes it. -/
theorem Spells.split {ws : List Written} {line : Bytes} (h : Spells ws line) :
    ∃ ws' pre w t, Precedes ws' pre ∧ Trailing t ∧ ws = ws' ++ [w] ∧
      line = pre ++ (w.text ++ t) := by
  induction h with
  | last w t ht => exact ⟨[], [], w, t, .nil, ht, rfl, rfl⟩
  | cons w sep hne hsep h ih =>
    obtain ⟨ws', pre, w', t, hpre, ht, rfl, rfl⟩ := ih
    exact ⟨w :: ws', _, w', t, .cons w sep hne hsep hpre, ht, rfl, by simp only [List.append_assoc]⟩

/-- The tokens of a line that has all of them bare; no tokens when one is quoted. -/
theorem parseLoop_spells {ws : List Written} {line : Bytes} (h : Spells ws line) :
    (∀ w ∈ ws, w.IsBare) ∧ parseLoop (line.length + 1) line [] = some (ws.map Written.value) ∨
      ¬(∀ w ∈ ws, w.IsBare) ∧ parseLoop (line.length + 1) line [] = none := by
  obtain ⟨ws, pre, w, t, hpre, ht, rfl, rfl⟩ := h.split
  rcases parseLoop_precedes hpre (w.text ++ t) [] (Nat.lt_succ_self _)
    (m := (w.text ++ t).length + 1) (Nat.lt_succ_self _) with ⟨hall, hrun⟩ | ⟨hall, hrun⟩
  · rw [hrun, List.nil_append]
    cases w with
    | quoted ps =>
      refine .inr ⟨fun hw => hw (.quoted ps) (by simp), ?_⟩
      simp only [Written.text, List.cons_append]
      exact parseLoop_quote _ _ (Nat.lt_succ_of_le (Nat.le_succ _))
    | bare tok hne htok hq =>
      refine .inl ⟨?_, ?_⟩
      · intro w hw
        rcases List.mem_append.mp hw with hw | hw
        · exact hall w hw
        · exact List.mem_singleton.mp hw ▸ trivial
      · rw [Written.text, parseLoop_bare hne htok hq (dropWhile_bare_trailing ht),
          parseLoop_trailing ht, List.map_append]
        rfl
  · exact .inr ⟨fun hw => hall fun w hmem => hw w (List.mem_append_left _ hmem), hrun⟩

theorem Spells.ne_nil {ws : List Written} {line : Bytes} (h : Spells ws line) : ws ≠ [] := by
  cases h <;> exact List.cons_ne_nil _ _

/-- CORRECT (tokens): a line gives back the tokens it writes down exactly when none of them is
    written in quotes, and a quoted token that is not closed or has an unknown escape makes the line
    fail. -/
theorem parseLine_iff (ws : List Written) (line : Bytes) :
    (Spells ws line →
      (parseLine line = .ofTokens (ws.map Written.value) ↔ ∀ w ∈ ws, w.IsBare)) ∧
    ∀ body, Precedes ws line → Malformed body → parseLine (line ++ quote :: body) = .failed := by
  refine ⟨fun h => ?_, fun body h _ => ?_⟩
  · rcases parseLoop_spells h with ⟨hall, hrun⟩ | ⟨hall, hrun⟩
    · exact iff_of_true (by simp only [parseLine, hrun]) hall
    · refine iff_of_false (fun heq => ?_) hall
      obtain ⟨w, ws, rfl⟩ := List.exists_cons_of_ne_nil h.ne_nil
      simp only [parseLine, hrun, List.map_cons, ParsedLine.ofTokens] at heq
      cases heq
  · rw [parseLine]
    rcases parseLoop_precedes h (quote :: body) [] (Nat.lt_succ_self _)
      (m := body.length + 2) (Nat.lt_succ_self _) with ⟨_, hrun⟩ | ⟨_, hrun⟩
    · rw [hrun, parseLoop_quote body _ (Nat.lt_succ_of_le (Nat.le_succ _))]
    · rw [hrun]

/-- A token of one byte. -/
def Written.single (c : UInt8) (hc : isBare c = true) (hq : c ≠ quote) : Written :=
  .bare [c] (by simp) (by simpa using hc) (by simpa using hq)

/-- The lines `a b #` and `b "` with the unknown escape `\x`. -/
theorem parseLine_iff_bare :
    (parseLine [97, 32, 98, 32, hash] = .ofTokens [[97], [98]] ↔
      ∀ w ∈ [Written.single 97 (by decide) (by decide),
        Written.single 98 (by decide) (by decide)], w.IsBare) ∧
    parseLine ([98, 32] ++ quote :: [backslash, 120]) = .failed := by
  have hsep : AllSpace [32] := by simp [AllSpace, isSpace]
  have hb := Spells.last (Written.single 98 (by decide) (by decide)) [32, hash]
    (.inr ⟨[32], [], by simp, hsep, rfl⟩)
  have ha := Spells.cons (Written.single 97 (by decide) (by decide)) [32] (by simp) hsep hb
  have hpre := Precedes.cons (Written.single 98 (by decide) (by decide)) [32] (by simp) hsep
    Precedes.nil
  exact ⟨(parseLine_iff _ _).1 ha,
    (parseLine_iff _ _).2 _ hpre ⟨[], .inr (.inr ⟨120, [], by decide, rfl⟩)⟩⟩

/-- The line `"a"` writes down one token and is refused. -/
theorem quoted_token_refused :
    ¬∀ ws line, Spells ws line → parseLine line = .ofTokens (ws.map Written.value) := by
  intro h
  have ha := h _ _ (Spells.last (.quoted [.plain 97 (by decide)]) [] (.inl (by simp [AllSpace])))
  exact absurd ha (by decide)

end Fcopy
