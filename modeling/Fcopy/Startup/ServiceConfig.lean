import Mathlib.Data.List.Nodup
import Fcopy.Schemes.Assign
import Fcopy.Client.ParseTargets

/-! The configuration file (`load_service_config` in `server/load_config.cpp`).

    A line is a key and its arguments. The key says where they go, through one table for each type of
    value, and the parser of that type reads them; a key in no table is passed over.

        port 5200               ──▶ port := 5200
        partitions ssd /mnt/a   ──▶ ssd ↦ /mnt/a, unless ssd is there
        port 52x0               ──▶ "Parse config failed line:3 key:port", and the rest is not read

    Lines that were read stay in effect. A setting is what the last of them says about it, a partition
    what the first says. -/

namespace Fcopy
open Function Numerals

/-! ### The values -/

/-- `std::stoll`: the value and the position behind it; `none` is an exception. -/
def stoll (s : Bytes) : Option (ℤ × ℕ) :=
  let (minus, t) := sign ((cString s).dropWhile isSpace)
  let v : ℤ := if minus then -(value (digits t) : ℤ) else value (digits t)
  if digits t = [] ∨ v < -2 ^ 63 ∨ 2 ^ 63 ≤ v then none
  else some (v, (cString s).length - (rest t).length)

/-- `none` is a result of -1, as in the parsers below. -/
def parseSigned : List Bytes → Option (BitVec 32)
  | [arg] =>
    match stoll arg with
    | none => none
    | some (u, pos) =>
      if pos ≠ arg.length ∨ 2 ^ 31 - 1 < u ∨ u < -2 ^ 31 then none else some (BitVec.ofInt 32 u)
  | _ => none

def parseBool : List Bytes → Option Bool
  | [str] => if str = text "yes" then some true else if str = text "no" then some false else none
  | _ => none

def parseString : List Bytes → Option Bytes
  | [str] => some str
  | _ => none

structure FsPartition where
  name : Bytes
  rootPath : Bytes
  deriving DecidableEq

structure FcopyConfig where
  daemonize : Bool := false
  directio : Bool := true
  port : BitVec 32 := 5200
  srvMaxConn : BitVec 32 := 4096
  srvPeerResponseTimeout : BitVec 32 := 10 * 1000
  srvReceiveTimeout : BitVec 32 := -1
  srvKeepAliveTimeout : BitVec 32 := 300 * 1000
  srvSizeLimit : ℕ := 128 * 2 ^ 20
  cliRetryMax : BitVec 32 := 2
  cliSendTimeout : BitVec 32 := -1
  cliReceiveTimeout : BitVec 32 := -1
  cliKeepAliveTimeout : BitVec 32 := 300 * 1000
  logfile : Bytes := []
  pidfile : Bytes := []
  basedir : Bytes := []
  conffile : Bytes := []
  defaultPartition : Bytes := []
  partitions : Bytes → Option FsPartition := fun _ => none

/-- `std::map::insert`, which leaves a name that is there. -/
def parsePartition (p : Bytes → Option FsPartition) : List Bytes → Option (Bytes → Option FsPartition)
  | [name, root] => some (update p name ((p name).or (some ⟨name, root⟩)))
  | _ => none

/-! ### The tables -/

/-- The types of the tables: `int_map`, `cap_map`, `str_map`, `bool_map`. -/
inductive ValueKind where
  | int | cap | str | flag

def ValueKind.Val : ValueKind → Type
  | .int => BitVec 32
  | .cap => ℕ
  | .str => Bytes
  | .flag => Bool

def ValueKind.parse : (k : ValueKind) → List Bytes → Option k.Val
  | .int => parseSigned
  | .cap => parseSize
  | .str => parseString
  | .flag => parseBool

/-- What the pointers of the tables point to. -/
inductive Setting : ValueKind → Type
  | port : Setting .int
  | srvMaxConn : Setting .int
  | srvPeerResponseTimeout : Setting .int
  | srvReceiveTimeout : Setting .int
  | srvKeepAliveTimeout : Setting .int
  | cliRetryMax : Setting .int
  | cliSendTimeout : Setting .int
  | cliReceiveTimeout : Setting .int
  | cliKeepAliveTimeout : Setting .int
  | srvSizeLimit : Setting .cap
  | logfile : Setting .str
  | pidfile : Setting .str
  | basedir : Setting .str
  | defaultPartition : Setting .str
  | daemonize : Setting .flag
  | directio : Setting .flag

def boolMap : List (Bytes × Setting .flag) :=
  [(text "daemonize", .daemonize), (text "directio", .directio)]

def intMap : List (Bytes × Setting .int) :=
  [(text "port", .port),
   (text "srv_max_conn", .srvMaxConn),
   (text "srv-peer-response-timeout", .srvPeerResponseTimeout),
   (text "srv-receive-timeout", .srvReceiveTimeout),
   (text "srv-keep-alive-timeout", .srvKeepAliveTimeout),
   (text "cli-retry-max", .cliRetryMax),
   (text "cli-send-timeout", .cliSendTimeout),
   (text "cli-receive-timeout", .cliReceiveTimeout),
   (text "cli-keep-alive-timeout", .cliKeepAliveTimeout)]

def capMap : List (Bytes × Setting .cap) := [(text "request-size-limit", .srvSizeLimit)]

def strMap : List (Bytes × Setting .str) :=
  [(text "logfile", .logfile), (text "pidfile", .pidfile), (text "basedir", .basedir),
   (text "default-partition", .defaultPartition)]

def findKey {k : ValueKind} (map : List (Bytes × Setting k)) (key : Bytes) : Option (Setting k) :=
  (map.find? fun x => x.1 = key).map (·.2)

namespace Setting

def get (p : FcopyConfig) : {k : ValueKind} → Setting k → k.Val
  | _, .port => p.port
  | _, .srvMaxConn => p.srvMaxConn
  | _, .srvPeerResponseTimeout => p.srvPeerResponseTimeout
  | _, .srvReceiveTimeout => p.srvReceiveTimeout
  | _, .srvKeepAliveTimeout => p.srvKeepAliveTimeout
  | _, .cliRetryMax => p.cliRetryMax
  | _, .cliSendTimeout => p.cliSendTimeout
  | _, .cliReceiveTimeout => p.cliReceiveTimeout
  | _, .cliKeepAliveTimeout => p.cliKeepAliveTimeout
  | _, .srvSizeLimit => p.srvSizeLimit
  | _, .logfile => p.logfile
  | _, .pidfile => p.pidfile
  | _, .basedir => p.basedir
  | _, .defaultPartition => p.defaultPartition
  | _, .daemonize => p.daemonize
  | _, .directio => p.directio

/-- A store through the pointer. -/
def set (p : FcopyConfig) : {k : ValueKind} → Setting k → k.Val → FcopyConfig
  | _, .port, v => { p with port := v }
  | _, .srvMaxConn, v => { p with srvMaxConn := v }
  | _, .srvPeerResponseTimeout, v => { p with srvPeerResponseTimeout := v }
  | _, .srvReceiveTimeout, v => { p with srvReceiveTimeout := v }
  | _, .srvKeepAliveTimeout, v => { p with srvKeepAliveTimeout := v }
  | _, .cliRetryMax, v => { p with cliRetryMax := v }
  | _, .cliSendTimeout, v => { p with cliSendTimeout := v }
  | _, .cliReceiveTimeout, v => { p with cliReceiveTimeout := v }
  | _, .cliKeepAliveTimeout, v => { p with cliKeepAliveTimeout := v }
  | _, .srvSizeLimit, v => { p with srvSizeLimit := v }
  | _, .logfile, v => { p with logfile := v }
  | _, .pidfile, v => { p with pidfile := v }
  | _, .basedir, v => { p with basedir := v }
  | _, .defaultPartition, v => { p with defaultPartition := v }
  | _, .daemonize, v => { p with daemonize := v }
  | _, .directio, v => { p with directio := v }

end Setting

/-! ### The loop over the lines -/

/-- The chain of `else if`; `size_map` is empty. -/
def setKey (p : FcopyConfig) (key : Bytes) (args : List Bytes) : Option FcopyConfig :=
  match findKey intMap key with
  | some s => (parseSigned args).map (s.set p)
  | none =>
    match findKey capMap key with
    | some s => (parseSize args).map (s.set p)
    | none =>
      match findKey strMap key with
      | some s => (parseString args).map (s.set p)
      | none =>
        match findKey boolMap key with
        | some s => (parseBool args).map (s.set p)
        | none =>
          if key = text "partitions" then
            (parsePartition p.partitions args).map fun m => { p with partitions := m }
          else some p

def lineError (lineno : ℕ) : Bytes := text "Parse config failed line:" ++ decimal lineno

/-- The text of an error, if there is one, and the configuration as it is then. -/
def loadLines : ℕ → List Bytes → FcopyConfig → Option Bytes × FcopyConfig
  | _, [], p => (none, p)
  | lineno, line :: lines, p =>
    match parseLine line with
    | .failed => (some (lineError (lineno + 1)), p)
    | .blank => loadLines (lineno + 1) lines p
    | .parsed key args =>
      match setKey p key args with
      | none => (some (lineError (lineno + 1) ++ text " key:" ++ key), p)
      | some p => loadLines (lineno + 1) lines p

/-- The file is `none` if it cannot be opened. -/
def loadServiceConfig (filepath : Bytes) (file : Option Bytes) (p : FcopyConfig) :
    Option Bytes × FcopyConfig :=
  match file with
  | none => (some (text "Open " ++ filepath ++ text " failed"), p)
  | some t => loadLines 0 (getlines t) p

/-! ### Whole numbers -/

/-- White space, maybe a sign, and digits; nothing behind them. -/
def WritesInt (arg : Bytes) (z : ℤ) : Prop :=
  ∃ sp ds, AllSpace sp ∧ AllDigits ds ∧ ds ≠ [] ∧
    (arg = sp ++ ds ∧ z = value ds ∨ arg = sp ++ 43 :: ds ∧ z = value ds ∨
      arg = sp ++ 45 :: ds ∧ z = -(value ds : ℤ))

/-- The bytes of a number, and of the space in front of it, are not NUL. -/
theorem WritesInt.cString {arg : Bytes} {z : ℤ} (h : WritesInt arg z) : cString arg = arg := by
  obtain ⟨sp, ds, hsp, hds, -, h⟩ := h
  have h0 : (0 : UInt8) ∉ sp := fun hmem => absurd (hsp 0 hmem) (by decide)
  have h1 : (0 : UInt8) ∉ ds := fun hmem => absurd (hds 0 hmem) (by decide)
  rw [Fcopy.cString, List.takeWhile_eq_self_iff]
  intro b hb
  rw [decide_eq_true_iff]
  rintro rfl
  rcases h with ⟨rfl, -⟩ | ⟨rfl, -⟩ | ⟨rfl, -⟩ <;> simp [h0, h1] at hb

theorem dropWhile_space {sp t : Bytes} (hsp : AllSpace sp) (ht : ∀ b ∈ t.head?, isSpace b = false) :
    (sp ++ t).dropWhile isSpace = t := by
  rw [List.dropWhile_append_of_pos hsp]
  cases t with
  | nil => rfl
  | cons b t => rw [List.dropWhile_cons, ht b rfl, if_neg Bool.false_ne_true]

/-- What follows a sign. -/
theorem sign_cases (t : Bytes) :
    t = (sign t).2 ∧ (sign t).1 = false ∨ t = 43 :: (sign t).2 ∧ (sign t).1 = false ∨
      t = 45 :: (sign t).2 ∧ (sign t).1 = true := by
  unfold sign
  split
  · exact .inr (.inl ⟨rfl, rfl⟩)
  · exact .inr (.inr ⟨rfl, rfl⟩)
  · exact .inl ⟨rfl, rfl⟩

/-- A text that is a number, read from behind the white space. -/
theorem stoll_number {sp t ds : Bytes} {minus : Bool} (hsp : AllSpace sp)
    (ht : ∀ b ∈ t.head?, isSpace b = false) (hsign : sign t = (minus, ds)) (hds : AllDigits ds)
    (hne : ds ≠ []) (hc : cString (sp ++ t) = sp ++ t) {v : ℤ}
    (hv : v = if minus then -(value ds : ℤ) else value ds) (hlow : -2 ^ 63 ≤ v) (hhigh : v < 2 ^ 63) :
    stoll (sp ++ t) = some (v, (sp ++ t).length) := by
  have hdigits : digits ds = ds ∧ rest ds = [] := by simpa using digits_append hds (t := []) (by simp)
  rw [stoll, hc, dropWhile_space hsp ht, hsign]
  simp only [hdigits.1, hdigits.2, ← hv]
  rw [if_neg, List.length_nil, Nat.sub_zero]
  rintro (h | h | h)
  · exact hne h
  · omega
  · omega

/-- `stoll` reads all of an argument exactly when it is a number that fits. -/
theorem stoll_all {arg : Bytes} {u : ℤ} :
    stoll arg = some (u, arg.length) ↔ WritesInt arg u ∧ -2 ^ 63 ≤ u ∧ u < 2 ^ 63 := by
  constructor
  · intro h
    rw [stoll] at h
    have hsign := sign_cases ((cString arg).dropWhile isSpace)
    have hspace := List.takeWhile_append_dropWhile (p := isSpace) (l := cString arg)
    have hall : AllSpace ((cString arg).takeWhile isSpace) := fun c hc => List.mem_takeWhile_imp hc
    generalize hs : sign ((cString arg).dropWhile isSpace) = x at h hsign
    obtain ⟨minus, t⟩ := x
    simp only at h hsign
    generalize hu : (if minus = true then -(value (digits t) : ℤ) else value (digits t)) = v at h
    split at h
    · cases h
    · rename_i hgood
      push Not at hgood
      obtain ⟨hne, hlow, hhigh⟩ := hgood
      simp only [Option.some.injEq, Prod.mk.injEq] at h
      obtain ⟨rfl, hlen⟩ := h
      have hpre : (cString arg).length ≤ arg.length := (List.takeWhile_prefix _).length_le
      have hsplit : digits t ++ rest t = t := List.takeWhile_append_dropWhile
      have hpos : 0 < (digits t).length := List.length_pos_iff.mpr hne
      have htlen : t.length ≤ (cString arg).length := by
        have h1 := congrArg List.length hspace
        rw [List.length_append] at h1
        rcases hsign with ⟨h2, -⟩ | ⟨h2, -⟩ | ⟨h2, -⟩ <;>
          simp only [h2, List.length_cons] at h1 <;> omega
      have hrest : rest t = [] := by
        have h1 := congrArg List.length hsplit
        rw [List.length_append] at h1
        rw [← List.length_eq_zero_iff]
        omega
      have hc : cString arg = arg :=
        List.IsPrefix.eq_of_length_le (List.takeWhile_prefix _) (by rw [hrest] at hlen; simp at hlen; omega)
      rw [hrest, List.append_nil] at hsplit
      have hdigits : AllDigits t := by
        rw [← hsplit]
        exact fun d hd => List.mem_takeWhile_imp hd
      rw [hc] at hspace hall hsign
      rw [hsplit] at hu hne
      refine ⟨⟨arg.takeWhile isSpace, t, hall, hdigits, hne, ?_⟩, hlow, hhigh⟩
      rcases hsign with ⟨h2, rfl⟩ | ⟨h2, rfl⟩ | ⟨h2, rfl⟩
      · exact .inl ⟨by rw [← h2, hspace], hu.symm⟩
      · exact .inr (.inl ⟨by rw [← h2, hspace], hu.symm⟩)
      · exact .inr (.inr ⟨by rw [← h2, hspace], hu.symm⟩)
  · rintro ⟨hw, hlow, hhigh⟩
    have hc := hw.cString
    obtain ⟨sp, ds, hsp, hds, hne, ⟨rfl, rfl⟩ | ⟨rfl, rfl⟩ | ⟨rfl, rfl⟩⟩ := hw
    · exact stoll_number hsp (fun b hb => isSpace_digit (hds b (List.mem_of_mem_head? hb)))
        (by simpa using sign_digits hds hne []) hds hne hc rfl hlow hhigh
    · exact @stoll_number _ _ ds _ hsp (by simp [isSpace]) rfl hds hne hc _ rfl hlow hhigh
    · exact @stoll_number _ _ ds _ hsp (by simp [isSpace]) rfl hds hne hc _ rfl hlow hhigh

/-- CORRECT (whole numbers): an argument is read as an `int` exactly when it writes one that fits. -/
theorem parseSigned_iff {args : List Bytes} {v : BitVec 32} :
    parseSigned args = some v ↔ ∃ arg, args = [arg] ∧ WritesInt arg v.toInt := by
  have hbounds := v.toInt_lt
  have hbounds' := v.le_toInt
  unfold parseSigned
  split
  · rename_i arg
    constructor
    · intro h
      split at h
      · cases h
      · rename_i u pos hu
        split at h
        · cases h
        · rename_i hgood
          push Not at hgood
          obtain ⟨rfl, hhigh, hlow⟩ := hgood
          cases h
          refine ⟨arg, rfl, ?_⟩
          rw [BitVec.toInt_ofInt_eq_self (by decide) (by simpa using hlow) (by simp; omega)]
          exact (stoll_all.mp hu).1
    · rintro ⟨arg', harg, hw⟩
      cases harg
      rw [stoll_all.mpr ⟨hw, by omega, by omega⟩]
      simp only [ne_eq, not_true_eq_false, false_or]
      rw [if_neg (by omega), BitVec.ofInt_toInt]
  · rename_i hargs
    exact iff_of_false (fun h => nomatch h) fun ⟨arg, h, _⟩ => hargs arg h

/-! ### What a line says -/

/-- One round of the loop; `none` ends it with an error. -/
def setLine (p : FcopyConfig) (line : Bytes) : Option FcopyConfig :=
  match parseLine line with
  | .failed => none
  | .blank => some p
  | .parsed key args => setKey p key args

/-- The key a setting is listed under. -/
def Setting.key : {k : ValueKind} → Setting k → Bytes
  | _, .port => text "port"
  | _, .srvMaxConn => text "srv_max_conn"
  | _, .srvPeerResponseTimeout => text "srv-peer-response-timeout"
  | _, .srvReceiveTimeout => text "srv-receive-timeout"
  | _, .srvKeepAliveTimeout => text "srv-keep-alive-timeout"
  | _, .cliRetryMax => text "cli-retry-max"
  | _, .cliSendTimeout => text "cli-send-timeout"
  | _, .cliReceiveTimeout => text "cli-receive-timeout"
  | _, .cliKeepAliveTimeout => text "cli-keep-alive-timeout"
  | _, .srvSizeLimit => text "request-size-limit"
  | _, .logfile => text "logfile"
  | _, .pidfile => text "pidfile"
  | _, .basedir => text "basedir"
  | _, .defaultPartition => text "default-partition"
  | _, .daemonize => text "daemonize"
  | _, .directio => text "directio"

/-- What a line says about a setting. -/
def Setting.said {k : ValueKind} (s : Setting k) (line : Bytes) : Option k.Val :=
  match parseLine line with
  | .parsed key args => if key = s.key then k.parse args else none
  | _ => none

/-- What a line says about a partition. -/
def partitionSaid (name line : Bytes) : Option FsPartition :=
  match parseLine line with
  | .parsed key [n, root] => if key = text "partitions" ∧ n = name then some ⟨n, root⟩ else none
  | _ => none

/-- The line has tokens, and its key likes its arguments. -/
def Readable (line : Bytes) : Prop :=
  parseLine line ≠ .failed ∧ ∀ key args, parseLine line = .parsed key args →
    (∀ (k : ValueKind) (s : Setting k), s.key = key → (k.parse args).isSome) ∧
      (key = text "partitions" → args.length = 2)

/-! ### The tables -/

variable {k k' : ValueKind} {p p' : FcopyConfig} {key line : Bytes} {args : List Bytes}

/-- The four tables in the order of the lookups. -/
def table : (k : ValueKind) → List (Bytes × Setting k)
  | .int => intMap
  | .cap => capMap
  | .str => strMap
  | .flag => boolMap

def keysOf (map : List (Bytes × Setting k)) : List Bytes := map.map (·.1)

/-- No key is in two tables, or twice in one. -/
theorem keys_nodup : (keysOf intMap ++ (keysOf capMap ++ (keysOf strMap ++ (keysOf boolMap ++
    [text "partitions"])))).Nodup := by
  decide +kernel

theorem mem_table (s : Setting k) : (s.key, s) ∈ table k := by
  cases s <;> simp [table, intMap, capMap, strMap, boolMap, Setting.key]

theorem mem_keysOf (s : Setting k) : s.key ∈ keysOf (table k) := List.mem_map.mpr ⟨_, mem_table s, rfl⟩

theorem key_of_mem {s : Setting k} (h : (key, s) ∈ table k) : key = s.key := by
  cases s <;> simpa [table, intMap, capMap, strMap, boolMap, Setting.key] using h

theorem table_nodup (k : ValueKind) : (keysOf (table k)).Nodup := by
  have h := keys_nodup
  simp only [List.nodup_append] at h
  cases k
  · exact h.1
  · exact h.2.1.1
  · exact h.2.1.2.1.1
  · exact h.2.1.2.1.2.1.1

/-- A key in a table is in no later one, and is not the one for partitions. -/
theorem key_disjoint :
    (∀ (s : Setting .int) (t : Setting .cap), s.key ≠ t.key) ∧
    (∀ (s : Setting .int) (t : Setting .str), s.key ≠ t.key) ∧
    (∀ (s : Setting .int) (t : Setting .flag), s.key ≠ t.key) ∧
    (∀ (s : Setting .cap) (t : Setting .str), s.key ≠ t.key) ∧
    (∀ (s : Setting .cap) (t : Setting .flag), s.key ≠ t.key) ∧
    (∀ (s : Setting .str) (t : Setting .flag), s.key ≠ t.key) ∧
    ∀ (k : ValueKind) (s : Setting k), s.key ≠ text "partitions" := by
  have h := keys_nodup
  simp only [List.nodup_append, List.mem_append, List.mem_singleton] at h
  obtain ⟨-, ⟨-, ⟨-, ⟨-, -, hflag⟩, hstr⟩, hcap⟩, hint⟩ := h
  refine ⟨fun s t => hint _ (mem_keysOf s) _ (.inl (mem_keysOf t)),
    fun s t => hint _ (mem_keysOf s) _ (.inr (.inl (mem_keysOf t))),
    fun s t => hint _ (mem_keysOf s) _ (.inr (.inr (.inl (mem_keysOf t)))),
    fun s t => hcap _ (mem_keysOf s) _ (.inl (mem_keysOf t)),
    fun s t => hcap _ (mem_keysOf s) _ (.inr (.inl (mem_keysOf t))),
    fun s t => hstr _ (mem_keysOf s) _ (.inl (mem_keysOf t)), fun k s => ?_⟩
  cases k
  · exact hint _ (mem_keysOf s) _ (.inr (.inr (.inr rfl)))
  · exact hcap _ (mem_keysOf s) _ (.inr (.inr rfl))
  · exact hstr _ (mem_keysOf s) _ (.inr rfl)
  · exact hflag _ (mem_keysOf s) _ rfl

theorem key_inj {s t : Setting k} (h : s.key = t.key) : s = t :=
  congrArg Prod.snd (List.inj_on_of_nodup_map (table_nodup k) (mem_table s) (mem_table t) h)

theorem findKey_eq_some {s : Setting k} : findKey (table k) key = some s ↔ s.key = key := by
  constructor
  · intro h
    obtain ⟨x, hx, rfl⟩ := Option.map_eq_some_iff.mp h
    have hkey : x.1 = key := by simpa using List.find?_some hx
    exact (key_of_mem (List.mem_of_find?_eq_some hx)).symm.trans hkey
  · rintro rfl
    cases hx : (table k).find? fun x => x.1 = s.key with
    | none => exact absurd (decide_eq_true rfl) (List.find?_eq_none.mp hx _ (mem_table s))
    | some x =>
      have hkey : x.1 = s.key := by simpa using List.find?_some hx
      rw [findKey, hx, Option.map_some,
        key_inj ((key_of_mem (List.mem_of_find?_eq_some hx)).symm.trans hkey)]

theorem findKey_eq_none : findKey (table k) key = none ↔ ∀ s : Setting k, s.key ≠ key := by
  rw [Option.eq_none_iff_forall_ne_some]
  exact forall_congr' fun s => not_congr findKey_eq_some

/-! ### One line -/

/-- Two settings that are not the same are kept apart. -/
theorem Setting.get_set_self (s : Setting k) (v : k.Val) : s.get (s.set p v) = v := by
  cases s <;> rfl

theorem Setting.get_set_other {s : Setting k} {t : Setting k'} (v : k.Val) (h : t.key ≠ s.key) :
    t.get (s.set p v) = t.get p := by
  cases s <;> cases t <;> first | rfl | exact absurd rfl h

theorem Setting.partitions_set (s : Setting k) (v : k.Val) : (s.set p v).partitions = p.partitions := by
  cases s <;> rfl

theorem Setting.conffile_set (s : Setting k) (v : k.Val) : (s.set p v).conffile = p.conffile := by
  cases s <;> rfl

/-- A key goes to its setting, to the partitions, or nowhere. -/
theorem setKey_setting (s : Setting k) (p : FcopyConfig) (args : List Bytes) :
    setKey p s.key args = (k.parse args).map (s.set p) := by
  obtain ⟨hic, his, hif, hcs, hcf, hsf, -⟩ := key_disjoint
  have hself : findKey (table k) s.key = some s := findKey_eq_some.mpr rfl
  cases k
  · rw [setKey, show findKey intMap s.key = some s from hself]
    rfl
  · rw [setKey, show findKey intMap s.key = none from
      findKey_eq_none (k := .int).mpr fun t => hic t s, show findKey capMap s.key = some s from hself]
    rfl
  · rw [setKey, show findKey intMap s.key = none from
      findKey_eq_none (k := .int).mpr fun t => his t s,
      show findKey capMap s.key = none from findKey_eq_none (k := .cap).mpr fun t => hcs t s,
      show findKey strMap s.key = some s from hself]
    rfl
  · rw [setKey, show findKey intMap s.key = none from
      findKey_eq_none (k := .int).mpr fun t => hif t s,
      show findKey capMap s.key = none from findKey_eq_none (k := .cap).mpr fun t => hcf t s,
      show findKey strMap s.key = none from findKey_eq_none (k := .str).mpr fun t => hsf t s,
      show findKey boolMap s.key = some s from hself]
    rfl

theorem setKey_other (h : ∀ (k : ValueKind) (s : Setting k), s.key ≠ key) :
    setKey p key args = if key = text "partitions" then
      (parsePartition p.partitions args).map fun m => { p with partitions := m } else some p := by
  rw [setKey, show findKey intMap key = none from findKey_eq_none (k := .int).mpr (h .int),
    show findKey capMap key = none from findKey_eq_none (k := .cap).mpr (h .cap),
    show findKey strMap key = none from findKey_eq_none (k := .str).mpr (h .str),
    show findKey boolMap key = none from findKey_eq_none (k := .flag).mpr (h .flag)]

theorem parsePartition_eq_some {m m' : Bytes → Option FsPartition} :
    parsePartition m args = some m' ↔
      ∃ n root, args = [n, root] ∧ m' = update m n ((m n).or (some ⟨n, root⟩)) := by
  unfold parsePartition
  split
  · rename_i n root
    constructor
    · intro h
      cases h
      exact ⟨n, root, rfl, rfl⟩
    · rintro ⟨n', root', hargs, rfl⟩
      cases hargs
      rfl
  · rename_i hargs
    exact iff_of_false (fun h => nomatch h) fun ⟨n, root, h, _⟩ => hargs n root h

/-- What a line that is taken does. -/
theorem setKey_cases (h : setKey p key args = some p') :
    (∃ (k : ValueKind) (s : Setting k) (v : k.Val),
      s.key = key ∧ k.parse args = some v ∧ p' = s.set p v) ∨
    (∃ n root, key = text "partitions" ∧ args = [n, root] ∧
      p' = { p with partitions := update p.partitions n ((p.partitions n).or (some ⟨n, root⟩)) }) ∨
    ((∀ (k : ValueKind) (s : Setting k), s.key ≠ key) ∧ key ≠ text "partitions" ∧ p' = p) := by
  by_cases hkey : ∃ (k : ValueKind) (s : Setting k), s.key = key
  · obtain ⟨k, s, rfl⟩ := hkey
    rw [setKey_setting] at h
    obtain ⟨v, hv, rfl⟩ := Option.map_eq_some_iff.mp h
    exact .inl ⟨k, s, v, rfl, hv, rfl⟩
  · have hother : ∀ (k : ValueKind) (s : Setting k), s.key ≠ key := fun k s hs => hkey ⟨k, s, hs⟩
    rw [setKey_other hother] at h
    split at h
    · rename_i hpart
      obtain ⟨m, hm, rfl⟩ := Option.map_eq_some_iff.mp h
      obtain ⟨n, root, rfl, rfl⟩ := parsePartition_eq_some.mp hm
      exact .inr (.inl ⟨n, root, hpart, rfl, rfl⟩)
    · rename_i hpart
      cases h
      exact .inr (.inr ⟨hother, hpart, rfl⟩)

theorem setLine_cases (h : setLine p line = some p') :
    (parseLine line = .blank ∧ p' = p) ∨
      ∃ key args, parseLine line = .parsed key args ∧ setKey p key args = some p' := by
  rw [setLine] at h
  cases hline : parseLine line with
  | failed =>
    rw [hline] at h
    cases h
  | blank =>
    rw [hline] at h
    cases h
    exact .inl ⟨rfl, rfl⟩
  | parsed key args =>
    rw [hline] at h
    exact .inr ⟨key, args, rfl, h⟩

/-- What a setting is after a line. -/
theorem setLine_get (h : setLine p line = some p') (s : Setting k) :
    s.get p' = (s.said line).getD (s.get p) := by
  rw [Setting.said]
  rcases setLine_cases h with ⟨hline, rfl⟩ | ⟨key, args, hline, hkey⟩
  · rw [hline, Option.getD_none]
  · simp only [hline]
    by_cases hs : s.key = key
    · subst hs
      rw [setKey_setting] at hkey
      obtain ⟨v, hv, rfl⟩ := Option.map_eq_some_iff.mp hkey
      rw [if_pos rfl, hv, Option.getD_some, Setting.get_set_self]
    · rw [if_neg (Ne.symm hs), Option.getD_none]
      rcases setKey_cases hkey with ⟨k', t, v, rfl, -, rfl⟩ | ⟨n, root, -, -, rfl⟩ | ⟨-, -, rfl⟩
      · exact Setting.get_set_other v hs
      · cases s <;> rfl
      · rfl

/-- What a partition is after a line. -/
theorem setLine_partitions (h : setLine p line = some p') (name : Bytes) :
    p'.partitions name = (p.partitions name).or (partitionSaid name line) := by
  rw [partitionSaid]
  rcases setLine_cases h with ⟨hline, rfl⟩ | ⟨key, args, hline, hkey⟩
  · rw [hline, Option.or_none]
  · simp only [hline]
    rcases setKey_cases hkey with ⟨k, s, v, rfl, -, rfl⟩ | ⟨n, root, rfl, rfl, rfl⟩ | ⟨-, hpart, rfl⟩
    · rw [Setting.partitions_set]
      split
      · rename_i heq
        cases heq
        rw [if_neg fun h => key_disjoint.2.2.2.2.2.2 _ s h.1, Option.or_none]
      · rw [Option.or_none]
    · simp only [true_and]
      by_cases hn : n = name
      · subst hn
        rw [if_pos rfl, update_self]
      · rw [if_neg hn, Option.or_none, update_of_ne (Ne.symm hn)]
    · split
      · rename_i heq
        cases heq
        rw [if_neg fun h => hpart h.1, Option.or_none]
      · rw [Option.or_none]

theorem setLine_conffile (h : setLine p line = some p') : p'.conffile = p.conffile := by
  rcases setLine_cases h with ⟨-, rfl⟩ | ⟨key, args, -, hkey⟩
  · rfl
  · rcases setKey_cases hkey with ⟨k, s, v, -, -, rfl⟩ | ⟨n, root, -, -, rfl⟩ | ⟨-, -, rfl⟩
    · exact Setting.conffile_set s v
    · rfl
    · rfl

/-- Whether a line is taken does not depend on what was read before. -/
theorem setLine_isSome (p : FcopyConfig) (line : Bytes) : (setLine p line).isSome ↔ Readable line := by
  rw [setLine, Readable]
  cases hline : parseLine line with
  | failed => exact iff_of_false Bool.false_ne_true fun h => h.1 rfl
  | blank => exact iff_of_true rfl ⟨ParsedLine.noConfusion, fun _ _ h => nomatch h⟩
  | parsed key args =>
    change (setKey p key args).isSome = true ↔ _
    have hpart : (setKey p (text "partitions") args).isSome ↔ args.length = 2 := by
      rw [setKey_other (key_disjoint.2.2.2.2.2.2 · ·), if_pos rfl, Option.isSome_map, Option.isSome_iff_exists]
      simp only [parsePartition_eq_some, List.length_eq_two]
      exact ⟨fun ⟨_, n, root, h, _⟩ => ⟨n, root, h⟩, fun ⟨n, root, h⟩ => ⟨_, n, root, h, rfl⟩⟩
    constructor
    · intro h
      refine ⟨ParsedLine.noConfusion, fun key' args' heq => ?_⟩
      cases heq
      refine ⟨fun k s hs => ?_, fun hkey => hpart.mp (hkey ▸ h)⟩
      rw [← hs, setKey_setting, Option.isSome_map] at h
      exact h
    · rintro ⟨-, h⟩
      obtain ⟨hset, hlen⟩ := h key args rfl
      by_cases hkey : ∃ (k : ValueKind) (s : Setting k), s.key = key
      · obtain ⟨k, s, rfl⟩ := hkey
        rw [setKey_setting, Option.isSome_map]
        exact hset k s rfl
      · by_cases hname : key = text "partitions"
        · subst hname
          exact hpart.mpr (hlen rfl)
        · rw [setKey_other fun k s hs => hkey ⟨k, s, hs⟩, if_neg hname]
          rfl

instance : DecidablePred Readable := fun line => decidable_of_iff _ (setLine_isSome {} line)

/-! ### The whole file -/

theorem setLine_reader : Assign.Reader setLine fun line => decide (Readable line) :=
  ⟨fun p line => Bool.eq_iff_iff.mpr ((setLine_isSome p line).trans decide_eq_true_iff.symm)⟩

/-- The lines before the first that is not readable. -/
def readLines (lines : List Bytes) : List Bytes := Assign.taken (fun line => decide (Readable line)) lines

/-- The error that a line gives. -/
def errorAt (lineno : ℕ) (line : Bytes) : Bytes :=
  match parseLine line with
  | .parsed key _ => lineError lineno ++ text " key:" ++ key
  | _ => lineError lineno

theorem loadLines_cons (lineno : ℕ) (line : Bytes) (lines : List Bytes) (p : FcopyConfig) :
    loadLines lineno (line :: lines) p =
      match setLine p line with
      | none => (some (errorAt (lineno + 1) line), p)
      | some p => loadLines (lineno + 1) lines p := by
  rw [loadLines, setLine, errorAt]
  cases parseLine line with
  | failed => rfl
  | blank => rfl
  | parsed key args => rfl

/-- The loop reads until a line is refused, and says which. -/
theorem loadLines_run (lineno : ℕ) (lines : List Bytes) (p : FcopyConfig) :
    loadLines lineno lines p =
      ((lines.dropWhile fun line => Readable line).head?.map
        (errorAt (lineno + (readLines lines).length + 1)), (Assign.run setLine p lines).2) := by
  induction lines generalizing lineno p with
  | nil => rfl
  | cons line lines ih =>
    have hsome := setLine_isSome p line
    rw [loadLines_cons, Assign.run]
    cases hline : setLine p line with
    | none =>
      have hbad : ¬Readable line := fun h => by simp [hline] at hsome; exact hsome h
      simp [readLines, Assign.taken, hbad]
    | some q =>
      have hgood : Readable line := hsome.mp (by rw [hline]; rfl)
      simp only [ih, readLines, Assign.taken, List.takeWhile_cons, List.dropWhile_cons, hgood,
        decide_true, if_true, List.length_cons]
      rw [Nat.add_right_comm lineno 1, Nat.add_assoc lineno _ 1]

/-- The whole lines of a file say this about the settings. -/
structure LinesLoaded (p : FcopyConfig) (lines : List Bytes) (p' : FcopyConfig) : Prop where
  settings : ∀ (k : ValueKind) (s : Setting k),
    s.get p' = ((lines.filterMap s.said).getLast?).getD (s.get p)
  partitions : ∀ name, p'.partitions name =
    (p.partitions name).or (lines.filterMap (partitionSaid name)).head?
  conffile : p'.conffile = p.conffile

theorem loaded_run (p : FcopyConfig) (lines : List Bytes) :
    LinesLoaded p (readLines lines) (Assign.run setLine p lines).2 where
  settings := fun k s =>
    setLine_reader.get_last s.get s.said (fun _ _ _ h => setLine_get h s) p lines
  partitions := fun name =>
    setLine_reader.get_first (fun p => p.partitions name) (partitionSaid name)
      (fun _ _ _ h => setLine_partitions h name) p lines
  conffile := by
    rw [setLine_reader.get_run (fun p => p.conffile) (fun _ v => v) (fun _ _ _ h => setLine_conffile h)]
    exact List.foldl_fixed _

theorem LinesLoaded.nil (p : FcopyConfig) : LinesLoaded p [] p where
  settings := fun _ _ => rfl
  partitions := fun _ => Option.or_none.symm
  conffile := rfl

/-- What was loaded is known from the lines alone. -/
theorem LinesLoaded.unique {q q' : FcopyConfig} {lines : List Bytes} (h : LinesLoaded p lines q)
    (h' : LinesLoaded p lines q') : q = q' := by
  have hset : ∀ (k : ValueKind) (s : Setting k), s.get q = s.get q' := fun k s =>
    (h.settings k s).trans (h'.settings k s).symm
  have hpart : q.partitions = q'.partitions := funext fun name =>
    (h.partitions name).trans (h'.partitions name).symm
  have hfile : q.conffile = q'.conffile := h.conffile.trans h'.conffile.symm
  have hints := hset .int
  have hcap := hset .cap .srvSizeLimit
  have hstrs := hset .str
  have hflags := hset .flag
  have h1 := hints .port
  have h2 := hints .srvMaxConn
  have h3 := hints .srvPeerResponseTimeout
  have h4 := hints .srvReceiveTimeout
  have h5 := hints .srvKeepAliveTimeout
  have h6 := hints .cliRetryMax
  have h7 := hints .cliSendTimeout
  have h8 := hints .cliReceiveTimeout
  have h9 := hints .cliKeepAliveTimeout
  have h10 := hstrs .logfile
  have h11 := hstrs .pidfile
  have h12 := hstrs .basedir
  have h13 := hstrs .defaultPartition
  have h14 := hflags .daemonize
  have h15 := hflags .directio
  cases q
  cases q'
  simp only [Setting.get] at *
  simp only [*]

theorem loadServiceConfig_ok {filepath t : Bytes} :
    loadServiceConfig filepath (some t) p = (none, p') ↔
      (∀ line ∈ getlines t, Readable line) ∧ LinesLoaded p (getlines t) p' := by
  have hload : loadServiceConfig filepath (some t) p = loadLines 0 (getlines t) p := rfl
  have hrun := loaded_run p (getlines t)
  rw [hload, loadLines_run, Prod.mk.injEq]
  simp only [Option.map_eq_none_iff, List.head?_eq_none_iff, List.dropWhile_eq_nil_iff, decide_eq_true_iff]
  refine and_congr_right fun hall => ?_
  rw [readLines, Assign.taken_eq_self.mpr fun line hline => decide_eq_true (hall line hline)] at hrun
  exact ⟨fun h => h ▸ hrun, fun h => hrun.unique h⟩

/-- CORRECT (configuration file): the file is accepted exactly when every line is readable; otherwise the
    error names the first line that is not. Either way the configuration has taken in the lines before:
    each setting is what the last of them says about it and each partition what the first says, and
    what none of them mentions is as it was. -/
theorem load_service_config_settings (filepath t : Bytes) (p : FcopyConfig) :
    ((loadServiceConfig filepath (some t) p).1 = none ↔ ∀ line ∈ getlines t, Readable line) ∧
    (∀ pre line post, getlines t = pre ++ line :: post → (∀ l ∈ pre, Readable l) → ¬Readable line →
      (loadServiceConfig filepath (some t) p).1 = some (errorAt (pre.length + 1) line)) ∧
    LinesLoaded p (readLines (getlines t)) (loadServiceConfig filepath (some t) p).2 := by
  have hload : loadServiceConfig filepath (some t) p = loadLines 0 (getlines t) p := rfl
  rw [hload, loadLines_run]
  refine ⟨?_, fun pre line post hlines hpre hline => ?_, loaded_run p (getlines t)⟩
  · simp only [Option.map_eq_none_iff, List.head?_eq_none_iff, List.dropWhile_eq_nil_iff, decide_eq_true_iff]
  · have hpre' : ∀ l ∈ pre, decide (Readable l) = true := fun l hl => decide_eq_true (hpre l hl)
    have hstop : decide (Readable line) = false := decide_eq_false hline
    simp only [hlines, readLines, Assign.taken, List.dropWhile_append_of_pos hpre',
      List.takeWhile_append_of_pos hpre', List.dropWhile_cons, List.takeWhile_cons, hstop,
      Bool.false_eq_true, if_false, List.head?_cons, Option.map_some, List.append_nil, Nat.zero_add]

end Fcopy
