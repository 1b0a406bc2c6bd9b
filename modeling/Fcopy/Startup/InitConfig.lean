import Fcopy.Startup.ServiceConfig

/-! How the server finds its configuration (`init_config` and `main` in `server/fcopy_server.cpp`).

    The options are read twice: first for the name of the configuration file, then, when the file has
    been loaded, for what goes before it.

        defaults ──▶ configuration file ──▶ options ──▶ basedir, paths, default partition

    `getopt_long` itself is not part of this: what it returns is a list of options, the same for both
    loops. -/

namespace Fcopy
open Numerals

/-- What `getopt_long` returns, with `optarg`. -/
inductive ServerOpt where
  | config (arg : Bytes)
  | background
  | port (arg : Bytes)
  | help
  | unknown
  deriving DecidableEq

/-- What the process finds: `$HOME`, the working directory, and the files it can read. -/
structure Env where
  home : Option Bytes
  cwd : Except ℤ Bytes
  read : Bytes → Option Bytes
  isRegular : Bytes → Bool

def defaultBasedir (env : Env) : Bytes :=
  match env.home with
  | none => []
  | some home => joinPath home (text ".fcopy")

def currentDir (env : Env) : Bytes :=
  match env.cwd with
  | .error _ => []
  | .ok cur => cur

/-- `get_abs_path` without a file name. -/
def getAbsPathOf (env : Env) (base relative : Bytes) : Except ℤ Bytes :=
  let p := joinPath base relative
  if p = [] then .error EINVAL
  else if isAbsolute p then .ok p
  else
    match env.cwd with
    | .error e => .error e
    | .ok cur => .ok (joinPath cur p)

/-- The process ends, with this status and this text on `stderr`. -/
structure Quit where
  status : ℤ
  err : Bytes := []
  deriving DecidableEq

/-- The first loop: `conffile`. -/
def findConfig : List ServerOpt → Bytes → Except Quit Bytes
  | [], conffile => .ok conffile
  | .config arg :: opts, _ => findConfig opts arg
  | .unknown :: _, _ => .error { status := -1 }
  | _ :: opts, conffile => findConfig opts conffile

/-- The default file stands in when none was named. -/
def defaultConfig (env : Env) (conffile : Bytes) : Bytes :=
  let basedir := defaultBasedir env
  if conffile = [] ∧ basedir ≠ [] then
    let conffile := basedir ++ text "/fcopy.conf"
    if env.isRegular conffile then conffile else []
  else conffile

def loadConfig (env : Env) (conffile : Bytes) (conf : FcopyConfig) : Except Quit FcopyConfig :=
  if conffile = [] then .ok conf
  else
    match loadServiceConfig conffile (env.read conffile) { conf with conffile } with
    | (none, conf) => .ok conf
    | (some err, _) => .error { status := -1, err }

/-- The second loop. -/
def setOptions : List ServerOpt → FcopyConfig → Except Quit FcopyConfig
  | [], conf => .ok conf
  | .config _ :: opts, conf => setOptions opts conf
  | .port arg :: opts, conf => setOptions opts { conf with port := atoi arg }
  | .background :: opts, conf => setOptions opts { conf with daemonize := true }
  | .help :: _, _ => .error { status := 0 }
  | .unknown :: _, _ => .error { status := -1 }

/-- A path that is set is made absolute. -/
def resolvePath (env : Env) (basedir path : Bytes) : Except Quit Bytes :=
  if path = [] then .ok []
  else
    match getAbsPathOf env basedir path with
    | .error _ => .error { status := 1 }
    | .ok tmp => .ok tmp

def initConfig (env : Env) (opts : List ServerOpt) : Except Quit FcopyConfig := do
  let named ← findConfig opts []
  let conf ← loadConfig env (defaultConfig env named) {}
  let conf ← setOptions opts conf
  let basedir := if conf.basedir = [] then defaultBasedir env else conf.basedir
  let logfile ← resolvePath env basedir conf.logfile
  let pidfile ← resolvePath env basedir conf.pidfile
  let defaultPartition := if conf.defaultPartition = [] then currentDir env else conf.defaultPartition
  return { conf with basedir, logfile, pidfile, defaultPartition }

/-- `main` up to the start of the service. -/
def serverMain (env : Env) (opts : List ServerOpt) : Except Quit FcopyConfig := do
  let conf ← initConfig env opts
  if conf.port.toInt < 1 ∨ conf.port.toInt > 65535 then .error { status := 1 }
  else .ok conf

/-- What the handlers see of the parameters. -/
def FcopyConfig.service (conf : FcopyConfig) (cwd : Bytes) (hash : Bytes → BitVec 64) : Conf where
  defaultPartition := conf.defaultPartition
  partitions := fun name => (conf.partitions name).map (·.rootPath)
  cwd := cwd
  hash := hash

/-! ### What the options say -/

def ServerOpt.configArg : ServerOpt → Option Bytes
  | .config arg => some arg
  | _ => none

def ServerOpt.portArg : ServerOpt → Option (BitVec 32)
  | .port arg => some (atoi arg)
  | _ => none

/-- The last of them counts. -/
def namedConfig (opts : List ServerOpt) : Bytes := ((opts.filterMap (·.configArg)).getLast?).getD []

def namedPort (opts : List ServerOpt) : Option (BitVec 32) := (opts.filterMap (·.portArg)).getLast?

/-- The configuration file; empty if there is none. -/
def chosenConfig (env : Env) (opts : List ServerOpt) : Bytes := defaultConfig env (namedConfig opts)

/-- Its lines; `none` if it cannot be opened. -/
def configLines (env : Env) (opts : List ServerOpt) : Option (List Bytes) :=
  if chosenConfig env opts = [] then some [] else (env.read (chosenConfig env opts)).map getlines

/-! ### The two loops -/

variable {env : Env} {opts : List ServerOpt} {conf conf' : FcopyConfig}

/-- One round of the first loop. -/
def nameOption (conffile : Bytes) : ServerOpt → Option Bytes
  | .unknown => none
  | opt => some (opt.configArg.getD conffile)

/-- One round of the second. -/
def setOption (conf : FcopyConfig) : ServerOpt → Option FcopyConfig
  | .config _ => some conf
  | .port arg => some { conf with port := atoi arg }
  | .background => some { conf with daemonize := true }
  | .help => none
  | .unknown => none

theorem nameOption_reader : Assign.Reader nameOption fun opt => opt ≠ .unknown :=
  ⟨fun _ opt => by cases opt <;> rfl⟩

theorem setOption_reader : Assign.Reader setOption fun opt => opt ≠ .help ∧ opt ≠ .unknown :=
  ⟨fun _ opt => by cases opt <;> rfl⟩

theorem findConfig_run (opts : List ServerOpt) (named conffile : Bytes) :
    findConfig opts named = .ok conffile ↔
      (Assign.run nameOption named opts).1 = [] ∧ (Assign.run nameOption named opts).2 = conffile := by
  induction opts generalizing named with
  | nil => simp [findConfig, Assign.run]
  | cons opt opts ih => cases opt <;> first | exact ih _ | simp [findConfig, Assign.run, nameOption]

/-- The last name counts, and an option that is unknown ends the loop. -/
theorem findConfig_eq_ok {conffile : Bytes} :
    findConfig opts [] = .ok conffile ↔ .unknown ∉ opts ∧ namedConfig opts = conffile := by
  rw [findConfig_run, nameOption_reader.run_all]
  have hall : (∀ opt ∈ opts, decide (opt ≠ ServerOpt.unknown) = true) ↔ .unknown ∉ opts :=
    ⟨fun h hmem => of_decide_eq_true (h _ hmem) rfl, fun h opt hopt => decide_eq_true fun he => h (he ▸ hopt)⟩
  rw [hall]
  refine and_congr_right fun hknown => ?_
  have hlast := nameOption_reader.get_last id (·.configArg) (fun c opt c' h => by
    cases opt <;> cases h <;> rfl) [] opts
  rw [Assign.taken_eq_self.mpr (hall.mpr hknown), id, id] at hlast
  rw [hlast, namedConfig]

theorem setOptions_run (opts : List ServerOpt) (conf : FcopyConfig) :
    setOptions opts conf = .ok conf' ↔
      (Assign.run setOption conf opts).1 = [] ∧ (Assign.run setOption conf opts).2 = conf' := by
  induction opts generalizing conf with
  | nil => simp [setOptions, Assign.run]
  | cons opt opts ih => cases opt <;> first | exact ih _ | simp [setOptions, Assign.run, setOption]

def ServerOpt.backgroundFlag : ServerOpt → Option Bool
  | .background => some true
  | _ => none

/-- The last port counts, and apart from it only `daemonize` changes. -/
theorem setOptions_eq_ok :
    setOptions opts conf = .ok conf' ↔ (.help ∉ opts ∧ .unknown ∉ opts) ∧
      { conf with
        port := (namedPort opts).getD conf.port
        daemonize := ((opts.filterMap (·.backgroundFlag)).getLast?).getD conf.daemonize } = conf' := by
  rw [setOptions_run, setOption_reader.run_all]
  have hall : (∀ opt ∈ opts, decide (opt ≠ ServerOpt.help ∧ opt ≠ ServerOpt.unknown) = true) ↔
      .help ∉ opts ∧ .unknown ∉ opts := by
    simp only [decide_eq_true_iff]
    exact ⟨fun h => ⟨fun hmem => (h _ hmem).1 rfl, fun hmem => (h _ hmem).2 rfl⟩,
      fun h opt hopt => ⟨fun he => h.1 (he ▸ hopt), fun he => h.2 (he ▸ hopt)⟩⟩
  rw [hall]
  refine and_congr_right fun hknown => ?_
  have htaken := Assign.taken_eq_self.mpr (hall.mpr hknown)
  have hport := setOption_reader.get_last (·.port) (·.portArg) (fun c opt c' h => by
    cases opt <;> cases h <;> rfl) conf opts
  have hdaemon := setOption_reader.get_last (·.daemonize) (·.backgroundFlag) (fun c opt c' h => by
    cases opt <;> cases h <;> rfl) conf opts
  have hrest := setOption_reader.get_run
    (fun c : FcopyConfig => { c with port := 0, daemonize := false }) (fun _ v => v) (fun c opt c' h => by
    cases opt <;> cases h <;> rfl) conf opts
  rw [htaken] at hport hdaemon
  rw [List.foldl_fixed] at hrest
  rw [namedPort, ← hport, ← hdaemon]
  generalize (Assign.run setOption conf opts).2 = c at hport hdaemon hrest ⊢
  cases c
  cases conf
  simp only [FcopyConfig.mk.injEq] at hrest
  simp_all

/-! ### All of it -/

theorem bind_eq_ok {α β : Type} {x : Except Quit α} {f : α → Except Quit β} {b : β} :
    (x >>= f) = .ok b ↔ ∃ a, x = .ok a ∧ f a = .ok b := by
  cases x with
  | error q => exact iff_of_false (fun h => nomatch h) fun ⟨a, h, _⟩ => nomatch h
  | ok a => exact ⟨fun h => ⟨a, rfl, h⟩, fun ⟨a', ha, h⟩ => by cases ha; exact h⟩

theorem loadConfig_eq_ok (env : Env) (opts : List ServerOpt) (conf : FcopyConfig) :
    loadConfig env (chosenConfig env opts) {} = .ok conf ↔
      ∃ lines, configLines env opts = some lines ∧ (∀ line ∈ lines, Readable line) ∧
        LinesLoaded { conffile := chosenConfig env opts } lines conf := by
  rw [loadConfig, configLines]
  generalize chosenConfig env opts = conffile
  by_cases hfile : conffile = []
  · subst hfile
    rw [if_pos rfl, if_pos rfl, Except.ok.injEq]
    constructor
    · rintro rfl
      exact ⟨[], rfl, List.forall_mem_nil _, LinesLoaded.nil _⟩
    · rintro ⟨lines, hlines, -, h⟩
      cases hlines
      exact (LinesLoaded.nil _).unique h
  · rw [if_neg hfile, if_neg hfile]
    cases hread : env.read conffile with
    | none => exact iff_of_false (fun h => nomatch h) fun ⟨lines, h, _⟩ => nomatch h
    | some t =>
      have hok : loadServiceConfig conffile (some t) { conffile } = (none, conf) ↔ _ := loadServiceConfig_ok
      simp only [Option.map_some, Option.some.injEq, exists_eq_left', ← hok]
      cases hload : loadServiceConfig conffile (some t) { conffile } with
      | mk err q =>
        cases err with
        | some e => simp
        | none => simp

/-- A path is absent, or it is made absolute. -/
def Resolved (env : Env) (basedir path out : Bytes) : Prop :=
  path = [] ∧ out = [] ∨ path ≠ [] ∧ getAbsPathOf env basedir path = .ok out

theorem resolvePath_eq_ok {basedir path out : Bytes} :
    resolvePath env basedir path = .ok out ↔ Resolved env basedir path out := by
  rw [resolvePath, Resolved]
  by_cases hpath : path = []
  · simp [hpath, eq_comm]
  · rw [if_neg hpath]
    cases getAbsPathOf env basedir path with
    | error e => simp [hpath]
    | ok tmp => simp [hpath]

/-- The configuration a server runs with, from what was loaded. -/
structure Configured (env : Env) (opts : List ServerOpt) (loaded conf : FcopyConfig) : Prop where
  port : conf.port = (namedPort opts).getD loaded.port
  range : 1 ≤ conf.port.toInt ∧ conf.port.toInt ≤ 65535
  daemonize : conf.daemonize = true ↔ .background ∈ opts ∨ loaded.daemonize = true
  basedir : conf.basedir = if loaded.basedir = [] then defaultBasedir env else loaded.basedir
  logfile : Resolved env conf.basedir loaded.logfile conf.logfile
  pidfile : Resolved env conf.basedir loaded.pidfile conf.pidfile
  defaultPartition : conf.defaultPartition =
    if loaded.defaultPartition = [] then currentDir env else loaded.defaultPartition
  others : loaded = { conf with
    port := loaded.port
    daemonize := loaded.daemonize
    basedir := loaded.basedir
    logfile := loaded.logfile
    pidfile := loaded.pidfile
    defaultPartition := loaded.defaultPartition }

theorem backgroundFlag_last (opts : List ServerOpt) (d : Bool) :
    ((opts.filterMap (·.backgroundFlag)).getLast?).getD d = true ↔ .background ∈ opts ∨ d = true := by
  have hmem : ∀ b, b ∈ opts.filterMap (·.backgroundFlag) ↔ b = true ∧ .background ∈ opts := by
    intro b
    rw [List.mem_filterMap]
    constructor
    · rintro ⟨opt, hopt, h⟩
      cases opt <;> cases h
      exact ⟨rfl, hopt⟩
    · rintro ⟨rfl, hopt⟩
      exact ⟨_, hopt, rfl⟩
  cases hlast : (opts.filterMap (·.backgroundFlag)).getLast? with
  | none =>
    have hnil := List.getLast?_eq_none_iff.mp hlast
    have hnot : .background ∉ opts := fun h => by
      have := (hmem true).mpr ⟨rfl, h⟩
      rw [hnil] at this
      exact absurd this List.not_mem_nil
    rw [Option.getD_none, or_iff_right hnot]
  | some b =>
    obtain ⟨rfl, hopt⟩ := (hmem b).mp (List.mem_of_getLast? hlast)
    exact iff_of_true rfl (.inl hopt)

/-- The configuration is put together from what was loaded. -/
theorem Configured.eq {loaded : FcopyConfig} (h : Configured env opts loaded conf) :
    { loaded with
      port := (namedPort opts).getD loaded.port
      daemonize := ((opts.filterMap (·.backgroundFlag)).getLast?).getD loaded.daemonize
      basedir := if loaded.basedir = [] then defaultBasedir env else loaded.basedir
      logfile := conf.logfile
      pidfile := conf.pidfile
      defaultPartition :=
        if loaded.defaultPartition = [] then currentDir env else loaded.defaultPartition } = conf := by
  have hdaemon : ((opts.filterMap (·.backgroundFlag)).getLast?).getD loaded.daemonize = conf.daemonize :=
    Bool.eq_iff_iff.mpr ((backgroundFlag_last opts _).trans h.daemonize.symm)
  rw [hdaemon, ← h.port, ← h.basedir, ← h.defaultPartition]
  exact h.others ▸ rfl

theorem port_check {q : Quit} :
    (if conf'.port.toInt < 1 ∨ conf'.port.toInt > 65535 then .error q else .ok conf' : Except Quit FcopyConfig) =
      .ok conf ↔ conf' = conf ∧ 1 ≤ conf'.port.toInt ∧ conf'.port.toInt ≤ 65535 := by
  by_cases h : conf'.port.toInt < 1 ∨ conf'.port.toInt > 65535
  · rw [if_pos h]
    exact iff_of_false (fun h => nomatch h) (by omega)
  · rw [if_neg h, Except.ok.injEq]
    exact ⟨fun he => ⟨he, by omega⟩, fun he => he.1⟩

/-- CORRECT (start of the server): it starts exactly when every option is known and none asks for help,
    every line of the configuration file is readable, the port is one, and the paths can be made
    absolute. It runs with what the options say, else with the last line of the file on the matter,
    else with the default; with the first line for each partition; and in the default base directory
    and the working directory where the file names none. -/
theorem server_main_iff (env : Env) (opts : List ServerOpt) (conf : FcopyConfig) :
    serverMain env opts = .ok conf ↔ (.help ∉ opts ∧ .unknown ∉ opts) ∧
      ∃ lines loaded, configLines env opts = some lines ∧ (∀ line ∈ lines, Readable line) ∧
        LinesLoaded { conffile := chosenConfig env opts } lines loaded ∧ Configured env opts loaded conf := by
  simp only [serverMain, initConfig, bind_eq_ok, findConfig_eq_ok, setOptions_eq_ok, resolvePath_eq_ok,
    port_check]
  constructor
  · rintro ⟨_, ⟨_, ⟨-, rfl⟩, loaded, hload, _, ⟨hopts, rfl⟩, logfile, hlog, pidfile, hpid, heq⟩, rfl, hrange⟩
    cases heq
    obtain ⟨lines, hlines, hread, hloaded⟩ := (loadConfig_eq_ok env opts loaded).mp hload
    exact ⟨hopts, lines, loaded, hlines, hread, hloaded,
      ⟨rfl, hrange, backgroundFlag_last opts _, rfl, hlog, hpid, rfl, rfl⟩⟩
  · rintro ⟨hopts, lines, loaded, hlines, hread, hloaded, h⟩
    refine ⟨conf, ⟨namedConfig opts, ⟨hopts.2, rfl⟩, loaded,
      (loadConfig_eq_ok env opts loaded).mpr ⟨lines, hlines, hread, hloaded⟩, _, ⟨hopts, rfl⟩,
      conf.logfile, ?_, conf.pidfile, ?_, congrArg Except.ok h.eq⟩, rfl, h.range⟩
    · exact h.basedir ▸ h.logfile
    · exact h.basedir ▸ h.pidfile

end Fcopy
