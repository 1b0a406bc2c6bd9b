import Fcopy.Schemes.Assign
import Fcopy.Client.ParseTargets
import Fcopy.Client.ExitStatus

/-! The command line of the client (`parse_args` and `main` in `client/fcopy_cli.cpp`).

    The options are read once, in order, and the first that cannot be taken ends the program:

        -t a:1  --target-list f  -p 4  -t b:2  -p 8   ──▶  targets a:1, those of f, b:2; parallel 8

    Targets add up, whatever else is said twice is what was said last. What `getopt_long` returns is a
    list of options here, and the paths are what it leaves. -/

namespace Fcopy
open Numerals

/-- What `getopt_long` returns, with `optarg`; a pair of options such as `--wait-close` and
    `--no-wait-close` is one with a flag. -/
inductive ClientOpt where
  | parallel (arg : Bytes)
  | target (arg : Bytes)
  | targetList (arg : Bytes)
  | dryRun
  | sendMethod (arg : Bytes)
  | speedLimit (arg : Bytes)
  | waitClose (on : Bool)
  | directIo (on : Bool)
  | checkSelf (on : Bool)
  | verbose
  | help
  | unknown
  deriving DecidableEq

structure ClientConfig extends GlobalConfig where
  directIo : Bool := true
  speedLimit : ℤ := 0

section
variable (fs : FileSystem) (read : Bytes → Option Bytes)

/-- One round of the loop; an error is the status the program ends with. -/
def clientOption (cfg : ClientConfig) : ClientOpt → Except ℤ ClientConfig
  | .parallel arg => .ok { cfg with parallel := (atoi arg).toInt }
  | .target arg =>
    match parseTarget cfg.targets arg with
    | (true, targets) => .ok { cfg with targets }
    | (false, _) => .error 1
  | .targetList arg =>
    match parseTargets cfg.targets (read arg) with
    | (true, targets) => .ok { cfg with targets }
    | (false, _) => .error 1
  | .dryRun => .ok { cfg with dryRun := true }
  | .sendMethod arg =>
    if arg = text "chain" then .ok { cfg with sendMethod := .chain }
    else if arg = text "tree" then .ok { cfg with sendMethod := .tree }
    else .error 1
  | .speedLimit arg => if strtol arg ≤ 0 then .error 1 else .ok { cfg with speedLimit := strtol arg }
  | .waitClose on => .ok { cfg with waitClose := on }
  | .directIo on => .ok { cfg with directIo := on }
  | .checkSelf on => .ok { cfg with checkSelf := on }
  | .verbose => .ok cfg
  | .help => .error 0
  | .unknown => .error 0

def clientOptions : List ClientOpt → ClientConfig → Except ℤ ClientConfig
  | [], cfg => .ok cfg
  | opt :: opts, cfg =>
    match clientOption read cfg opt with
    | .error status => .error status
    | .ok cfg => clientOptions opts cfg

def parseArgs (opts : List ClientOpt) (paths : List Bytes) : Except ℤ ClientConfig :=
  match clientOptions read opts {} with
  | .error status => .error status
  | .ok cfg =>
    match loadFiles fs paths cfg.files with
    | (some _, _) => .error 1
    | (none, state) => .ok { cfg with files := state.files }

end

/-! ### What the options say -/

namespace ClientOpt

@[simp] def parallelArg : ClientOpt → Option ℤ
  | .parallel arg => some (atoi arg).toInt
  | _ => none

@[simp] def methodArg : ClientOpt → Option SendMethod
  | .sendMethod arg => if arg = text "chain" then some .chain else some .tree
  | _ => none

@[simp] def speedArg : ClientOpt → Option ℤ
  | .speedLimit arg => some (strtol arg)
  | _ => none

@[simp] def dryRunFlag : ClientOpt → Option Bool
  | .dryRun => some true
  | _ => none

@[simp] def waitFlag : ClientOpt → Option Bool
  | .waitClose on => some on
  | _ => none

@[simp] def directFlag : ClientOpt → Option Bool
  | .directIo on => some on
  | _ => none

@[simp] def checkFlag : ClientOpt → Option Bool
  | .checkSelf on => some on
  | _ => none

/-- The targets an option adds. -/
@[simp] def targets (read : Bytes → Option Bytes) : ClientOpt → List Addr
  | .target arg => [targetOf arg]
  | .targetList arg => (targetLines (getlines ((read arg).getD []))).map targetOf
  | _ => []

/-- The program goes on behind the option. -/
@[simp] def Takes (read : Bytes → Option Bytes) : ClientOpt → Prop
  | .target arg => ¬Rejected arg
  | .targetList arg => ∃ t, read arg = some t ∧ ∀ line ∈ targetLines (getlines t), ¬Rejected line
  | .sendMethod arg => arg = text "chain" ∨ arg = text "tree"
  | .speedLimit arg => 0 < strtol arg
  | .help => False
  | .unknown => False
  | _ => True

end ClientOpt

/-- What the last option that is about something says. -/
def lastOf {α : Type} (arg : ClientOpt → Option α) (opts : List ClientOpt) (default : α) : α :=
  ((opts.filterMap arg).getLast?).getD default

/-- The configuration behind an option that is taken. -/
def ClientConfig.after (cfg : ClientConfig) (read : Bytes → Option Bytes) (opt : ClientOpt) : ClientConfig :=
  { cfg with
    parallel := opt.parallelArg.getD cfg.parallel
    dryRun := opt.dryRunFlag.getD cfg.dryRun
    waitClose := opt.waitFlag.getD cfg.waitClose
    checkSelf := opt.checkFlag.getD cfg.checkSelf
    sendMethod := opt.methodArg.getD cfg.sendMethod
    targets := cfg.targets ++ opt.targets read
    directIo := opt.directFlag.getD cfg.directIo
    speedLimit := opt.speedArg.getD cfg.speedLimit }

variable {fs : FileSystem} {read : Bytes → Option Bytes} {opts : List ClientOpt} {paths : List Bytes}
  {cfg cfg' : ClientConfig} {opt : ClientOpt}

/-! ### The loop -/

theorem parseTargets_some (targets : List Addr) (t : Bytes) :
    parseTargets targets (some t) =
      ((targetLines (getlines t)).all fun arg => ¬Rejected arg,
        targets ++ (accepted (targetLines (getlines t))).map targetOf) :=
  parseLines_eq (getlines t) targets

/-- What one round does. -/
theorem clientOption_iff :
    clientOption read cfg opt = .ok cfg' ↔ opt.Takes read ∧ cfg.after read opt = cfg' := by
  cases opt with
  | target arg =>
    rw [clientOption, parseTarget_eq]
    by_cases hrej : Rejected arg
    · simp [hrej]
    · simp [hrej, ClientConfig.after]
  | targetList arg =>
    rw [clientOption]
    cases hread : read arg with
    | none => simp [parseTargets, hread]
    | some t =>
      rw [parseTargets_some]
      by_cases hall : ∀ line ∈ targetLines (getlines t), ¬Rejected line
      · have hbool : ((targetLines (getlines t)).all fun arg => ¬Rejected arg) = true := by simpa using hall
        rw [hbool, accepted_all hall]
        simp only [Except.ok.injEq, ClientConfig.after, ClientOpt.Takes, ClientOpt.targets, hread]
        exact ⟨fun h => ⟨⟨t, rfl, hall⟩, h⟩, fun h => h.2⟩
      · have hbool : ((targetLines (getlines t)).all fun arg => ¬Rejected arg) = false := by
          rw [Bool.eq_false_iff]
          simpa using hall
        rw [hbool]
        constructor
        · intro h
          cases h
        · rintro ⟨⟨t', ht', hall'⟩, _⟩
          rw [hread] at ht'
          cases ht'
          exact absurd hall' hall
  | sendMethod arg =>
    rw [clientOption]
    by_cases hchain : arg = text "chain"
    · simp [hchain, ClientConfig.after]
    · by_cases htree : arg = text "tree"
      · have hne : text "tree" ≠ text "chain" := by decide +kernel
        simp [htree, hne, ClientConfig.after]
      · simp [hchain, htree]
  | speedLimit arg =>
    rw [clientOption]
    by_cases hlow : strtol arg ≤ 0
    · simp [hlow]
    · simp [hlow, not_le.mp hlow, ClientConfig.after]
  | help => simp [clientOption]
  | unknown => simp [clientOption]
  | _ => simp [clientOption, ClientConfig.after]

/-- Whether an option is taken does not depend on those before it. -/
theorem clientOption_isSome (read : Bytes → Option Bytes) (cfg : ClientConfig) (opt : ClientOpt) :
    (clientOption read cfg opt).toOption.isSome ↔ opt.Takes read := by
  constructor
  · intro h
    cases hopt : clientOption read cfg opt with
    | error e =>
      rw [hopt] at h
      cases h
    | ok cfg' => exact (clientOption_iff.mp hopt).1
  · intro h
    rw [clientOption_iff.mpr ⟨h, rfl⟩]
    rfl

theorem clientOption_reader (read : Bytes → Option Bytes) :
    Assign.Reader (fun cfg opt => (clientOption read cfg opt).toOption)
      fun opt => (clientOption read {} opt).toOption.isSome :=
  ⟨fun cfg opt => Bool.eq_iff_iff.mpr
    ((clientOption_isSome read cfg opt).trans (clientOption_isSome read {} opt).symm)⟩

theorem toOption_some {α : Type} {x : Except ℤ α} {a : α} (h : x.toOption = some a) : x = .ok a := by
  cases x with
  | error e => cases h
  | ok b =>
    cases h
    rfl

theorem clientOptions_run (opts : List ClientOpt) (cfg : ClientConfig) :
    clientOptions read opts cfg = .ok cfg' ↔
      (Assign.run (fun cfg opt => (clientOption read cfg opt).toOption) cfg opts).1 = [] ∧
        (Assign.run (fun cfg opt => (clientOption read cfg opt).toOption) cfg opts).2 = cfg' := by
  induction opts generalizing cfg with
  | nil => simp [clientOptions, Assign.run]
  | cons opt opts ih =>
    rw [clientOptions, Assign.run]
    cases clientOption read cfg opt with
    | error e => simp [Except.toOption]
    | ok c => exact ih c

/-- What the options make of the configuration. -/
structure Chosen (read : Bytes → Option Bytes) (opts : List ClientOpt) (files : List FileDesc)
    (cfg : ClientConfig) : Prop where
  parallel : cfg.parallel = lastOf (·.parallelArg) opts 1
  dryRun : cfg.dryRun = lastOf (·.dryRunFlag) opts false
  waitClose : cfg.waitClose = lastOf (·.waitFlag) opts true
  checkSelf : cfg.checkSelf = lastOf (·.checkFlag) opts true
  sendMethod : cfg.sendMethod = lastOf (·.methodArg) opts .chain
  directIo : cfg.directIo = lastOf (·.directFlag) opts true
  speedLimit : cfg.speedLimit = lastOf (·.speedArg) opts 0
  targets : cfg.targets = opts.flatMap fun opt => opt.targets read
  files : cfg.files = files

/-- The options decide all of it. -/
theorem Chosen.unique {files : List FileDesc} (h : Chosen read opts files cfg)
    (h' : Chosen read opts files cfg') : cfg = cfg' := by
  obtain ⟨⟨_, _, _, _, _, _, _⟩, _, _⟩ := cfg
  obtain ⟨⟨_, _, _, _, _, _, _⟩, _, _⟩ := cfg'
  obtain ⟨h1, h2, h3, h4, h5, h6, h7, h8, h9⟩ := h
  obtain ⟨h1', h2', h3', h4', h5', h6', h7', h8', h9'⟩ := h'
  simp only at *
  simp only [*]

/-- If all options are taken, this is what they say. -/
theorem clientOptions_chosen (hall : ∀ opt ∈ opts, opt.Takes read) :
    ∃ cfg, clientOptions read opts {} = .ok cfg ∧ Chosen read opts [] cfg := by
  have hreader := clientOption_reader read
  have hrun := hreader.run_all {} opts
  have htaken : Assign.taken (fun opt => (clientOption read {} opt).toOption.isSome) opts = opts :=
    Assign.taken_eq_self.mpr fun opt hopt => (clientOption_isSome read {} opt).mpr (hall opt hopt)
  have hstep : ∀ (c : ClientConfig) (opt : ClientOpt) (c' : ClientConfig),
      (clientOption read c opt).toOption = some c' → c' = c.after read opt := fun c opt c' h =>
    (clientOption_iff.mp (toOption_some h)).2.symm
  have hlast : ∀ {α : Type} (get : ClientConfig → α) (arg : ClientOpt → Option α)
      (_ : ∀ c opt, get (ClientConfig.after c read opt) = (arg opt).getD (get c)),
      get (Assign.run (fun cfg opt => (clientOption read cfg opt).toOption) {} opts).2 =
        lastOf arg opts (get {}) := by
    intro α get arg harg
    have h := hreader.get_last get arg (fun c opt c' h => by rw [hstep c opt c' h, harg]) {} opts
    rwa [htaken] at h
  have htargets := hreader.get_append (·.targets) (·.targets read) (fun c opt c' h => by
    rw [hstep c opt c' h]
    rfl) {} opts
  have hfiles := hreader.get_run (·.files) (fun _ v => v) (fun c opt c' h => by
    rw [hstep c opt c' h]
    rfl) {} opts
  rw [htaken] at htargets
  rw [List.foldl_fixed] at hfiles
  have hchosen : Chosen read opts []
      (Assign.run (fun cfg opt => (clientOption read cfg opt).toOption) {} opts).2 :=
    ⟨hlast (·.parallel) _ fun _ _ => rfl, hlast (·.dryRun) _ fun _ _ => rfl,
      hlast (·.waitClose) _ fun _ _ => rfl, hlast (·.checkSelf) _ fun _ _ => rfl,
      hlast (·.sendMethod) _ fun _ _ => rfl, hlast (·.directIo) _ fun _ _ => rfl,
      hlast (·.speedLimit) _ fun _ _ => rfl, htargets, hfiles⟩
  exact ⟨_, (clientOptions_run opts {}).mpr ⟨hrun.mpr fun opt hopt =>
    (clientOption_isSome read {} opt).mpr (hall opt hopt), rfl⟩, hchosen⟩

/-- The status for an option that is not taken. -/
def refusal (opt : ClientOpt) : ℤ := if opt = .help ∨ opt = .unknown then 0 else 1

theorem clientOption_error {status : ℤ} (h : clientOption read cfg opt = .error status) :
    status = refusal opt := by
  cases opt <;> simp only [clientOption] at h <;> (try split at h) <;> (try split at h) <;> cases h <;> rfl

theorem clientOptions_error {pre post : List ClientOpt} (hpre : ∀ o ∈ pre, o.Takes read)
    (hopt : ¬opt.Takes read) (cfg : ClientConfig) :
    clientOptions read (pre ++ opt :: post) cfg = .error (refusal opt) := by
  induction pre generalizing cfg with
  | nil =>
    rw [List.nil_append, clientOptions]
    cases hres : clientOption read cfg opt with
    | error status => rw [clientOption_error hres]
    | ok cfg' => exact absurd (clientOption_iff.mp hres).1 hopt
  | cons o pre ih =>
    rw [List.cons_append, clientOptions, clientOption_iff.mpr ⟨hpre o List.mem_cons_self, rfl⟩]
    exact ih (fun o' ho' => hpre o' (List.mem_cons_of_mem _ ho')) _

/-- The first option that cannot be taken. -/
theorem first_refused (h : ¬∀ opt ∈ opts, opt.Takes read) :
    ∃ pre opt post, opts = pre ++ opt :: post ∧ (∀ o ∈ pre, o.Takes read) ∧ ¬opt.Takes read := by
  induction opts with
  | nil => exact absurd (List.forall_mem_nil _) h
  | cons o opts ih =>
    by_cases ho : o.Takes read
    · obtain ⟨pre, opt, post, rfl, hpre, hopt⟩ := ih fun hall => h (List.forall_mem_cons.mpr ⟨ho, hall⟩)
      exact ⟨o :: pre, opt, post, rfl, List.forall_mem_cons.mpr ⟨ho, hpre⟩, hopt⟩
    · exact ⟨[], o, opts, rfl, List.forall_mem_nil _, ho⟩

theorem parseArgs_error {pre post : List ClientOpt} (hpre : ∀ o ∈ pre, o.Takes read)
    (hopt : ¬opt.Takes read) : parseArgs fs read (pre ++ opt :: post) paths = .error (refusal opt) := by
  rw [parseArgs, clientOptions_error hpre hopt]

theorem parseArgs_eq_ok : parseArgs fs read opts paths = .ok cfg ↔ (∀ opt ∈ opts, opt.Takes read) ∧
    (loadFiles fs paths []).1 = none ∧ Chosen read opts (loadFiles fs paths []).2.files cfg := by
  by_cases hall : ∀ opt ∈ opts, opt.Takes read
  · obtain ⟨c, hc, hchosen⟩ := clientOptions_chosen hall
    rw [parseArgs, hc]
    simp only [hchosen.files]
    rcases hload : loadFiles fs paths [] with ⟨_ | e, state⟩
    · have hfiles : Chosen read opts state.files { c with files := state.files } :=
        ⟨hchosen.parallel, hchosen.dryRun, hchosen.waitClose, hchosen.checkSelf, hchosen.sendMethod,
          hchosen.directIo, hchosen.speedLimit, hchosen.targets, rfl⟩
      constructor
      · intro h
        cases h
        exact ⟨hall, rfl, hfiles⟩
      · exact fun h => congrArg Except.ok (hfiles.unique h.2.2)
    · exact iff_of_false (fun h => nomatch h) fun h => nomatch h.2.1
  · obtain ⟨pre, opt, post, rfl, hpre, hopt⟩ := first_refused hall
    rw [parseArgs_error hpre hopt]
    exact iff_of_false (fun h => nomatch h) fun h => hall h.1

/-- CORRECT (command line): it is taken exactly when each option can be and the files are found, and
    then says what it says: targets add up in order, of everything else the last word counts. The first
    option that cannot be taken, or else a file that cannot, decides the status of the program. -/
theorem parse_args_iff (fs : FileSystem) (read : Bytes → Option Bytes) (opts : List ClientOpt)
    (paths : List Bytes) :
    (∀ cfg, parseArgs fs read opts paths = .ok cfg ↔ (∀ opt ∈ opts, opt.Takes read) ∧
      (loadFiles fs paths []).1 = none ∧ Chosen read opts (loadFiles fs paths []).2.files cfg) ∧
    (∀ pre opt post, opts = pre ++ opt :: post → (∀ o ∈ pre, o.Takes read) → ¬opt.Takes read →
      parseArgs fs read opts paths = .error (refusal opt)) ∧
    ((∀ opt ∈ opts, opt.Takes read) → (loadFiles fs paths []).1 ≠ none →
      parseArgs fs read opts paths = .error 1) := by
  refine ⟨fun cfg => parseArgs_eq_ok, fun pre opt post hopts hpre hopt => ?_, fun hall hload => ?_⟩
  · rw [hopts, parseArgs_error hpre hopt]
  · obtain ⟨c, hc, hchosen⟩ := clientOptions_chosen hall
    rw [parseArgs, hc]
    simp only [hchosen.files]
    rcases hres : loadFiles fs paths [] with ⟨_ | e, state⟩
    · rw [hres] at hload
      exact absurd rfl hload
    · rfl

/-! ### What the uploads are given -/

/-- A target that is taken has a host and a port. -/
theorem targetOf_fits {arg : Bytes} (h : ¬Rejected arg) :
    (targetOf arg).1 ≠ [] ∧ colon ∉ (targetOf arg).1 ∧ (targetOf arg).2 ≠ 0 := by
  obtain ⟨host, t, rfl, hhost⟩ := List.eq_append_cons_of_mem (not_not.mp fun hc : colon ∉ arg => h (.inl hc))
  obtain ⟨htake, -⟩ := split_colon hhost t
  rw [rejected_split hhost, not_or] at h
  rw [targetOf, htake, behindColon_split hhost]
  exact ⟨h.1, hhost, h.2⟩

theorem targets_fit {opt : ClientOpt} (h : opt.Takes read) {t : Addr} (ht : t ∈ opt.targets read) :
    t.1 ≠ [] ∧ colon ∉ t.1 ∧ t.2 ≠ 0 := by
  cases opt with
  | target arg =>
    cases List.mem_singleton.mp ht
    exact targetOf_fits h
  | targetList arg =>
    obtain ⟨file, hread, hall⟩ := h
    rw [ClientOpt.targets, hread, Option.getD_some] at ht
    obtain ⟨line, hline, rfl⟩ := List.mem_map.mp ht
    exact targetOf_fits (hall line hline)
  | _ => cases ht

/-- `main` uploads something. -/
theorem main_begun {cfg : GlobalConfig} {answers : ℕ → UploadAnswers defaultChunkSize cfg.sendParallel}
    {addrs : Option (List Bytes)} (h : (main cfg answers 0 addrs).2 ≠ []) :
    cfg.targets ≠ [] ∧ (cfg.checkSelf = true → doCheckSelf addrs cfg.targets = true) := by
  rw [main, if_neg (not_not.mpr rfl)] at h
  by_cases ht : cfg.targets = []
  · rw [if_pos ht] at h
    exact absurd rfl h
  · refine ⟨ht, fun hcheck => ?_⟩
    by_contra hself
    rw [if_neg ht, if_pos ⟨hcheck, hself⟩] at h
    exact h rfl

theorem doCheckSelf_eq_true {addrs : Option (List Bytes)} {targets : List Addr}
    (h : doCheckSelf addrs targets = true) :
    targets.Nodup ∧ ∃ hosts, addrs = some hosts ∧ ∀ t ∈ targets, t.1 ∉ hosts := by
  cases addrs with
  | none => cases h
  | some hosts =>
    rw [doCheckSelf.eq_def] at h
    simp only [decide_eq_true_eq, List.all_eq_true] at h
    exact ⟨List.Nodup.of_map _ h.2, hosts, rfl, h.1⟩

theorem sendParallel_eq (cfg : GlobalConfig) :
    1 ≤ cfg.sendParallel ∧ cfg.sendParallel ≤ 900 ∧ (cfg.sendParallel : ℤ) = max 1 (min 900 cfg.parallel) := by
  rw [GlobalConfig.sendParallel]
  split
  · omega
  split <;> omega

/-- CORRECT (uploads): when an upload is begun, its parameters are fit for it. -/
theorem uploads_fit (answers : ℕ → UploadAnswers defaultChunkSize cfg.sendParallel)
    (addrs : Option (List Bytes)) (hparse : parseArgs fs read opts paths = .ok cfg)
    (hbegun : (main cfg.toGlobalConfig answers 0 addrs).2 ≠ []) (file : FileDesc) :
    let p := senderParams cfg.toGlobalConfig file
    (1 ≤ p.parallel ∧ p.parallel ≤ 900 ∧
      (p.parallel : ℤ) = max 1 (min 900 (lastOf (·.parallelArg) opts 1))) ∧
    (p.targets = opts.flatMap (·.targets read) ∧ p.targets ≠ [] ∧
      ∀ t ∈ p.targets, t.1 ≠ [] ∧ colon ∉ t.1 ∧ t.2 ≠ 0) ∧
    (lastOf (·.checkFlag) opts true = true → p.targets.Nodup ∧
      ∃ hosts, addrs = some hosts ∧ ∀ t ∈ p.targets, t.1 ∉ hosts) ∧
    p.sendMethod = lastOf (·.methodArg) opts .chain ∧ p.waitClose = lastOf (·.waitFlag) opts true ∧
    p.chunkSize.toNat ≠ 0 ∧ p.chunkSize.toNat % pageSize = 0 := by
  obtain ⟨hall, -, hchosen⟩ := parseArgs_eq_ok.mp hparse
  obtain ⟨htargets, hself⟩ := main_begun hbegun
  obtain ⟨hlow, hhigh, hclamp⟩ := sendParallel_eq cfg.toGlobalConfig
  rw [hchosen.parallel] at hclamp
  refine ⟨⟨hlow, hhigh, hclamp⟩, ⟨hchosen.targets, htargets, fun t ht => ?_⟩, fun hcheck => ?_,
    hchosen.sendMethod, hchosen.waitClose, ?_, ?_⟩
  · have hmem : t ∈ cfg.targets := ht
    rw [hchosen.targets] at hmem
    obtain ⟨opt, hopt, hmem⟩ := List.mem_flatMap.mp hmem
    exact targets_fit (hall opt hopt) hmem
  · exact doCheckSelf_eq_true (hself (hchosen.checkSelf.trans hcheck))
  · change defaultChunkSize.toNat ≠ 0
    decide
  · change defaultChunkSize.toNat % pageSize = 0
    decide

deriving instance DecidableEq for GlobalConfig

deriving instance DecidableEq for ClientConfig

/-- The only file. -/
def oneFile : FileSystem where
  status := fun _ => .ok .regular
  entries := fun _ => ([], none)
  readable := fun _ => true
  canonical := .ok
  fileSize := fun _ => .ok 3

def oneUpload : ClientConfig where
  targets := [(text "h", 80)]
  files := [⟨text "f", [], text "f", text "f", 3⟩]

theorem oneUpload_parsed :
    parseArgs oneFile (fun _ => none) [.target (text "h:80")] [text "f"] = .ok oneUpload := by
  decide +kernel

theorem uploads_fit_one :
    (senderParams oneUpload.toGlobalConfig ⟨text "f", [], text "f", text "f", 3⟩).targets.Nodup :=
  ((uploads_fit (fun _ => sampleAnswers 0) (some []) oneUpload_parsed
    (by decide +kernel) ⟨text "f", [], text "f", text "f", 3⟩).2.2.1 rfl).1

end Fcopy
