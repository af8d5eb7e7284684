import Sdiol.NameTables
import Sdiol.SocketLock

namespace Sdiol

open Getopt Strtol

/-!
# `main`

From the command line to the end of the process: the name tables, `parse_opts`, `runopts_build`,
the positional arguments, and what is freed.  `sdiolMain` is the list of what happens and the
status with which the process ends; what `local`, `serve`, `read`, `serve-tcp` and `connect` do
is a parameter, which says whether they return or end the process with `exit`.

`Usage` are the usage lines of `print_help`, and `main_runs_iff` says that a command is run
exactly on a command line of that form, with the options in their meaning.  `main_frees` is about
memory, and `socket_private` about who can connect to a server that was started on a command
line.
-/

/-! ### The program -/

/-- `(int)strtol(s, NULL, 10)`, which is `atoi`. -/
def atoi (s : Arg) : Int := Int.bmod (strtol 10 s).1 (2 ^ 32)

/-- `runopts_t`, where `C` is the type of configurations. -/
structure RunOpts (C : Type) where
  config : Option C
  systemd : Bool
  verbose : Bool
  timeout : Int
  user : Option Arg
  group : Option Arg
  mode : Option Arg

/-- What `main` calls for the positional arguments. -/
inductive Command where
  | mainLocal
  | mainServeUnix (socket lock : Arg)
  | mainRead
  | mainServeTcp (host : Option Arg) (port : Arg)
  | mainConnect (host port : Arg)
deriving DecidableEq

/-- What is allocated and freed by `main` and `runopts_build`. -/
inductive Resource where
  /-- the tables of `names_init` -/
  | names
  | user
  | group
  | config
  | lock
deriving DecidableEq

/-- What happens in `main`. -/
inductive MainEffect (C : Type) where
  | alloc (r : Resource)
  | free (r : Resource)
  /-- A text on `stderr`; of what `perror` writes, what it is given. -/
  | message (text : Arg)
  /-- `print_help(stderr)` or `print_help(stdout)` -/
  | help (stderr : Bool)
  /-- The handlers for `SIGINT` and `SIGTERM` are set, and `SIGPIPE` is ignored. -/
  | signals
  | command (c : Command) (opts : RunOpts C)

/-- How a command ends. -/
inductive CommandEnd where
  | returned (ret : Int)
  /-- `exit`, as for an overflow in `serve_loop` -/
  | exited (status : Int)

/-- The status with which the process ends. -/
def CommandEnd.status : CommandEnd → Int
  | .returned ret => ret
  | .exited status => status

/-- What is done after the command, if it returns. -/
def CommandEnd.followed {α : Type*} (l : List α) : CommandEnd → List α
  | .returned _ => l
  | .exited _ => []

/-- What `main` depends on: the allocations, `config_new`, and how the commands end. -/
structure MainEnv (C : Type) where
  names : NamesAlloc
  /-- Those of `split_user_group`. -/
  mallocs : Bool × Bool
  lockMalloc : Bool
  configNew : Arg → Option C
  run : Command → RunOpts C → CommandEnd

/-- `get_lock_path` -/
def getLockPath (malloc : Bool) (socket : Arg) : Option Arg :=
  if malloc then some (socket ++ bytes ".lock") else none

section Main

variable {C : Type}

/-- `free` of a string that may be `NULL`. -/
def freeString (r : Resource) (s : Option Arg) : List (MainEffect C) :=
  if s.isSome then [.free r] else []

/-- What happens in `split_user_group`. -/
def splitEffects (mallocs : Bool × Bool) (userGroup : Option Arg) : List (MainEffect C) :=
  match userGroup with
  | none => []
  | some userGroup =>
    match findColon 0 none userGroup with
    | some (some _) =>
      if !mallocs.1 then [.message (bytes "malloc")]
      else if !mallocs.2 then [.alloc .user, .message (bytes "malloc"), .free .user]
      else [.alloc .user, .alloc .group]
    | _ => [.message (bytes "invalid USER:GROUP: " ++ userGroup ++ bytes "\n")]

/-- `runopts_build`: `none` if it returns -1. -/
def runoptsBuild (env : MainEnv C) (opts : Opts) : List (MainEffect C) × Option (RunOpts C) :=
  let split := splitEffects env.mallocs opts.userGroup
  match splitUserGroup env.mallocs opts.userGroup with
  | .error _ => (split, none)
  | .ok (user, group) =>
    let built (config : Option C) : RunOpts C :=
      ⟨config, opts.systemd, opts.verbose, (opts.timeout.map atoi).getD 0, user, group, opts.mode⟩
    match opts.config with
    | none => (split, some (built none))
    | some path =>
      match env.configNew path with
      | none => (split ++ freeString .user user ++ freeString .group group, none)
      | some config => (split ++ [.alloc .config], some (built (some config)))

/-- `runopts_free` -/
def runoptsFree (runopts : RunOpts C) : List (MainEffect C) :=
  (if runopts.config.isSome then [.free .config] else []) ++ freeString .user runopts.user ++
    freeString .group runopts.group

/-- Where the positional arguments lead. -/
inductive Dispatch where
  | help
  | noMemory
  | run (c : Command)

/-- The positional arguments in `main`. -/
def interpretArgs (lockMalloc : Bool) (args : List Arg) : Dispatch :=
  match args with
  | [] => .help
  | name :: args =>
    if name = bytes "local" then
      match args with
      | [] => .run .mainLocal
      | _ => .help
    else if name = bytes "serve" then
      match args with
      | [socket] =>
        match getLockPath lockMalloc socket with
        | none => .noMemory
        | some lock => .run (.mainServeUnix socket lock)
      | _ => .help
    else if name = bytes "read" then
      match args with
      | [] => .run .mainRead
      | _ => .help
    else if name = bytes "serve-tcp" then
      match args with
      | [port] => .run (.mainServeTcp none port)
      | [host, port] => .run (.mainServeTcp (some host) port)
      | _ => .help
    else if name = bytes "connect" then
      match args with
      | [host, port] => .run (.mainConnect host port)
      | _ => .help
    else .help

/-- What is done there, and `retval` unless the process ends. -/
def runDispatch (env : MainEnv C) (runopts : RunOpts C) :
    Dispatch → List (MainEffect C) × CommandEnd
  | .help => ([.help true], .returned 1)
  | .noMemory => ([], .returned 1)
  | .run (.mainServeUnix socket lock) =>
    let ended := env.run (.mainServeUnix socket lock) runopts
    ([.alloc .lock, .command (.mainServeUnix socket lock) runopts] ++ ended.followed [.free .lock],
      ended)
  | .run c => ([.command c runopts], env.run c runopts)

/-- `main`: what happens, and the status with which the process ends. -/
def sdiolMain (env : MainEnv C) (prog : Arg) (argv : List Arg) : List (MainEffect C) × Int :=
  match namesInit env.names with
  | .error _ => ([.message (bytes "failed to initialize memory\n")], 1)
  | .ok _ =>
    match parseOpts prog argv with
    -- `exit(0)`
    | .error .help => ([.alloc .names, .help false], 0)
    | .error .invalidOption =>
      ([.alloc .names, .message (bytes "invalid option during parsing\n"), .help true,
        .free .names], 1)
    | .ok parsed =>
      match runoptsBuild env parsed.opts with
      | (built, none) => ([.alloc .names] ++ built ++ [.free .names], 1)
      | (built, some runopts) =>
        let (ran, ended) := runDispatch env runopts (interpretArgs env.lockMalloc parsed.args)
        ([.alloc .names] ++ built ++ [.signals] ++ ran ++
          ended.followed (runoptsFree runopts ++ [.free .names]), ended.status)

/-! ### Usage -/

/-- The usage lines of `print_help`. -/
inductive Usage : List Arg → Command → Prop
  | mainLocal : Usage [bytes "local"] .mainLocal
  | mainServeUnix (socket : Arg) :
      Usage [bytes "serve", socket] (.mainServeUnix socket (socket ++ bytes ".lock"))
  | mainRead : Usage [bytes "read"] .mainRead
  | mainServeTcp (port : Arg) : Usage [bytes "serve-tcp", port] (.mainServeTcp none port)
  | mainServeTcpHost (host port : Arg) :
      Usage [bytes "serve-tcp", host, port] (.mainServeTcp (some host) port)
  | mainConnect (host port : Arg) :
      Usage [bytes "connect", host, port] (.mainConnect host port)

/-- The command needs the path of a lock file. -/
def Command.locks : Command → Bool
  | .mainServeUnix _ _ => true
  | _ => false

/-- The commands have different names. -/
theorem command_names_nodup : [bytes "local", bytes "serve", bytes "read", bytes "serve-tcp",
    bytes "connect"].Nodup := by decide +kernel

/-- **Positional arguments.** A command is run on its usage line and no other. -/
theorem interpretArgs_iff {lockMalloc : Bool} {args : List Arg} {c : Command} :
    interpretArgs lockMalloc args = .run c ↔
      Usage args c ∧ (c.locks = true → lockMalloc = true) := by
  have hnames := command_names_nodup
  simp only [List.nodup_cons, List.mem_cons, List.not_mem_nil, or_false, not_or, not_false_eq_true,
    List.nodup_nil, and_true] at hnames
  obtain ⟨⟨hls, hlr, hlt, hlc⟩, ⟨hsr, hst, hsc⟩, ⟨hrt, hrc⟩, htc⟩ := hnames
  constructor
  · intro h
    match args with
    | [] => exact absurd h (by simp [interpretArgs])
    | name :: args =>
      simp only [interpretArgs] at h
      split_ifs at h with hname hname hname hname hname <;> subst hname
      · split at h
        · cases h
          exact ⟨.mainLocal, by simp [Command.locks]⟩
        · exact absurd h (by simp)
      · split at h
        · cases lockMalloc with
          | false => exact absurd h (by simp [getLockPath])
          | true =>
            cases h
            exact ⟨.mainServeUnix _, fun _ => rfl⟩
        · exact absurd h (by simp)
      · split at h
        · cases h
          exact ⟨.mainRead, by simp [Command.locks]⟩
        · exact absurd h (by simp)
      · split at h
        · cases h
          exact ⟨.mainServeTcp _, by simp [Command.locks]⟩
        · cases h
          exact ⟨.mainServeTcpHost _ _, by simp [Command.locks]⟩
        · exact absurd h (by simp)
      · split at h
        · cases h
          exact ⟨.mainConnect _ _, by simp [Command.locks]⟩
        · exact absurd h (by simp)
  · rintro ⟨husage, hlock⟩
    cases husage with
    | mainServeUnix socket =>
      cases hlock rfl
      simp [interpretArgs, Ne.symm hls, getLockPath]
    | _ => simp [interpretArgs, Ne.symm hlr, Ne.symm hlt, Ne.symm hlc, Ne.symm hsr, Ne.symm hst,
        Ne.symm hsc, Ne.symm hrt, Ne.symm hrc, Ne.symm htc]

/-! ### The options -/

/-- The `switch` never sees an `m`, and a `c` only with an argument. -/
theorem found_opt {opt : Int} {arg : Option Arg} (h : Found optstring longopts opt arg) :
    opt ≠ ch 'm' ∧ (opt = ch 'c' → arg.isSome = true) := by
  cases h with
  | @short c has arg hc harg =>
    have htable : ∀ c ∈ optstring, (c.toNat : Int) ≠ ch 'm' ∧ ((c.toNat : Int) = ch 'c' →
        shortHasArg optstring c = some .requiredArgument) := by decide +kernel
    obtain ⟨hm, hreq⟩ := htable c (shortHasArg_mem hc)
    refine ⟨hm, fun hcc => harg ?_⟩
    exact Option.some.inj (hc.symm.trans (hreq hcc))
  | @long o arg ho harg =>
    have htable : ∀ o ∈ longopts, o.val ≠ ch 'm' ∧
        (o.val = ch 'c' → o.hasArg = .requiredArgument) := by decide +kernel
    obtain ⟨hm, hreq⟩ := htable o ho
    exact ⟨hm, fun hcc => harg (hreq hcc)⟩
  | unknown => exact ⟨by decide, fun h => absurd h (by decide)⟩
  | missing =>
    have hmissing : missing optstring = question := by decide +kernel
    rw [hmissing]
    exact ⟨by decide, fun h => absurd h (by decide)⟩

/-- **Any command line.** `parse_opts` never sets a mode, and there is always a configuration
    file. -/
theorem parseOpts_inv {prog : Arg} {argv : List Arg} {parsed : Parsed}
    (h : parseOpts prog argv = .ok parsed) :
    parsed.opts.mode = none ∧ parsed.opts.config.isSome = true := by
  unfold parseOpts at h
  obtain ⟨⟨s, opts⟩, hrun, hparsed⟩ := Steps.bind_eq_ok.mp h
  cases hparsed
  refine each_inv (I := fun opts => opts.mode = none ∧ opts.config.isSome = true)
    (fun opt arg st st' hfound hst hbody => ?_) ⟨rfl, rfl⟩ hrun
  obtain ⟨hm, hc⟩ := found_opt hfound
  unfold parseOpt at hbody
  split_ifs at hbody with _ hopt
  · cases hbody
    exact ⟨hst.1, hc hopt⟩
  -- the other options set neither
  all_goals
    cases hbody
    exact hst

/-! ### Which command is run -/

/-- What the options mean for the commands. -/
def Means (env : MainEnv C) (opts : Opts) (runopts : RunOpts C) : Prop :=
  ∃ user group path config, splitUserGroup env.mallocs opts.userGroup = .ok (user, group) ∧
    opts.config = some path ∧ env.configNew path = some config ∧
    runopts = ⟨some config, opts.systemd, opts.verbose, (opts.timeout.map atoi).getD 0, user,
      group, opts.mode⟩

/-- `runopts_build` returns 0. -/
theorem runoptsBuild_iff {env : MainEnv C} {opts : Opts} (hconfig : opts.config.isSome = true)
    {runopts : RunOpts C} :
    (runoptsBuild env opts).2 = some runopts ↔ Means env opts runopts := by
  obtain ⟨path, hpath⟩ := Option.isSome_iff_exists.mp hconfig
  unfold runoptsBuild Means
  cases hsplit : splitUserGroup env.mallocs opts.userGroup with
  | error text => simp
  | ok x =>
    obtain ⟨user, group⟩ := x
    cases hnew : env.configNew path with
    | none => simp [hpath, hnew]
    | some config =>
      simp only [hpath, hnew]
      constructor
      · intro h
        exact ⟨user, group, path, config, rfl, rfl, hnew, (Option.some.inj h).symm⟩
      · rintro ⟨user', group', path', config', hug, hpath', hnew', rfl⟩
        cases hug
        cases hpath'
        cases hnew.symm.trans hnew'
        rfl

section NoCommand

variable {c : Command} {runopts : RunOpts C}

theorem not_command_freeString (r : Resource) (s : Option Arg) :
    .command c runopts ∉ freeString r s := by
  unfold freeString
  split <;> simp

theorem not_command_splitEffects (mallocs : Bool × Bool) (userGroup : Option Arg) :
    .command c runopts ∉ splitEffects mallocs userGroup := by
  unfold splitEffects
  split
  · simp
  · split
    · split_ifs <;> simp
    · simp

theorem not_command_runoptsBuild (env : MainEnv C) (opts : Opts) :
    .command c runopts ∉ (runoptsBuild env opts).1 := by
  have hsplit := @not_command_splitEffects C c runopts env.mallocs opts.userGroup
  unfold runoptsBuild
  cases splitUserGroup env.mallocs opts.userGroup with
  | error text => exact hsplit
  | ok x =>
    cases opts.config with
    | none => exact hsplit
    | some path =>
      cases hnew : env.configNew path with
      | none => simp [hnew, hsplit, not_command_freeString]
      | some config => simp [hnew, hsplit]

theorem not_command_runoptsFree (runopts' : RunOpts C) :
    .command c runopts ∉ runoptsFree runopts' := by
  unfold runoptsFree
  split <;> simp [not_command_freeString]

theorem not_command_followed {l : List (MainEffect C)} (h : .command c runopts ∉ l)
    (ended : CommandEnd) : .command c runopts ∉ ended.followed l := by
  cases ended with
  | returned ret => exact h
  | exited status => exact List.not_mem_nil

end NoCommand

theorem runDispatch_command {env : MainEnv C} {runopts runopts' : RunOpts C} {c : Command}
    {d : Dispatch} :
    .command c runopts ∈ (runDispatch env runopts' d).1 ↔ d = .run c ∧ runopts = runopts' := by
  have hlock : ∀ ended : CommandEnd,
      MainEffect.command c runopts ∉ ended.followed [MainEffect.free .lock] :=
    not_command_followed (by simp)
  cases d with
  | run c' =>
    cases c' <;> simp [runDispatch, hlock, eq_comm]
  | _ => simp [runDispatch]

/-- The command ends as it does by itself. -/
theorem runDispatch_end (env : MainEnv C) (runopts : RunOpts C) (d : Dispatch) :
    (∃ c, d = .run c ∧ (runDispatch env runopts d).2 = env.run c runopts) ∨
      (∀ c, d ≠ .run c) ∧ (runDispatch env runopts d).2 = .returned 1 := by
  cases d with
  | run c =>
    refine .inl ⟨c, rfl, ?_⟩
    cases c <;> rfl
  | _ => exact .inr ⟨by simp, rfl⟩

/-- How a run of `main` goes. -/
inductive MainRun (env : MainEnv C) (prog : Arg) (argv : List Arg) :
    List (MainEffect C) × Int → Prop
  | noMemory : MainRun env prog argv ([.message (bytes "failed to initialize memory\n")], 1)
  | help (hparsed : parseOpts prog argv = .error .help) :
      MainRun env prog argv ([.alloc .names, .help false], 0)
  | invalidOption (hparsed : parseOpts prog argv = .error .invalidOption) :
      MainRun env prog argv ([.alloc .names, .message (bytes "invalid option during parsing\n"),
        .help true, .free .names], 1)
  | notBuilt {parsed : Parsed} {built : List (MainEffect C)}
      (hparsed : parseOpts prog argv = .ok parsed)
      (hbuilt : runoptsBuild env parsed.opts = (built, none)) :
      MainRun env prog argv ([.alloc .names] ++ built ++ [.free .names], 1)
  | dispatched {parsed : Parsed} {built ran : List (MainEffect C)} {runopts : RunOpts C}
      {ended : CommandEnd} (hparsed : parseOpts prog argv = .ok parsed)
      (hbuilt : runoptsBuild env parsed.opts = (built, some runopts))
      (hran : runDispatch env runopts (interpretArgs env.lockMalloc parsed.args) = (ran, ended)) :
      MainRun env prog argv ([.alloc .names] ++ built ++ [.signals] ++ ran ++
        ended.followed (runoptsFree runopts ++ [.free .names]), ended.status)

theorem sdiolMain_run (env : MainEnv C) (prog : Arg) (argv : List Arg) :
    MainRun env prog argv (sdiolMain env prog argv) := by
  unfold sdiolMain
  cases namesInit env.names with
  | error e => exact .noMemory
  | ok t =>
    cases hparsed : parseOpts prog argv with
    | error e =>
      cases e with
      | help => exact .help hparsed
      | invalidOption => exact .invalidOption hparsed
    | ok parsed =>
      simp only
      cases hbuilt : runoptsBuild env parsed.opts with
      | mk built opts =>
        cases opts with
        | none => exact .notBuilt hparsed hbuilt
        | some runopts => exact .dispatched hparsed hbuilt rfl

/-- **What `main` runs**, for any command line that `parse_opts` accepts. -/
theorem sdiolMain_command {env : MainEnv C} {prog : Arg} {argv : List Arg} {parsed : Parsed}
    (hparsed : parseOpts prog argv = .ok parsed) {c : Command} {runopts : RunOpts C} :
    .command c runopts ∈ (sdiolMain env prog argv).1 ↔
      (∃ t, namesInit env.names = .ok t) ∧ Means env parsed.opts runopts ∧
        Usage parsed.args c ∧ (c.locks = true → env.lockMalloc = true) := by
  have hmeans : (runoptsBuild env parsed.opts).2 = some runopts ↔ Means env parsed.opts runopts :=
    runoptsBuild_iff (parseOpts_inv hparsed).2
  have hbuilt := @not_command_runoptsBuild C c runopts env parsed.opts
  unfold sdiolMain
  cases hnames : namesInit env.names with
  | error e => simp
  | ok t =>
    simp only [hparsed]
    cases hrun : runoptsBuild env parsed.opts with
    | mk built opts =>
      rw [hrun] at hmeans hbuilt
      cases opts with
      | none =>
        rw [← hmeans]
        simp [hbuilt]
      | some opts =>
        have hfreed : ∀ ended : CommandEnd,
            .command c runopts ∉ ended.followed (runoptsFree opts ++ [.free .names]) :=
          not_command_followed (by simp [not_command_runoptsFree])
        rw [← hmeans, ← interpretArgs_iff]
        simp [hbuilt, hfreed, runDispatch_command, eq_comm, and_comm]

/-- Without the options, nothing is run. -/
theorem sdiolMain_not_parsed {env : MainEnv C} {prog : Arg} {argv : List Arg} {e : ParseStop}
    (he : parseOpts prog argv = .error e) (c : Command) (runopts : RunOpts C) :
    .command c runopts ∉ (sdiolMain env prog argv).1 := by
  have hrun := sdiolMain_run env prog argv
  generalize sdiolMain env prog argv = r at hrun ⊢
  cases hrun with
  | noMemory | help | invalidOption => simp
  | notBuilt hparsed | dispatched hparsed => exact absurd (he.symm.trans hparsed) (by simp)

/-- **The status.** It is that of the command, or 1 if none is run. -/
theorem sdiolMain_status {env : MainEnv C} {prog : Arg} {argv : List Arg}
    (hhelp : parseOpts prog argv ≠ .error .help) :
    (∃ c runopts, .command c runopts ∈ (sdiolMain env prog argv).1 ∧
      (sdiolMain env prog argv).2 = (env.run c runopts).status) ∨
    (∀ c runopts, .command c runopts ∉ (sdiolMain env prog argv).1) ∧
      (sdiolMain env prog argv).2 = 1 := by
  have hnotBuilt : ∀ {opts built runopts} c runopts', runoptsBuild env opts = (built, runopts) →
      .command c runopts' ∉ built := by
    intro opts built runopts c runopts' hbuilt
    have hnone := @not_command_runoptsBuild C c runopts' env opts
    rwa [hbuilt] at hnone
  have hrun := sdiolMain_run env prog argv
  generalize sdiolMain env prog argv = r at hrun ⊢
  cases hrun with
  | noMemory | invalidOption => simp
  | help hparsed => exact absurd hparsed hhelp
  | notBuilt _ hbuilt => simp [hnotBuilt _ _ hbuilt]
  | @dispatched parsed _ ran runopts ended _ hbuilt hran =>
    have hcommand : ∀ c runopts', .command c runopts' ∈ ran ↔
        interpretArgs env.lockMalloc parsed.args = .run c ∧ runopts' = runopts := by
      intro c runopts'
      rw [← runDispatch_command, hran]
    rcases runDispatch_end env runopts (interpretArgs env.lockMalloc parsed.args) with
      ⟨c, hc, hend⟩ | ⟨hno, hend⟩
    all_goals rw [hran] at hend; subst hend
    · exact .inl ⟨c, runopts, by simp [hcommand, hc], rfl⟩
    · have hfreed : ∀ (c : Command) (runopts' : RunOpts C) (ended : CommandEnd),
          .command c runopts' ∉ ended.followed (runoptsFree runopts ++ [.free .names]) :=
        fun _ _ => not_command_followed (by simp [not_command_runoptsFree])
      exact .inr ⟨by simp [hnotBuilt _ _ hbuilt, hfreed, hcommand, hno], rfl⟩

/-- **The command line.** On a command line of documented options and positional arguments,
    `main` runs a command exactly if the positional arguments are those of its usage line; the
    command gets the options in their documented meaning, where `--chmod-socket` has none and
    `--chown-socket` only has one for `USER:GROUP`, and the process ends with its status, or with
    1 if no command was run. -/
theorem main_runs_iff (env : MainEnv C) (prog : Arg) (parts : List Part)
    (after : Option (List Arg)) :
    (∀ c runopts, .command c runopts ∈ (sdiolMain env prog (commandLine parts after)).1 ↔
      (∃ t, namesInit env.names = .ok t) ∧ (∀ x ∈ optionsOf parts, x.1 ≠ .chmodSocket) ∧
        Means env (lastOpts (optionsOf parts)) runopts ∧ Usage (positionalsOf parts after) c ∧
        (c.locks = true → env.lockMalloc = true)) ∧
    ((∃ c runopts, .command c runopts ∈ (sdiolMain env prog (commandLine parts after)).1 ∧
        (sdiolMain env prog (commandLine parts after)).2 = (env.run c runopts).status) ∨
      (∀ c runopts, .command c runopts ∉ (sdiolMain env prog (commandLine parts after)).1) ∧
        (sdiolMain env prog (commandLine parts after)).2 = 1) := by
  have hparse := parseOpts_commandLine prog parts after
  by_cases hchmod : ∃ x ∈ optionsOf parts, x.1 = .chmodSocket
  · rw [if_pos hchmod] at hparse
    refine ⟨fun c runopts => ⟨fun h => ?_, fun h => ?_⟩, sdiolMain_status (by simp [hparse])⟩
    · exact absurd h (sdiolMain_not_parsed hparse c runopts)
    · obtain ⟨x, hx, hxc⟩ := hchmod
      exact absurd hxc (h.2.1 x hx)
  · rw [if_neg hchmod] at hparse
    have hall : ∀ x ∈ optionsOf parts, x.1 ≠ .chmodSocket := fun x hx hxc => hchmod ⟨x, hx, hxc⟩
    refine ⟨fun c runopts => ?_, sdiolMain_status (by simp [hparse])⟩
    rw [sdiolMain_command hparse, and_iff_right hall]

/-! ### Memory -/

/-- What is allocated after something happens; `none` if something is allocated twice, freed when
    it is not allocated, or not allocated when a command is called that uses it. -/
def liveStep (live : List Resource) : MainEffect C → Option (List Resource)
  | .alloc r => if r ∈ live then none else some (r :: live)
  | .free r => if r ∈ live then some (live.erase r) else none
  | .command c runopts =>
    if .names ∈ live ∧ (runopts.config.isSome → .config ∈ live) ∧
        (runopts.user.isSome → .user ∈ live) ∧ (runopts.group.isSome → .group ∈ live) ∧
        (c.locks → .lock ∈ live) then some live
    else none
  | _ => some live

/-- What is allocated after all of it. -/
def tracked (effects : List (MainEffect C)) (live : List Resource) : Option (List Resource) :=
  effects.foldlM liveStep live

/-- What was allocated, in order. -/
def allocated (effects : List (MainEffect C)) : List Resource :=
  effects.filterMap fun
    | .alloc r => some r
    | _ => none

/-- What was freed, in order. -/
def freed (effects : List (MainEffect C)) : List Resource :=
  effects.filterMap fun
    | .free r => some r
    | _ => none

@[simp] theorem allocated_append (l₁ l₂ : List (MainEffect C)) :
    allocated (l₁ ++ l₂) = allocated l₁ ++ allocated l₂ := List.filterMap_append

theorem tracked_append {l₁ l₂ : List (MainEffect C)} {live live' : List Resource}
    (h : tracked l₁ live = some live') : tracked (l₁ ++ l₂) live = tracked l₂ live' := by
  unfold tracked at h ⊢
  rw [List.foldlM_append, h]
  rfl

/-- What one effect does. -/
theorem liveStep_cases {e : MainEffect C} {live live' : List Resource}
    (h : liveStep live e = some live') :
    (∃ r, e = .alloc r ∧ live' = r :: live) ∨
      (∃ r, e = .free r ∧ r ∈ live ∧ live' = live.erase r) ∨
      (∀ r, e ≠ .alloc r ∧ e ≠ .free r) ∧ live' = live := by
  cases e with
  | alloc r =>
    have h : (if r ∈ live then none else some (r :: live)) = some live' := h
    split at h
    · exact absurd h (by simp)
    · exact .inl ⟨r, rfl, (Option.some.inj h).symm⟩
  | free r =>
    have h : (if r ∈ live then some (live.erase r) else none) = some live' := h
    split at h
    · rename_i hr
      exact .inr (.inl ⟨r, rfl, hr, (Option.some.inj h).symm⟩)
    · exact absurd h (by simp)
  | command c runopts =>
    simp only [liveStep] at h
    split at h
    · exact .inr (.inr ⟨by simp, (Option.some.inj h).symm⟩)
    · exact absurd h (by simp)
  | _ => exact .inr (.inr ⟨by simp, (Option.some.inj h).symm⟩)

/-- What was allocated was freed or is still there. -/
theorem tracked_perm {effects : List (MainEffect C)} {live live' : List Resource}
    (h : tracked effects live = some live') :
    (allocated effects ++ live).Perm (freed effects ++ live') := by
  induction effects generalizing live with
  | nil =>
    cases h
    exact List.Perm.refl _
  | cons e effects ih =>
    obtain ⟨live₁, hstep, hrest⟩ := Option.bind_eq_some_iff.mp h
    have hperm := ih hrest
    rcases liveStep_cases hstep with ⟨r, rfl, rfl⟩ | ⟨r, rfl, hr, rfl⟩ | ⟨hother, rfl⟩
    · exact List.perm_middle.symm.trans hperm
    · exact ((List.perm_cons_erase hr).append_left _).trans
        (List.perm_middle.trans (hperm.cons r))
    · cases e with
      | alloc r => exact absurd rfl (hother r).1
      | free r => exact absurd rfl (hother r).2
      | _ => exact hperm

/-- What is allocated when the positional arguments are looked at. -/
def RunOpts.owned (runopts : RunOpts C) : List Resource :=
  (if runopts.config.isSome then [.config] else []) ++
    (if runopts.group.isSome then [.group] else []) ++
    (if runopts.user.isSome then [.user] else []) ++ [.names]

/-- What is allocated while a command is run. -/
def Command.uses (c : Command) (runopts : RunOpts C) : List Resource :=
  (if c.locks then [.lock] else []) ++ runopts.owned

/-- A command finds what it uses. -/
theorem liveStep_command (c : Command) (runopts : RunOpts C) :
    liveStep (c.uses runopts) (.command c runopts) = some (c.uses runopts) := by
  have hnames : Resource.names ∈ c.uses runopts := by simp [Command.uses, RunOpts.owned]
  refine if_pos ⟨hnames, ?_, ?_, ?_, ?_⟩
  all_goals
    intro h
    simp [Command.uses, RunOpts.owned, h]

/-- The path of the lock file is freed, unless the command ends the process. -/
theorem runDispatch_tracked (env : MainEnv C) (runopts : RunOpts C) (d : Dispatch) :
    (∃ ret, (runDispatch env runopts d).2 = .returned ret ∧
      tracked (runDispatch env runopts d).1 runopts.owned = some runopts.owned) ∨
    ∃ c status, .command c runopts ∈ (runDispatch env runopts d).1 ∧
      env.run c runopts = .exited status ∧ (runDispatch env runopts d).2 = .exited status ∧
      tracked (runDispatch env runopts d).1 runopts.owned = some (c.uses runopts) := by
  have hlock : Resource.lock ∉ runopts.owned := by
    unfold RunOpts.owned
    split_ifs <;> simp
  cases d with
  | run c =>
    have hcommand := liveStep_command c runopts
    cases c with
    | mainServeUnix socket lock =>
      have halloc : liveStep runopts.owned (.alloc (C := C) .lock)
          = some (Command.uses (.mainServeUnix socket lock) runopts) := if_neg hlock
      cases hend : env.run (.mainServeUnix socket lock) runopts with
      | returned ret =>
        refine .inl ⟨ret, hend, ?_⟩
        simp only [runDispatch, hend, CommandEnd.followed, List.cons_append, List.nil_append,
          tracked, List.foldlM_cons, List.foldlM_nil, halloc, hcommand, Option.bind_eq_bind,
          Option.bind_some]
        simp [liveStep, Command.uses, Command.locks]
      | exited status =>
        refine .inr ⟨_, status, by simp [runDispatch], hend, hend, ?_⟩
        simp only [runDispatch, hend, CommandEnd.followed, List.append_nil, tracked,
          List.foldlM_cons, List.foldlM_nil, halloc, hcommand, Option.bind_eq_bind,
          Option.bind_some]
        rfl
    | _ =>
      cases hend : env.run _ runopts with
      | returned ret =>
        refine .inl ⟨ret, hend, ?_⟩
        simp only [runDispatch, tracked, List.foldlM_cons, List.foldlM_nil]
        exact congrArg (· >>= some) hcommand
      | exited status =>
        refine .inr ⟨_, status, by simp [runDispatch], hend, hend, ?_⟩
        simp only [runDispatch, tracked, List.foldlM_cons, List.foldlM_nil]
        exact congrArg (· >>= some) hcommand
  | _ => exact .inl ⟨1, rfl, by simp [runDispatch, tracked, liveStep]⟩

/-- `split_user_group` frees what it does not return. -/
theorem splitEffects_tracked (mallocs : Bool × Bool) (userGroup : Option Arg) :
    tracked (splitEffects (C := C) mallocs userGroup) [.names] =
      some (match splitUserGroup mallocs userGroup with
        | .ok (some _, some _) => [.group, .user, .names]
        | _ => [.names]) := by
  cases userGroup with
  | none => rfl
  | some userGroup =>
    obtain ⟨m, n⟩ := mallocs
    cases hfound : findColon 0 none userGroup with
    | none =>
      simp only [splitEffects, splitUserGroup, hfound]
      rfl
    | some found =>
      cases found with
      | none =>
        simp only [splitEffects, splitUserGroup, hfound]
        rfl
      | some i =>
        simp only [splitEffects, splitUserGroup, hfound]
        cases m <;> cases n <;> rfl

/-- Both strings are there, or none. -/
theorem splitUserGroup_both {mallocs : Bool × Bool} {userGroup user group : Option Arg}
    (h : splitUserGroup mallocs userGroup = .ok (user, group)) :
    user = none ∧ group = none ∨ ∃ u g, user = some u ∧ group = some g := by
  cases userGroup with
  | none =>
    cases h
    exact .inl ⟨rfl, rfl⟩
  | some userGroup =>
    obtain ⟨-, u, g, -, rfl, rfl⟩ := splitUserGroup_iff.mp h
    exact .inr ⟨u, g, rfl, rfl⟩

theorem runoptsBuild_tracked (env : MainEnv C) (opts : Opts) :
    tracked (runoptsBuild env opts).1 [.names] =
      some (((runoptsBuild env opts).2.map RunOpts.owned).getD [.names]) := by
  have hsplit := @splitEffects_tracked C env.mallocs opts.userGroup
  unfold runoptsBuild
  cases hok : splitUserGroup env.mallocs opts.userGroup with
  | error text =>
    rw [hok] at hsplit
    exact hsplit
  | ok x =>
    obtain ⟨user, group⟩ := x
    rw [hok] at hsplit
    rcases splitUserGroup_both hok with ⟨rfl, rfl⟩ | ⟨u, g, rfl, rfl⟩
    · cases opts.config with
      | none => exact hsplit
      | some path =>
        cases hnew : env.configNew path with
        | none =>
          simp only [hnew]
          rw [List.append_assoc, tracked_append hsplit]
          rfl
        | some config =>
          simp only [hnew]
          rw [tracked_append hsplit]
          rfl
    · cases opts.config with
      | none => exact hsplit
      | some path =>
        cases hnew : env.configNew path with
        | none =>
          simp only [hnew]
          rw [List.append_assoc, tracked_append hsplit]
          rfl
        | some config =>
          simp only [hnew]
          rw [tracked_append hsplit]
          rfl

theorem runoptsFree_tracked (runopts : RunOpts C) :
    tracked (runoptsFree runopts) runopts.owned = some [.names] := by
  unfold runoptsFree RunOpts.owned freeString
  cases runopts.config.isSome <;> cases runopts.user.isSome <;> cases runopts.group.isSome <;>
    simp [tracked, liveStep]

/-! Each of these things is allocated at one place. -/

theorem allocated_freeString (r : Resource) (s : Option Arg) :
    allocated (freeString (C := C) r s) = [] := by
  unfold freeString
  split <;> rfl

theorem splitEffects_allocated (mallocs : Bool × Bool) (userGroup : Option Arg) :
    (allocated (splitEffects (C := C) mallocs userGroup)).Sublist [.user, .group] := by
  unfold splitEffects
  split
  · exact List.nil_sublist _
  · split
    · split_ifs
      · exact List.nil_sublist _
      · exact (List.nil_sublist _).cons_cons _
      · exact List.Sublist.refl _
    · exact List.nil_sublist _

theorem runoptsBuild_allocated (env : MainEnv C) (opts : Opts) :
    (allocated (runoptsBuild env opts).1).Sublist [.user, .group, .config] := by
  have hsplit := @splitEffects_allocated C env.mallocs opts.userGroup
  have hmore : [Resource.user, .group].Sublist [.user, .group, .config] := by decide
  unfold runoptsBuild
  cases splitUserGroup env.mallocs opts.userGroup with
  | error text => exact hsplit.trans hmore
  | ok x =>
    cases opts.config with
    | none => exact hsplit.trans hmore
    | some path =>
      cases hnew : env.configNew path with
      | none =>
        simp only [hnew, allocated_append, allocated_freeString, List.append_nil]
        exact hsplit.trans hmore
      | some config =>
        have hconfig : allocated [MainEffect.alloc (C := C) .config] = [.config] := rfl
        simp only [hnew, allocated_append, hconfig]
        exact hsplit.append (List.Sublist.refl [Resource.config])

theorem runDispatch_allocated (env : MainEnv C) (runopts : RunOpts C) (d : Dispatch) :
    (allocated (runDispatch env runopts d).1).Sublist [.lock] := by
  cases d with
  | run c =>
    cases c with
    | mainServeUnix socket lock =>
      cases hend : env.run (.mainServeUnix socket lock) runopts <;>
        simp [runDispatch, hend, CommandEnd.followed, allocated]
    | _ => exact List.nil_sublist _
  | _ => exact List.nil_sublist _

theorem allocated_release (runopts : RunOpts C) (ended : CommandEnd) :
    allocated (ended.followed (runoptsFree runopts ++ [.free .names])) = [] := by
  have hnames : allocated [MainEffect.free (C := C) .names] = [] := rfl
  have hconfig : allocated
      (if runopts.config.isSome then [MainEffect.free (C := C) .config] else []) = [] := by
    split <;> rfl
  cases ended with
  | returned ret =>
    show allocated (_ ++ _ ++ _ ++ _) = []
    simp only [allocated_append, allocated_freeString, hconfig, hnames, List.append_nil]
  | exited status => rfl

/-- Nothing is allocated twice. -/
theorem sdiolMain_allocated (env : MainEnv C) (prog : Arg) (argv : List Arg) :
    (allocated (sdiolMain env prog argv).1).Nodup := by
  have hall : [Resource.names, .user, .group, .config, .lock].Nodup := by decide
  have hnames : [Resource.names].Nodup := by decide
  have hstart : allocated [MainEffect.alloc (C := C) .names] = [.names] := rfl
  have hlast : allocated [MainEffect.free (C := C) .names] = [] := rfl
  have hsignals : allocated [MainEffect.signals (C := C)] = [] := rfl
  have hrun := sdiolMain_run env prog argv
  generalize sdiolMain env prog argv = r at hrun ⊢
  cases hrun with
  | noMemory => exact List.nodup_nil
  | help | invalidOption => exact hnames
  | @notBuilt parsed _ _ hbuilt =>
    have hsub := runoptsBuild_allocated env parsed.opts
    rw [hbuilt] at hsub
    refine hall.sublist ?_
    simp only [allocated_append, hstart, hlast]
    exact (List.Sublist.refl [Resource.names]).append (hsub.append (List.nil_sublist _))
  | @dispatched parsed _ _ runopts _ _ hbuilt hran =>
    have hsub := runoptsBuild_allocated env parsed.opts
    have hsub' := runDispatch_allocated env runopts (interpretArgs env.lockMalloc parsed.args)
    rw [hbuilt] at hsub
    rw [hran] at hsub'
    refine hall.sublist ?_
    simp only [allocated_append, allocated_release, hstart, hsignals, List.append_nil]
    exact ((List.Sublist.refl [Resource.names]).append hsub).append hsub'

/-- What there is when the process ends. -/
theorem sdiolMain_tracked (env : MainEnv C) (prog : Arg) (argv : List Arg) :
    ∃ live, tracked (sdiolMain env prog argv).1 [] = some live ∧
      (live = [] ∨ parseOpts prog argv = .error .help ∧ live = [.names] ∨
        ∃ c runopts status, .command c runopts ∈ (sdiolMain env prog argv).1 ∧
          env.run c runopts = .exited status ∧ live = c.uses runopts) := by
  have hstart : tracked [.alloc (C := C) .names] [] = some [.names] := rfl
  have hrun := sdiolMain_run env prog argv
  generalize sdiolMain env prog argv = r at hrun ⊢
  cases hrun with
  | noMemory => exact ⟨[], rfl, .inl rfl⟩
  | help hparsed => exact ⟨[.names], by simp [tracked, liveStep], .inr (.inl ⟨hparsed, rfl⟩)⟩
  | invalidOption => exact ⟨[], by simp [tracked, liveStep], .inl rfl⟩
  | @notBuilt parsed _ _ hbuilt =>
    have hbuiltLive := runoptsBuild_tracked env parsed.opts
    rw [hbuilt] at hbuiltLive
    refine ⟨[], ?_, .inl rfl⟩
    rw [List.append_assoc, tracked_append hstart, tracked_append hbuiltLive]
    rfl
  | @dispatched parsed _ _ runopts _ _ hbuilt hran =>
    have hbuiltLive := runoptsBuild_tracked env parsed.opts
    have hranLive := runDispatch_tracked env runopts (interpretArgs env.lockMalloc parsed.args)
    have hfreed := runoptsFree_tracked runopts
    have hsignals : tracked [.signals (C := C)] runopts.owned = some runopts.owned := rfl
    rw [hbuilt] at hbuiltLive
    rw [hran] at hranLive
    simp only [List.append_assoc]
    rw [tracked_append hstart, tracked_append hbuiltLive, Option.map_some, Option.getD_some,
      tracked_append hsignals]
    rcases hranLive with ⟨ret, hend, hlive⟩ | ⟨c, status, hcommand, hexit, hend, hlive⟩
    · simp only at hend
      subst hend
      refine ⟨[], ?_, .inl rfl⟩
      rw [tracked_append hlive]
      show tracked (runoptsFree runopts ++ [.free .names]) runopts.owned = some []
      rw [tracked_append hfreed]
      rfl
    -- nothing is freed any more
    · simp only at hend
      subst hend
      refine ⟨c.uses runopts, ?_, .inr (.inr ⟨c, runopts, status, ?_, hexit, rfl⟩)⟩
      · rw [tracked_append hlive]
        rfl
      · simp [hcommand]

/-- **Memory.** Whatever the command line is and whichever allocations fail, everything is
    allocated at most once and freed at most once, after that, and not before a command returns
    that uses it.  What is allocated is freed, but that `--help` leaves the name tables to `exit`,
    and a command that calls `exit` everything. -/
theorem main_frees (env : MainEnv C) (prog : Arg) (argv : List Arg) :
    (allocated (sdiolMain env prog argv).1).Nodup ∧ (freed (sdiolMain env prog argv).1).Nodup ∧
    ∃ live, tracked (sdiolMain env prog argv).1 [] = some live ∧
      (allocated (sdiolMain env prog argv).1).Perm (freed (sdiolMain env prog argv).1 ++ live) ∧
      (live = [] ∨ parseOpts prog argv = .error .help ∧ live = [.names] ∨
        ∃ c runopts status, .command c runopts ∈ (sdiolMain env prog argv).1 ∧
          env.run c runopts = .exited status ∧ live = c.uses runopts) := by
  have hnodup := sdiolMain_allocated env prog argv
  obtain ⟨live, htracked, hends⟩ := sdiolMain_tracked env prog argv
  have hperm := tracked_perm htracked
  rw [List.append_nil] at hperm
  exact ⟨hnodup, (hperm.nodup_iff.mp hnodup).of_append_left, live, htracked, hperm, hends⟩

/-! ### Who can connect -/

theorem Perms.result_after (calls : List FileCall) (p : Perms) (a : FileAttrs) :
    (Perms.after calls p).result a = p.result (calls.foldl FileAttrs.apply a) := by
  induction calls generalizing a with
  | nil => rfl
  | cons c calls ih => exact ih (a.apply c)

/-- Without a mode, the file is for its owner. -/
theorem requested_default {getpwnam getgrnam : Arg → NameLookup} {mallocs : Bool × Bool}
    {userGroup user group : Option Arg} {created a : FileAttrs}
    (hsplit : splitUserGroup mallocs userGroup = .ok (user, group))
    (h : ServeProc.requested getpwnam getgrnam ⟨user, group, none, created⟩ = some a) :
    ∃ owner, Owner getpwnam getgrnam userGroup owner ∧
      a = (owner.foldl FileAttrs.apply created).apply (.chmod 0o600) := by
  have hmode : Numeral 8 defaultMode (0o600 : UInt32).toNat :=
    modeFromString_iff.mp (by decide +kernel)
  by_cases howner : ∃ owner, Owner getpwnam getgrnam userGroup owner
  · obtain ⟨owner, howner⟩ := howner
    refine ⟨owner, howner, ?_⟩
    have hperms : ServeProc.perms getpwnam getgrnam ⟨user, group, none, created⟩ =
        Perms.after owner (Perms.after [.chmod 0o600] .ok) := by
      rw [← setFileMode_ok hmode]
      exact setFilePerms_owner howner hsplit
    unfold ServeProc.requested at h
    rw [hperms, Perms.result_after, Perms.result_after] at h
    exact (Option.some.inj h).symm
  · obtain ⟨text, hperms⟩ : ∃ text,
        ServeProc.perms getpwnam getgrnam ⟨user, group, none, created⟩ = .fail text :=
      setFilePerms_fail howner hsplit
    unfold ServeProc.requested at h
    rw [hperms] at h
    exact absurd h (by simp)

/-- Root and the owner may connect. -/
theorem mayConnect_default {c : Client} {a : FileAttrs}
    (h : mayConnect c (a.apply (.chmod 0o600)) = true) : c.uid = 0 ∨ c.uid = a.uid := by
  by_cases hroot : c.uid = 0
  · exact .inl hroot
  · right
    by_contra hother
    have hbits : ((0o600 : UInt32) &&& 0o7777 &&& 0o020 != 0) = false ∧
        ((0o600 : UInt32) &&& 0o7777 &&& 0o002 != 0) = false := by decide
    simp only [mayConnect, FileAttrs.apply, if_neg hother, beq_false_of_ne hroot, hbits.1, hbits.2]
      at h
    split_ifs at h <;> exact absurd h (by decide)

/-- **A private socket.** Whatever the command lines are with which any number of servers are
    started for one socket, and however their calls are interleaved, fail or are cut short: every
    client that ever connects to one of them is root or the user that owns its socket, who is the
    user of the process or the one named by its `--chown-socket`. -/
theorem socket_private {P : Type} [DecidableEq P] (getpwnam getgrnam : Arg → NameLookup)
    (sock prog : Arg) (env : P → MainEnv C) (argv : P → List Arg) (created : P → FileAttrs)
    (procs : P → ServeProc)
    (hmain : ∀ p, ∃ lock runopts,
      .command (.mainServeUnix sock lock) runopts ∈ (sdiolMain (env p) prog (argv p)).1 ∧
        procs p = ⟨runopts.user, runopts.group, runopts.mode, created p⟩)
    (events : List (LockEvent P)) {w w' : Kernel P} {log : List (Client × P)} (hfresh : w.Fresh)
    (hrun : runLock getpwnam getgrnam sock procs events w = .ok (w', log)) :
    ∀ x ∈ log, ∃ parsed owner, parseOpts prog (argv x.2) = .ok parsed ∧
      Owner getpwnam getgrnam parsed.opts.userGroup owner ∧
      (x.1.uid = 0 ∨ x.1.uid = (owner.foldl FileAttrs.apply (created x.2)).uid) := by
  intro x hx
  obtain ⟨a, hrequested, hmay⟩ := runLock_connected hfresh.safe hrun x hx
  obtain ⟨lock, runopts, hcommand, hproc⟩ := hmain x.2
  cases hparsed : parseOpts prog (argv x.2) with
  | error e => exact absurd hcommand (sdiolMain_not_parsed hparsed _ _)
  | ok parsed =>
    obtain ⟨-, ⟨user, group, path, config, hsplit, -, -, rfl⟩, -⟩ :=
      (sdiolMain_command hparsed).mp hcommand
    rw [hproc, (parseOpts_inv hparsed).1] at hrequested
    obtain ⟨owner, howner, rfl⟩ := requested_default hsplit hrequested
    exact ⟨parsed, owner, rfl, howner, mayConnect_default hmay⟩

end Main

/-- `sdiol serve s`, where every allocation succeeds. -/
def plainEnv : MainEnv Unit :=
  ⟨.ok, (true, true), true, fun _ => some (), fun _ _ => .returned 0⟩

def plainArgv : List Arg := [bytes "serve", [115]]

theorem plainArgv_serves : .command (.mainServeUnix [115] ([115] ++ bytes ".lock"))
    ⟨some (), false, false, 0, none, none, none⟩ ∈
      (sdiolMain plainEnv (bytes "sdiol") plainArgv).1 := by
  have hparsed : parseOpts (bytes "sdiol") plainArgv = .ok ⟨2, plainArgv, defaultOpts⟩ := by
    decide +kernel
  have hmeans : Means plainEnv defaultOpts ⟨some (), false, false, 0, none, none, none⟩ :=
    ⟨none, none, _, (), rfl, rfl, rfl, rfl⟩
  exact (sdiolMain_command hparsed).mpr
    ⟨namesInit_ok, hmeans, .mainServeUnix [115], fun _ => rfl⟩

/-- Two servers started so by two users. -/
theorem socket_private_two : ∃ w log,
    runLock noNames noNames [115] plainProcs (firstStarts ++ secondFails) unusedPath
        = .ok (w, log) ∧
      (⟨0, []⟩, 0) ∈ log ∧ ∀ x ∈ log, ∃ parsed owner,
        parseOpts (bytes "sdiol") plainArgv = .ok parsed ∧
        Owner noNames noNames parsed.opts.userGroup owner ∧
        (x.1.uid = 0 ∨ x.1.uid = (owner.foldl FileAttrs.apply (plainProcs x.2).created).uid) := by
  obtain ⟨w, log, w', log', hfirst, hsecond, -, -, rfl⟩ := firstStarts_run
  have hrun := Steps.run_append_ok.mpr ⟨w, log, _, hfirst, hsecond, rfl⟩
  refine ⟨w', _, hrun, by simp, ?_⟩
  exact socket_private noNames noNames [115] (bytes "sdiol") (fun _ => plainEnv)
    (fun _ => plainArgv) (fun p => (plainProcs p).created) plainProcs
    (fun _ => ⟨_, _, plainArgv_serves, rfl⟩) _ unusedPath_fresh hrun

end Sdiol
