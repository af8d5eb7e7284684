import Sdiol.Lib.Getopt

namespace Sdiol

open Getopt

/-!
# The command line

`parse_opts` reads the options that `print_help` lists.  The help text, the table `longopts`
and the `switch` name the same options a second and a third time, and the `switch` has `'m'`
where the table has `'p'`: so `--chmod-socket` is found by `getopt_long` and rejected by
`parse_opts`.

`HelpOption` are the options of the help text that set something, `Part` the ways in which
they and the positional arguments stand on a command line, and `lastOpts` the meaning of a list
of options: for each of them the last one counts.  `Part.item` reads a part as `getopt_long`
does, `parseOpt_val` is what the `switch` does about it, and `parse_opts_iff` says on which
command lines the options get their meaning.
-/

/-- The bytes of a string. -/
def bytes (s : String) : Arg := s.toUTF8.toList

/-- A character as an `int`. -/
def ch (c : Char) : Int := c.toNat

/-! ### `parse_opts` -/

/-- `opts_t`, with `none` for `NULL`. -/
structure Opts where
  config : Option Arg
  systemd : Bool
  verbose : Bool
  timeout : Option Arg
  userGroup : Option Arg
  mode : Option Arg
deriving DecidableEq

/-- `optstring` -/
def optstring : Arg := bytes "hc:v"

/-- `longopts` -/
def longopts : List LongOption :=
  [⟨bytes "help", .noArgument, ch 'h'⟩,
    ⟨bytes "config", .requiredArgument, ch 'c'⟩,
    ⟨bytes "verbose", .noArgument, ch 'v'⟩,
    ⟨bytes "timeout", .requiredArgument, ch 't'⟩,
    ⟨bytes "systemd", .noArgument, ch 'd'⟩,
    ⟨bytes "chown-socket", .requiredArgument, ch 'o'⟩,
    ⟨bytes "chmod-socket", .requiredArgument, ch 'p'⟩]

/-- The default options. -/
def defaultOpts : Opts := ⟨some (bytes "/etc/sdiol/conf.lua"), false, false, none, none, none⟩

/-- Why `parse_opts` does not return 0. -/
inductive ParseStop where
  /-- `print_help(stdout)`, and `exit(0)` -/
  | help
  /-- "invalid option during parsing", and -1 is returned -/
  | invalidOption
deriving DecidableEq

/-- The `switch` of `parse_opts`. -/
def parseOpt (opt : Int) (optarg : Option Arg) (opts : Opts) : Except ParseStop Opts :=
  if opt = ch 'h' then .error .help
  else if opt = ch 'c' then .ok { opts with config := optarg }
  else if opt = ch 'v' then .ok { opts with verbose := true }
  else if opt = ch 't' then .ok { opts with timeout := optarg }
  else if opt = ch 'd' then .ok { opts with systemd := true }
  else if opt = ch 'o' then .ok { opts with userGroup := optarg }
  else if opt = ch 'm' then .ok { opts with mode := optarg }
  else .error .invalidOption

/-- What `parse_opts` writes when it returns 0: `args` are the elements of `argv` from `optind`
    on. -/
structure Parsed where
  nargs : Nat
  args : List Arg
  opts : Opts
deriving DecidableEq

/-- `parse_opts`, where `argv[0]` is `prog`. -/
def parseOpts (prog : Arg) (argv : List Arg) : Except ParseStop Parsed := do
  let start : Scan := ⟨[], [], [], argv⟩
  let (s, opts) ← each optstring longopts parseOpt (start.size + 1) start defaultOpts
  let argc := 1 + argv.length
  let optind := 1 + s.scanned.length
  .ok ⟨argc - optind, (prog :: s.argv).drop optind, opts⟩

/-! ### The help text -/

/-- The options of the help text that set something. -/
inductive HelpOption where
  | config
  | verbose
  | timeout
  | systemd
  | chownSocket
  | chmodSocket
deriving DecidableEq

/-- Their long names. -/
def HelpOption.name : HelpOption → Arg
  | .config => bytes "config"
  | .verbose => bytes "verbose"
  | .timeout => bytes "timeout"
  | .systemd => bytes "systemd"
  | .chownSocket => bytes "chown-socket"
  | .chmodSocket => bytes "chmod-socket"

/-- Whether an argument is documented: `FILE`, `N`, `USER:GROUP`, `MODE`. -/
def HelpOption.takesArg : HelpOption → Bool
  | .config | .timeout | .chownSocket | .chmodSocket => true
  | .verbose | .systemd => false

/-- A part of a command line. -/
inductive Part where
  /-- `--verbose`, `--systemd` -/
  | flag (o : HelpOption) (h : o.takesArg = false)
  /-- `--config=FILE`, … -/
  | attached (o : HelpOption) (h : o.takesArg = true) (arg : Arg)
  /-- `--config FILE`, … -/
  | separate (o : HelpOption) (h : o.takesArg = true) (arg : Arg)
  /-- `-v`, and `v` times more in the same element -/
  | letters (v : Nat)
  /-- `-cFILE`, with `v` letters `v` in front of the `c` -/
  | lettersAttached (v : Nat) (file : Arg) (h : file ≠ [])
  /-- `-c FILE`, with `v` letters `v` in front of the `c` -/
  | lettersSeparate (v : Nat) (file : Arg)
  | positional (a : Arg) (h : IsOperand a)

def letterV : UInt8 := 118

def letterC : UInt8 := 99

/-- The elements of `argv`. -/
def Part.words : Part → List Arg
  | .flag o _ => [dash :: dash :: o.name]
  | .attached o _ arg => [dash :: dash :: (o.name ++ equals :: arg)]
  | .separate o _ arg => [dash :: dash :: o.name, arg]
  | .letters v => [dash :: List.replicate (v + 1) letterV]
  | .lettersAttached v file _ => [dash :: (List.replicate v letterV ++ letterC :: file)]
  | .lettersSeparate v file => [dash :: (List.replicate v letterV ++ [letterC]), file]
  | .positional a _ => [a]

/-- The options that the part consists of, with their arguments. -/
def Part.options : Part → List (HelpOption × Option Arg)
  | .flag o _ => [(o, none)]
  | .attached o _ arg => [(o, some arg)]
  | .separate o _ arg => [(o, some arg)]
  | .letters v => List.replicate (v + 1) (.verbose, none)
  | .lettersAttached v file _ => List.replicate v (.verbose, none) ++ [(.config, some file)]
  | .lettersSeparate v file => List.replicate v (.verbose, none) ++ [(.config, some file)]
  | .positional _ _ => []

def Part.positionals : Part → List Arg
  | .positional a _ => [a]
  | _ => []

/-- The elements of `argv` behind the first one: parts, and behind a `--` anything. -/
def commandLine (parts : List Part) (after : Option (List Arg)) : List Arg :=
  parts.flatMap Part.words ++ tailWords after

/-- All its options in their order. -/
def optionsOf (parts : List Part) : List (HelpOption × Option Arg) := parts.flatMap Part.options

/-- All its positional arguments in their order. -/
def positionalsOf (parts : List Part) (after : Option (List Arg)) : List Arg :=
  parts.flatMap Part.positionals ++ after.getD []

/-- The argument of the last occurrence of `o`. -/
def lastArg (o : HelpOption) (default : Option Arg) (os : List (HelpOption × Option Arg)) :
    Option Arg :=
  ((os.reverse.find? fun x => x.1 = o).map Prod.snd).getD default

/-- What a list of options means. -/
def lastOpts (os : List (HelpOption × Option Arg)) : Opts where
  config := lastArg .config defaultOpts.config os
  systemd := os.any fun x => x.1 = .systemd
  verbose := os.any fun x => x.1 = .verbose
  timeout := lastArg .timeout defaultOpts.timeout os
  userGroup := lastArg .chownSocket defaultOpts.userGroup os
  mode := lastArg .chmodSocket defaultOpts.mode os

/-- `parse_opts` returns 0, each option has its documented meaning, and the positional arguments
    are returned in their order. -/
def OptsHonoured (prog : Arg) (parts : List Part) (after : Option (List Arg)) : Prop :=
  parseOpts prog (commandLine parts after) =
    .ok ⟨(positionalsOf parts after).length, positionalsOf parts after, lastOpts (optionsOf parts)⟩

/-! ### Any command line -/

theorem longopts_val : ∀ o ∈ longopts, o.val > -1 := by decide +kernel

/-- **No element is lost.** Whatever the command line is, `parse_opts` answers, and if it
    returns 0, the elements that it did not use are returned. -/
theorem parseOpts_perm {prog : Arg} {argv : List Arg} {p : Parsed}
    (h : parseOpts prog argv = .ok p) :
    p.nargs = p.args.length ∧ ∃ used, (used ++ p.args).Perm argv := by
  unfold parseOpts at h
  cases hrun : each optstring longopts parseOpt
      (Scan.size ⟨[], [], [], argv⟩ + 1) ⟨[], [], [], argv⟩ defaultOpts with
  | error e =>
    simp only [hrun, bind, Except.bind] at h
    exact absurd h (by simp)
  | ok x =>
    obtain ⟨s, opts⟩ := x
    simp only [hrun, bind, Except.bind] at h
    cases h
    obtain ⟨hperm, _, hrest⟩ := each_exhausts longopts_val (Nat.lt_succ_self _) hrun
    have hargs : (prog :: s.argv).drop (1 + s.scanned.length) = s.skipped := by
      rw [Nat.add_comm, List.drop_succ_cons, Scan.argv, hrest, List.append_nil, List.drop_left]
    have hargv : s.argv = s.scanned ++ s.skipped := by
      rw [Scan.argv, hrest, List.append_nil]
    have hstart : Scan.argv ⟨[], [], [], argv⟩ = argv := rfl
    rw [hstart, hargv] at hperm
    have hlen := hperm.length_eq
    rw [List.length_append] at hlen
    refine ⟨?_, s.scanned, ?_⟩
    · show 1 + argv.length - (1 + s.scanned.length) =
        ((prog :: s.argv).drop (1 + s.scanned.length)).length
      rw [hargs]
      omega
    · show (s.scanned ++ (prog :: s.argv).drop (1 + s.scanned.length)).Perm argv
      rw [hargs]
      exact hperm

/-! ### The parts as `getopt_long` reads them -/

/-- The `val` in `longopts`. -/
def HelpOption.val : HelpOption → Int
  | .config => ch 'c'
  | .verbose => ch 'v'
  | .timeout => ch 't'
  | .systemd => ch 'd'
  | .chownSocket => ch 'o'
  | .chmodSocket => ch 'p'

/-- The table has every option of the help text. -/
theorem findLong_name (o : HelpOption) : findLong longopts o.name =
    some ⟨o.name, if o.takesArg then .requiredArgument else .noArgument, o.val⟩ := by
  cases o <;> decide +kernel

theorem HelpOption.name_shape (o : HelpOption) : o.name ≠ [] ∧ equals ∉ o.name := by
  cases o <;> decide +kernel

theorem HelpOption.val_pos (o : HelpOption) : o.val > -1 := by
  cases o <;> decide

theorem shortHasArg_letterV : shortHasArg optstring letterV = some .noArgument := by
  decide +kernel

theorem shortHasArg_letterC : shortHasArg optstring letterC = some .requiredArgument := by
  decide +kernel

theorem cluster_letters (v : Nat) {cs : Arg} {ws : List Arg} {os : List (Int × Option Arg)}
    (h : Cluster optstring cs ws os) :
    Cluster optstring (List.replicate v letterV ++ cs) ws
      (List.replicate v (HelpOption.verbose.val, none) ++ os) := by
  induction v with
  | zero => exact h
  | succ v ih =>
    rw [List.replicate_succ, List.replicate_succ]
    exact .flag shortHasArg_letterV ih

/-- **Letters.** An element of short options may begin with letters `v`. -/
theorem spells_cluster (v : Nat) {c : UInt8} {cs : Arg} {ws : List Arg}
    {os : List (Int × Option Arg)} (hc : c ≠ dash) (h : Cluster optstring (c :: cs) ws os) :
    Spells optstring longopts ((dash :: (List.replicate v letterV ++ c :: cs)) :: ws)
      (List.replicate v (HelpOption.verbose.val, none) ++ os) := by
  have hcluster := cluster_letters v h
  cases v with
  | zero => exact .short hc hcluster
  | succ v =>
    -- the first letter is a `v`
    apply Spells.short _ hcluster
    decide

theorem Part.spells_flag {o : HelpOption} (h : o.takesArg = false) :
    Spells optstring longopts [dash :: dash :: o.name] [(o.val, none)] := by
  have hfind := findLong_name o
  rw [h] at hfind
  exact .flag o.name_shape.1 o.name_shape.2 hfind o.val_pos (by simp)

theorem Part.spells_attached {o : HelpOption} (h : o.takesArg = true) (arg : Arg) :
    Spells optstring longopts [dash :: dash :: (o.name ++ equals :: arg)]
      [(o.val, some arg)] := by
  have hfind := findLong_name o
  rw [h] at hfind
  exact .attached o.name_shape.2 hfind o.val_pos (by simp) arg

theorem Part.spells_separate {o : HelpOption} (h : o.takesArg = true) (arg : Arg) :
    Spells optstring longopts [dash :: dash :: o.name, arg] [(o.val, some arg)] := by
  have hfind := findLong_name o
  rw [h] at hfind
  exact .separate o.name_shape.1 o.name_shape.2 hfind o.val_pos (by simp) arg

theorem Part.spells_letters (v : Nat) :
    Spells optstring longopts [dash :: List.replicate (v + 1) letterV]
      (List.replicate (v + 1) (HelpOption.verbose.val, none)) := by
  rw [List.replicate_succ', List.replicate_succ']
  exact spells_cluster v (by decide) (.flag shortHasArg_letterV .nil)

theorem Part.spells_lettersAttached (v : Nat) {file : Arg} (h : file ≠ []) :
    Spells optstring longopts [dash :: (List.replicate v letterV ++ letterC :: file)]
      (List.replicate v (HelpOption.verbose.val, none) ++
        [(HelpOption.config.val, some file)]) :=
  spells_cluster v (by decide) (.attached shortHasArg_letterC h)

theorem Part.spells_lettersSeparate (v : Nat) (file : Arg) :
    Spells optstring longopts [dash :: (List.replicate v letterV ++ [letterC]), file]
      (List.replicate v (HelpOption.verbose.val, none) ++
        [(HelpOption.config.val, some file)]) :=
  spells_cluster v (by decide) (.separate shortHasArg_letterC file)

/-- A part, as `getopt_long` reads it. -/
def Part.item : Part → Item optstring longopts
  | .flag _ h => .options _ _ (spells_flag h)
  | .attached _ h arg => .options _ _ (spells_attached h arg)
  | .separate _ h arg => .options _ _ (spells_separate h arg)
  | .letters v => .options _ _ (spells_letters v)
  | .lettersAttached v _ h => .options _ _ (spells_lettersAttached v h)
  | .lettersSeparate v file => .options _ _ (spells_lettersSeparate v file)
  | .positional a h => .operand a h

/-- What `getopt_long` returns for an option. -/
def returned (x : HelpOption × Option Arg) : Int × Option Arg := (x.1.val, x.2)

theorem map_returned_letters (v : Nat) (os : List (HelpOption × Option Arg)) :
    (List.replicate v (HelpOption.verbose, none) ++ os).map returned =
      List.replicate v (HelpOption.verbose.val, none) ++ os.map returned := by
  rw [List.map_append, List.map_replicate]
  rfl

theorem Part.item_eq (p : Part) : p.item.words = p.words ∧
    p.item.found = p.options.map returned ∧ p.item.operands = p.positionals := by
  cases p with
  | letters v =>
    refine ⟨rfl, ?_, rfl⟩
    have hletters := map_returned_letters (v + 1) []
    rw [List.append_nil, List.map_nil, List.append_nil] at hletters
    exact hletters.symm
  | lettersAttached v file h =>
    exact ⟨rfl, (map_returned_letters v [(.config, some file)]).symm, rfl⟩
  | lettersSeparate v file =>
    exact ⟨rfl, (map_returned_letters v [(.config, some file)]).symm, rfl⟩
  | _ => exact ⟨rfl, rfl, rfl⟩

theorem items_eq (parts : List Part) :
    (parts.map Part.item).flatMap Item.words = parts.flatMap Part.words ∧
      (parts.map Part.item).flatMap Item.found = (optionsOf parts).map returned ∧
      (parts.map Part.item).flatMap Item.operands = parts.flatMap Part.positionals := by
  refine ⟨?_, ?_, ?_⟩
  · rw [List.flatMap_map]
    exact List.flatMap_congr fun p _ => p.item_eq.1
  · rw [List.flatMap_map, optionsOf, List.map_flatMap]
    exact List.flatMap_congr fun p _ => p.item_eq.2.1
  · rw [List.flatMap_map]
    exact List.flatMap_congr fun p _ => p.item_eq.2.2

/-! ### The `switch` -/

/-- What an option sets. -/
def setOpt (opts : Opts) (x : HelpOption × Option Arg) : Opts :=
  match x.1 with
  | .config => { opts with config := x.2 }
  | .verbose => { opts with verbose := true }
  | .timeout => { opts with timeout := x.2 }
  | .systemd => { opts with systemd := true }
  | .chownSocket => { opts with userGroup := x.2 }
  | .chmodSocket => { opts with mode := x.2 }

/-- **The `switch`.** It does for each option what the option sets, except for `--chmod-socket`,
    which it does not know. -/
theorem parseOpt_val (x : HelpOption × Option Arg) (opts : Opts) :
    parseOpt x.1.val x.2 opts =
      if x.1 = .chmodSocket then .error .invalidOption else .ok (setOpt opts x) := by
  obtain ⟨o, arg⟩ := x
  cases o <;> rfl

/-- One after the other. -/
theorem bodies_parseOpt (os : List (HelpOption × Option Arg)) (opts : Opts) :
    bodies parseOpt (os.map returned) opts =
      if ∃ x ∈ os, x.1 = .chmodSocket then .error .invalidOption
      else .ok (os.foldl setOpt opts) := by
  induction os generalizing opts with
  | nil =>
    rw [if_neg (by simp)]
    rfl
  | cons x os ih =>
    have hstep : bodies parseOpt ((x :: os).map returned) opts =
        parseOpt x.1.val x.2 opts >>= fun opts' => bodies parseOpt (os.map returned) opts' := rfl
    rw [hstep, parseOpt_val, List.foldl_cons]
    simp only [List.mem_cons, exists_eq_or_imp]
    by_cases hx : x.1 = .chmodSocket
    · rw [if_pos hx, if_pos (.inl hx)]
      rfl
    · rw [if_neg hx]
      simp only [hx, false_or]
      exact ih (setOpt opts x)

theorem lastArg_concat (o : HelpOption) (default : Option Arg)
    (os : List (HelpOption × Option Arg)) (x : HelpOption × Option Arg) :
    lastArg o default (os ++ [x]) = if x.1 = o then x.2 else lastArg o default os := by
  unfold lastArg
  rw [List.reverse_append, List.reverse_singleton, List.singleton_append, List.find?_cons]
  by_cases hx : x.1 = o
  · simp [hx]
  · simp [hx]

/-- Setting the options from the first to the last leaves the last ones. -/
theorem foldl_setOpt (os : List (HelpOption × Option Arg)) :
    os.foldl setOpt defaultOpts = lastOpts os := by
  induction os using List.reverseRecOn with
  | nil => rfl
  | append_singleton os x ih =>
    rw [List.foldl_append, ih]
    show setOpt (lastOpts os) x = lastOpts (os ++ [x])
    obtain ⟨o, arg⟩ := x
    simp only [lastOpts, lastArg_concat, List.any_append, setOpt]
    cases o <;> simp

/-- `parse_opts` on a documented command line. -/
theorem parseOpts_commandLine (prog : Arg) (parts : List Part) (after : Option (List Arg)) :
    parseOpts prog (commandLine parts after) =
      if ∃ x ∈ optionsOf parts, x.1 = .chmodSocket then .error .invalidOption
      else .ok ⟨(positionalsOf parts after).length, positionalsOf parts after,
        lastOpts (optionsOf parts)⟩ := by
  obtain ⟨hwords, hfound, hoperands⟩ := items_eq parts
  have hrun := each_items parseOpt (parts.map Part.item) after defaultOpts (Nat.lt_succ_self _)
  rw [hwords, hfound, hoperands, bodies_parseOpt, foldl_setOpt] at hrun
  have hcall : parseOpts prog (commandLine parts after) =
      each optstring longopts parseOpt (Scan.size ⟨[], [], [], commandLine parts after⟩ + 1)
        ⟨[], [], [], commandLine parts after⟩ defaultOpts >>= fun x =>
          .ok ⟨1 + (commandLine parts after).length - (1 + x.1.scanned.length),
            (prog :: x.1.argv).drop (1 + x.1.scanned.length), x.2⟩ := rfl
  by_cases hchmod : ∃ x ∈ optionsOf parts, x.1 = .chmodSocket
  · rw [if_pos hchmod] at hrun ⊢
    rw [hcall]
    unfold commandLine
    rw [hrun]
    rfl
  · rw [if_neg hchmod] at hrun ⊢
    generalize hscanned : (parts.map Part.item).flatMap Item.scanned ++
      (tailWords after).take 1 = scanned at hrun
    have hok : parseOpts prog (commandLine parts after) =
        .ok ⟨1 + (commandLine parts after).length - (1 + scanned.length),
          (prog :: (scanned ++ positionalsOf parts after ++ [])).drop (1 + scanned.length),
          lastOpts (optionsOf parts)⟩ := by
      rw [hcall]
      unfold commandLine
      rw [hrun]
      rfl
    have hargs : (prog :: (scanned ++ positionalsOf parts after ++ [])).drop
        (1 + scanned.length) = positionalsOf parts after := by
      rw [Nat.add_comm, List.drop_succ_cons, List.append_nil, List.drop_left]
    -- nothing is lost, so that the number of arguments is theirs
    obtain ⟨hlen, _⟩ := parseOpts_perm hok
    simp only at hlen
    rw [hok, hlen, hargs]

/-- **The command line.** The options of the help text get their meaning on exactly the command
    lines without `--chmod-socket`. -/
theorem parse_opts_iff (prog : Arg) (parts : List Part) (after : Option (List Arg)) :
    OptsHonoured prog parts after ↔ ∀ x ∈ optionsOf parts, x.1 ≠ .chmodSocket := by
  unfold OptsHonoured
  rw [parseOpts_commandLine]
  constructor
  · intro h x hx hchmod
    rw [if_pos ⟨x, hx, hchmod⟩] at h
    exact absurd h (by simp)
  · intro h
    rw [if_neg]
    rintro ⟨x, hx, hchmod⟩
    exact h x hx hchmod

/-- `sdiol --chmod-socket 660 serve socket` -/
theorem chmod_socket_rejected :
    let parts := [Part.separate .chmodSocket rfl (bytes "660"),
      .positional (bytes "serve") (by decide +kernel),
      .positional (bytes "socket") (by decide +kernel)]
    parseOpts (bytes "sdiol") (commandLine parts none) = .error .invalidOption ∧
      ¬ OptsHonoured (bytes "sdiol") parts none := by
  intro parts
  have hcall : parseOpts (bytes "sdiol") (commandLine parts none) = .error .invalidOption := by
    rw [parseOpts_commandLine]
    exact if_pos ⟨(.chmodSocket, some (bytes "660")), List.mem_cons_self, rfl⟩
  refine ⟨hcall, fun h => ?_⟩
  exact absurd (hcall.symm.trans h) (by simp)

end Sdiol
