import Mathlib

namespace Getopt

/-!
# `getopt_long`

Command lines as `getopt_long` reads them, with an option string that does not begin with `+`
or `-`: elements that are not options are moved behind those that are.  An argument that is
required may stand in the element of the option or be the next element, whatever that is; the
name of a long option may be cut as long as it is not ambiguous; `--` ends the options.

`Scan` is what is known about `argv` between two calls, and `each` is the loop that hands every
option to a body.  `Spells` says which options a few elements spell, `Item` is a part of a
command line, and `each_items` is the meaning of a whole one: its options in their order, and
behind them everything else in its order.  `each_exhausts` and `each_inv` are about any `argv`:
what is left of it, and what the body keeps for the options that can be found.
-/

universe u

/-- A string. -/
abbrev Arg := List UInt8

/-- `-` -/
def dash : UInt8 := 45

/-- `=` -/
def equals : UInt8 := 61

/-- `:` -/
def colon : UInt8 := 58

/-- What is returned for an option that is not known, `?`. -/
def question : Int := 63

/-- `has_arg` -/
inductive HasArg where
  | noArgument
  | requiredArgument
  | optionalArgument
deriving DecidableEq

/-- `struct option`, with `NULL` as its `flag`. -/
structure LongOption where
  name : Arg
  hasArg : HasArg
  val : Int
deriving DecidableEq

/-- `argv` without the name of the program: the elements that are options or arguments of
    options, which are moved to the front, the elements in front of `rest` that are neither,
    and the elements that come next.  `nextchar` are the options that are still to be read of
    the last element. -/
structure Scan where
  scanned : List Arg
  skipped : List Arg
  nextchar : Arg
  rest : List Arg

/-- What a call returns, with `optarg`. -/
structure Call where
  opt : Int
  optarg : Option Arg
  scan : Scan

/-! ### One call -/

/-- What the option string says about a character. -/
def shortHasArg (optstring : Arg) (c : UInt8) : Option HasArg :=
  if c = colon then none
  else match optstring.dropWhile fun d => d ≠ c with
    | [] => none
    | _ :: tail =>
      if tail.take 2 = [colon, colon] then some .optionalArgument
      else if tail.take 1 = [colon] then some .requiredArgument
      else some .noArgument

/-- The long option of this name, or the only one whose name begins so. -/
def findLong (longopts : List LongOption) (name : Arg) : Option LongOption :=
  match longopts.find? (fun o => o.name = name) with
  | some o => some o
  | none =>
    match longopts.filter (fun o => name.isPrefixOf o.name) with
    | [] => none
    | o :: os =>
      -- several names for the same option are not ambiguous
      if os.all (fun o' => o'.hasArg = o.hasArg ∧ o'.val = o.val) then some o else none

/-- The next element is the argument; if there is none, the call returns `missing`. -/
def takeNext (val missing : Int) (s : Scan) : Call :=
  match s.rest with
  | [] => ⟨missing, none, s⟩
  | arg :: rest => ⟨val, some arg, { s with scanned := s.scanned ++ [arg], rest := rest }⟩

/-- What is returned if an argument is missing. -/
def missing (optstring : Arg) : Int :=
  if optstring.head? = some colon then colon.toNat else question

/-- The option `c`, with `cs` behind it in the same element. -/
def shortOption (optstring : Arg) (c : UInt8) (cs : Arg) (s : Scan) : Call :=
  match shortHasArg optstring c with
  | none => ⟨question, none, { s with nextchar := cs }⟩
  | some .noArgument => ⟨c.toNat, none, { s with nextchar := cs }⟩
  | some .requiredArgument =>
    if cs = [] then takeNext c.toNat (missing optstring) { s with nextchar := [] }
    else ⟨c.toNat, some cs, { s with nextchar := [] }⟩
  | some .optionalArgument =>
    ⟨c.toNat, if cs = [] then none else some cs, { s with nextchar := [] }⟩

/-- The option `--body`. -/
def longOption (optstring : Arg) (longopts : List LongOption) (body : Arg) (s : Scan) : Call :=
  match findLong longopts (body.takeWhile fun c => c ≠ equals) with
  | none => ⟨question, none, s⟩
  | some o =>
    match body.dropWhile fun c => c ≠ equals with
    | _ :: arg =>
      if o.hasArg = .noArgument then ⟨question, none, s⟩ else ⟨o.val, some arg, s⟩
    | [] =>
      if o.hasArg = .requiredArgument then takeNext o.val (missing optstring) s
      else ⟨o.val, none, s⟩

/-- The elements from the next one on, which begin with an option or lead to one. -/
def nextElement (optstring : Arg) (longopts : List LongOption) (scanned : List Arg) :
    List Arg → List Arg → Call
  | skipped, [] => ⟨-1, none, ⟨scanned, skipped, [], []⟩⟩
  | skipped, a :: rest =>
    match a with
    | [] | [_] => nextElement optstring longopts scanned (skipped ++ [a]) rest
    | d :: c :: cs =>
      if d ≠ dash then nextElement optstring longopts scanned (skipped ++ [a]) rest
      else if c ≠ dash then shortOption optstring c cs ⟨scanned ++ [a], skipped, [], rest⟩
      else if cs = [] then ⟨-1, none, ⟨scanned ++ [a], skipped ++ rest, [], []⟩⟩
      else longOption optstring longopts cs ⟨scanned ++ [a], skipped, [], rest⟩

def getoptLong (optstring : Arg) (longopts : List LongOption) (s : Scan) : Call :=
  match s.nextchar with
  | c :: cs => shortOption optstring c cs s
  | [] => nextElement optstring longopts s.scanned s.skipped s.rest

/-- `while((opt = getopt_long(argc, argv, optstring, longopts, NULL)) > -1) body` -/
def each {ε : Type*} {σ : Type u} (optstring : Arg) (longopts : List LongOption)
    (body : Int → Option Arg → σ → Except ε σ) : Nat → Scan → σ → Except ε (Scan × σ)
  | 0, s, st => .ok (s, st)
  | fuel + 1, s, st =>
    match getoptLong optstring longopts s with
    | ⟨opt, optarg, s'⟩ =>
      if opt > -1 then do
        let st' ← body opt optarg st
        each optstring longopts body fuel s' st'
      else .ok (s', st)

/-- The elements of `argv`, in the order they are in now. -/
def Scan.argv (s : Scan) : List Arg := s.scanned ++ s.skipped ++ s.rest

/-- Each call that finds an option takes at least a character. -/
def Scan.size (s : Scan) : Nat := s.nextchar.length + (s.rest.map fun a => a.length + 1).sum

/-! ### What a call takes -/

/-- What becomes of `s` in a call: the elements are moved about, and if this is not the end,
    less is left to be read. -/
structure Took (s : Scan) (bound : Nat) (c : Call) : Prop where
  perm : c.scan.argv.Perm s.argv
  less : c.opt > -1 → c.scan.size < bound
  ended : c.opt ≤ -1 → c.scan.nextchar = [] ∧ c.scan.rest = []

section Call

variable {optstring : Arg} {longopts : List LongOption} {s : Scan} {bound : Nat}

theorem missing_pos (optstring : Arg) : missing optstring > -1 := by
  unfold missing
  split <;> decide

theorem findLong_mem {name : Arg} {o : LongOption} (h : findLong longopts name = some o) :
    o ∈ longopts := by
  unfold findLong at h
  split at h
  · rename_i o' hfind
    cases h
    exact List.mem_of_find?_eq_some hfind
  · split at h
    · exact absurd h (by simp)
    · rename_i o' os hfilter
      split at h
      · cases h
        exact List.mem_of_mem_filter (hfilter ▸ List.mem_cons_self)
      · exact absurd h (by simp)

/-- A call that returns before it looks at the next element. -/
theorem took_same {opt : Int} {optarg : Option Arg} {s' : Scan} (hopt : opt > -1)
    (hargv : s'.argv = s.argv) (hsize : s'.size < bound) : Took s bound ⟨opt, optarg, s'⟩ where
  perm := by
    show s'.argv.Perm s.argv
    rw [hargv]
  less _ := hsize
  ended h := absurd hopt (Int.not_lt.mpr h)

theorem takeNext_took {val missing : Int} (hval : val > -1) (hmissing : missing > -1)
    (hsize : s.size < bound) : Took s bound (takeNext val missing s) := by
  unfold takeNext
  cases hrest : s.rest with
  | nil => exact took_same hmissing rfl hsize
  | cons arg rest =>
    refine ⟨?_, fun _ => ?_, fun h => absurd hval (Int.not_lt.mpr h)⟩
    · -- the argument passes the elements that were skipped
      show ((s.scanned ++ [arg]) ++ s.skipped ++ rest).Perm (s.scanned ++ s.skipped ++ s.rest)
      rw [hrest, List.append_assoc, List.append_assoc, List.append_assoc]
      apply List.Perm.append_left
      rw [List.singleton_append]
      exact List.perm_middle.symm
    · show s.nextchar.length + (rest.map fun a => a.length + 1).sum < bound
      unfold Scan.size at hsize
      rw [hrest, List.map_cons, List.sum_cons] at hsize
      omega

theorem shortOption_took {c : UInt8} {cs : Arg}
    (hsize : Scan.size { s with nextchar := cs } < bound) :
    Took s bound (shortOption optstring c cs s) := by
  have hc : (c.toNat : Int) > -1 := by omega
  have hdone : Scan.size { s with nextchar := [] } < bound := by
    unfold Scan.size at hsize ⊢
    simp only [List.length_nil] at hsize ⊢
    omega
  unfold shortOption
  split
  · exact took_same (by decide) rfl hsize
  · exact took_same hc rfl hsize
  · split
    · have htook := takeNext_took (s := { s with nextchar := [] }) hc (missing_pos optstring) hdone
      exact ⟨htook.perm, htook.less, htook.ended⟩
    · exact took_same hc rfl hdone
  · exact took_same hc rfl hdone

theorem longOption_took {body : Arg} (hvals : ∀ o ∈ longopts, o.val > -1)
    (hsize : s.size < bound) : Took s bound (longOption optstring longopts body s) := by
  unfold longOption
  split
  · exact took_same (by decide) rfl hsize
  · rename_i o hfind
    have hval := hvals o (findLong_mem hfind)
    split
    · split
      · exact took_same (by decide) rfl hsize
      · exact took_same hval rfl hsize
    · split
      · exact takeNext_took hval (missing_pos optstring) hsize
      · exact took_same hval rfl hsize

theorem nextElement_took (hvals : ∀ o ∈ longopts, o.val > -1) {scanned skipped rest : List Arg}
    {nextchar : Arg} (hbound : (rest.map fun a => a.length + 1).sum ≤ bound) :
    Took ⟨scanned, skipped, nextchar, rest⟩ bound
      (nextElement optstring longopts scanned skipped rest) := by
  induction rest generalizing skipped with
  | nil =>
    rw [nextElement]
    exact ⟨.refl _, fun h => absurd h (Int.lt_irrefl _), fun _ => ⟨rfl, rfl⟩⟩
  | cons a rest ih =>
    rw [List.map_cons, List.sum_cons] at hbound
    have hskip : Took ⟨scanned, skipped, nextchar, a :: rest⟩ bound
        (nextElement optstring longopts scanned (skipped ++ [a]) rest) := by
      have hrest : Took ⟨scanned, skipped ++ [a], nextchar, rest⟩ bound
          (nextElement optstring longopts scanned (skipped ++ [a]) rest) := ih (by omega)
      obtain ⟨hperm, hless, hended⟩ := hrest
      refine ⟨hperm.trans ?_, hless, hended⟩
      simp [Scan.argv]
    -- an option passes the elements that were skipped
    have hmove : (scanned ++ [a] ++ skipped ++ rest).Perm (scanned ++ skipped ++ a :: rest) := by
      rw [List.append_assoc, List.append_assoc, List.append_assoc]
      apply List.Perm.append_left
      rw [List.singleton_append]
      exact List.perm_middle.symm
    have hmoved : ∀ {call : Call}, Took ⟨scanned ++ [a], skipped, [], rest⟩ bound call →
        Took ⟨scanned, skipped, nextchar, a :: rest⟩ bound call := by
      rintro call ⟨hperm, hless, hended⟩
      exact ⟨hperm.trans hmove, hless, hended⟩
    unfold nextElement
    split
    · exact hskip
    · exact hskip
    · rename_i d c cs
      simp only [List.length_cons] at hbound
      split
      · exact hskip
      split
      · apply hmoved
        apply shortOption_took
        show cs.length + (rest.map fun a => a.length + 1).sum < bound
        omega
      split
      · refine ⟨?_, fun h => absurd h (Int.lt_irrefl _), fun _ => ⟨rfl, rfl⟩⟩
        show (scanned ++ [d :: c :: cs] ++ (skipped ++ rest) ++ []).Perm _
        rw [List.append_nil, ← List.append_assoc]
        exact hmove
      · apply hmoved
        apply longOption_took hvals
        show ([] : Arg).length + (rest.map fun a => a.length + 1).sum < bound
        rw [List.length_nil]
        omega

/-- **One call.** -/
theorem getoptLong_took (optstring : Arg) (s : Scan) (hvals : ∀ o ∈ longopts, o.val > -1) :
    Took s s.size (getoptLong optstring longopts s) := by
  obtain ⟨scanned, skipped, nextchar, rest⟩ := s
  unfold getoptLong
  cases nextchar with
  | cons c cs =>
    apply shortOption_took
    show cs.length + (rest.map fun a => a.length + 1).sum <
      (c :: cs).length + (rest.map fun a => a.length + 1).sum
    rw [List.length_cons]
    omega
  | nil =>
    apply nextElement_took hvals
    exact Nat.le_add_left _ _

end Call

/-! ### The loop -/

section Each

variable {ε : Type*} {σ : Type u} {optstring : Arg} {longopts : List LongOption}
  {body : Int → Option Arg → σ → Except ε σ} {fuel : Nat} {s s' : Scan} {st st' : σ}

/-- **Any command line.** With fuel for all of it, the loop ends where nothing is left, and it
    has only moved the elements about. -/
theorem each_exhausts (hvals : ∀ o ∈ longopts, o.val > -1) (hfuel : s.size < fuel)
    (h : each optstring longopts body fuel s st = .ok (s', st')) :
    s'.argv.Perm s.argv ∧ s'.nextchar = [] ∧ s'.rest = [] := by
  induction fuel generalizing s st with
  | zero => exact absurd hfuel (Nat.not_lt_zero _)
  | succ fuel ih =>
    obtain ⟨hperm, hless, hended⟩ := getoptLong_took optstring s hvals
    rw [each] at h
    split at h
    rename_i opt optarg s₁ hcall
    rw [hcall] at hperm hless hended
    split at h
    · rename_i hopt
      cases hbody : body opt optarg st with
      | error e =>
        rw [hbody] at h
        exact absurd h (by simp [bind, Except.bind])
      | ok st₁ =>
        rw [hbody] at h
        have hlt : s₁.size < fuel := Nat.lt_of_lt_of_le (hless hopt) (Nat.le_of_lt_succ hfuel)
        obtain ⟨hperm', hdone⟩ := ih hlt h
        exact ⟨hperm'.trans hperm, hdone⟩
    · rename_i hopt
      cases h
      exact ⟨hperm, hended (Int.not_lt.mp hopt)⟩

end Each

/-! ### What is found -/

section Found

variable {optstring : Arg} {longopts : List LongOption}

/-- The option and the argument that a call can return: an option of one of the tables, with an
    argument if it is required, or an error. -/
inductive Found (optstring : Arg) (longopts : List LongOption) : Int → Option Arg → Prop
  | short {c : UInt8} {has : HasArg} {arg : Option Arg} (hc : shortHasArg optstring c = some has)
      (harg : has = .requiredArgument → arg.isSome = true) :
      Found optstring longopts c.toNat arg
  | long {o : LongOption} {arg : Option Arg} (ho : o ∈ longopts)
      (harg : o.hasArg = .requiredArgument → arg.isSome = true) : Found optstring longopts o.val arg
  | unknown : Found optstring longopts question none
  | missing : Found optstring longopts (missing optstring) none

theorem shortHasArg_mem {c : UInt8} {has : HasArg} (h : shortHasArg optstring c = some has) :
    c ∈ optstring := by
  by_contra hc
  have hdrop : (optstring.dropWhile fun d => d ≠ c) = [] := by
    apply List.dropWhile_eq_nil_iff.mpr
    intro d hd
    rw [decide_eq_true_eq]
    rintro rfl
    exact hc hd
  unfold shortHasArg at h
  rw [hdrop] at h
  exact absurd h (by simp)

theorem takeNext_found {val : Int} {s : Scan}
    (h : ∀ arg : Option Arg, arg.isSome = true → Found optstring longopts val arg) :
    Found optstring longopts (takeNext val (missing optstring) s).opt
      (takeNext val (missing optstring) s).optarg := by
  unfold takeNext
  cases s.rest with
  | nil => exact .missing
  | cons arg rest => exact h (some arg) rfl

theorem shortOption_found (c : UInt8) (cs : Arg) (s : Scan) :
    Found optstring longopts (shortOption optstring c cs s).opt
      (shortOption optstring c cs s).optarg := by
  unfold shortOption
  cases hc : shortHasArg optstring c with
  | none => exact .unknown
  | some has =>
    cases has with
    | noArgument => exact .short hc (by simp)
    | requiredArgument =>
      by_cases hcs : cs = []
      · simp only [if_pos hcs]
        exact takeNext_found fun arg harg => .short hc fun _ => harg
      · simp only [if_neg hcs]
        exact .short hc fun _ => rfl
    | optionalArgument => exact .short hc (by simp)

theorem longOption_found (body : Arg) (s : Scan) :
    Found optstring longopts (longOption optstring longopts body s).opt
      (longOption optstring longopts body s).optarg := by
  unfold longOption
  cases hfind : findLong longopts (body.takeWhile fun c => c ≠ equals) with
  | none => exact .unknown
  | some o =>
    have ho := findLong_mem hfind
    cases body.dropWhile fun c => c ≠ equals with
    | nil =>
      by_cases hreq : o.hasArg = .requiredArgument
      · simp only [if_pos hreq]
        exact takeNext_found fun arg harg => .long ho fun _ => harg
      · simp only [if_neg hreq]
        exact .long ho fun h => absurd h hreq
    | cons d arg =>
      by_cases hno : o.hasArg = .noArgument
      · simp only [if_pos hno]
        exact .unknown
      · simp only [if_neg hno]
        exact .long ho fun _ => rfl

theorem nextElement_found (scanned skipped rest : List Arg)
    (h : (nextElement optstring longopts scanned skipped rest).opt > -1) :
    Found optstring longopts (nextElement optstring longopts scanned skipped rest).opt
      (nextElement optstring longopts scanned skipped rest).optarg := by
  induction rest generalizing skipped with
  | nil => exact absurd h (Int.lt_irrefl _)
  | cons a rest ih =>
    unfold nextElement at h ⊢
    split
    · exact ih _ h
    · exact ih _ h
    · rename_i d c cs
      simp only at h
      split_ifs at h ⊢ with hd hc hcs
      · exact ih _ h
      · exact shortOption_found c cs _
      · exact absurd h (Int.lt_irrefl _)
      · exact longOption_found cs _

/-- **One call.** -/
theorem getoptLong_found (s : Scan) (h : (getoptLong optstring longopts s).opt > -1) :
    Found optstring longopts (getoptLong optstring longopts s).opt
      (getoptLong optstring longopts s).optarg := by
  unfold getoptLong at h ⊢
  cases hnext : s.nextchar with
  | nil =>
    rw [hnext] at h
    exact nextElement_found _ _ _ h
  | cons c cs => exact shortOption_found c cs s

/-- **The loop.** What the body keeps for everything that can be found holds at the end. -/
theorem each_inv {ε : Type*} {σ : Type u} {body : Int → Option Arg → σ → Except ε σ}
    {I : σ → Prop} (hbody : ∀ opt optarg st st', Found optstring longopts opt optarg → I st →
      body opt optarg st = .ok st' → I st')
    {fuel : Nat} {s s' : Scan} {st st' : σ} (hst : I st)
    (h : each optstring longopts body fuel s st = .ok (s', st')) : I st' := by
  induction fuel generalizing s st with
  | zero =>
    cases h
    exact hst
  | succ fuel ih =>
    have hfound := @getoptLong_found optstring longopts s
    rw [each] at h
    split at h
    rename_i opt optarg s₁ hcall
    rw [hcall] at hfound
    split at h
    · rename_i hopt
      cases hrun : body opt optarg st with
      | error e =>
        rw [hrun] at h
        exact absurd h (by simp [bind, Except.bind])
      | ok st₁ =>
        rw [hrun] at h
        exact ih (hbody _ _ _ _ (hfound hopt) hst hrun) h
    · cases h
      exact hst

end Found

/-! ### Command lines -/

section Items

variable (optstring : Arg) (longopts : List LongOption)

/-- The options in one element behind its `-`, the last of which may have its argument in the
    elements `ws` behind it. -/
inductive Cluster : Arg → List Arg → List (Int × Option Arg) → Prop
  | nil : Cluster [] [] []
  | flag {c : UInt8} {cs : Arg} {ws : List Arg} {os : List (Int × Option Arg)}
      (h : shortHasArg optstring c = some .noArgument) (hrest : Cluster cs ws os) :
      Cluster (c :: cs) ws ((c.toNat, none) :: os)
  | attached {c : UInt8} {arg : Arg} (h : shortHasArg optstring c = some .requiredArgument)
      (harg : arg ≠ []) : Cluster (c :: arg) [] [(c.toNat, some arg)]
  | separate {c : UInt8} (h : shortHasArg optstring c = some .requiredArgument) (arg : Arg) :
      Cluster [c] [arg] [(c.toNat, some arg)]

/-- The elements `ws` are these options. -/
inductive Spells : List Arg → List (Int × Option Arg) → Prop
  | short {c : UInt8} {cs : Arg} {ws : List Arg} {os : List (Int × Option Arg)} (hc : c ≠ dash)
      (h : Cluster optstring (c :: cs) ws os) : Spells ((dash :: c :: cs) :: ws) os
  | flag {name : Arg} {o : LongOption} (hname : name ≠ []) (heq : equals ∉ name)
      (h : findLong longopts name = some o) (hval : o.val > -1)
      (harg : o.hasArg ≠ .requiredArgument) : Spells [dash :: dash :: name] [(o.val, none)]
  | attached {name : Arg} {o : LongOption} (heq : equals ∉ name)
      (h : findLong longopts name = some o) (hval : o.val > -1) (harg : o.hasArg ≠ .noArgument)
      (arg : Arg) : Spells [dash :: dash :: (name ++ equals :: arg)] [(o.val, some arg)]
  | separate {name : Arg} {o : LongOption} (hname : name ≠ []) (heq : equals ∉ name)
      (h : findLong longopts name = some o) (hval : o.val > -1)
      (harg : o.hasArg = .requiredArgument) (arg : Arg) :
      Spells [dash :: dash :: name, arg] [(o.val, some arg)]

/-- The element is not an option. -/
def IsOperand (a : Arg) : Prop := a = [dash] ∨ a.head? ≠ some dash

instance (a : Arg) : Decidable (IsOperand a) := inferInstanceAs (Decidable (_ ∨ _))

/-- A part of a command line. -/
inductive Item where
  | options (ws : List Arg) (os : List (Int × Option Arg)) (h : Spells optstring longopts ws os)
  | operand (a : Arg) (h : IsOperand a)

variable {optstring longopts}

def Item.words : Item optstring longopts → List Arg
  | .options ws _ _ => ws
  | .operand a _ => [a]

/-- The elements that are moved to the front. -/
def Item.scanned : Item optstring longopts → List Arg
  | .options ws _ _ => ws
  | .operand _ _ => []

def Item.operands : Item optstring longopts → List Arg
  | .options _ _ _ => []
  | .operand a _ => [a]

def Item.found : Item optstring longopts → List (Int × Option Arg)
  | .options _ os _ => os
  | .operand _ _ => []

/-- The end of a command line: nothing, or `--` and elements that are no options. -/
def tailWords : Option (List Arg) → List Arg
  | none => []
  | some after => [dash, dash] :: after

end Items

section Meaning

variable {ε : Type*} {σ : Type u} {optstring : Arg} {longopts : List LongOption}
  {body : Int → Option Arg → σ → Except ε σ} {fuel : Nat} {st : σ}
  {scanned skipped rest ws : List Arg} {os : List (Int × Option Arg)}

/-- The body for each of these options. -/
def bodies (body : Int → Option Arg → σ → Except ε σ) (os : List (Int × Option Arg)) (st : σ) :
    Except ε σ :=
  os.foldlM (fun st o => body o.1 o.2 st) st

theorem bodies_nil_bind {τ : Type u} (next : σ → Except ε τ) :
    (bodies body [] st >>= next) = next st := rfl

theorem bodies_cons_bind {τ : Type u} (o : Int × Option Arg) (next : σ → Except ε τ) :
    (bodies body (o :: os) st >>= next) =
      body o.1 o.2 st >>= fun st' => bodies body os st' >>= next := by
  rw [bodies, List.foldlM_cons, bind_assoc]
  rfl

theorem bodies_append_bind {τ : Type u} (os os' : List (Int × Option Arg))
    (next : σ → Except ε τ) :
    (bodies body (os ++ os') st >>= next) =
      bodies body os st >>= fun st' => bodies body os' st' >>= next := by
  rw [bodies, List.foldlM_append, bind_assoc]
  rfl

theorem each_option {s s' : Scan} {opt : Int} {optarg : Option Arg} (hopt : opt > -1)
    (hcall : getoptLong optstring longopts s = ⟨opt, optarg, s'⟩) :
    each optstring longopts body (fuel + 1) s st =
      bodies body [(opt, optarg)] st >>= fun st' => each optstring longopts body fuel s' st' := by
  rw [each, hcall, bodies_cons_bind]
  simp only [if_pos hopt]
  rfl

/-- **Clusters.** Its options are found one after the other. -/
theorem each_cluster {cs : Arg} (h : Cluster optstring cs ws os) :
    each optstring longopts body (os.length + fuel) ⟨scanned, skipped, cs, ws ++ rest⟩ st =
      bodies body os st >>= fun st' =>
        each optstring longopts body fuel ⟨scanned ++ ws, skipped, [], rest⟩ st' := by
  induction h generalizing st with
  | nil =>
    rw [bodies_nil_bind, List.append_nil]
    simp
  | @flag c cs ws os hc hrest ih =>
    have hcall : getoptLong optstring longopts ⟨scanned, skipped, c :: cs, ws ++ rest⟩ =
        ⟨c.toNat, none, ⟨scanned, skipped, cs, ws ++ rest⟩⟩ := by
      show shortOption optstring c cs _ = _
      rw [shortOption, hc]
    rw [List.length_cons, Nat.add_right_comm, each_option (by omega) hcall, bodies_cons_bind,
      bodies_cons_bind]
    simp only [ih]
    rfl
  | @attached c arg hc harg =>
    have hcall : getoptLong optstring longopts ⟨scanned, skipped, c :: arg, [] ++ rest⟩ =
        ⟨c.toNat, some arg, ⟨scanned, skipped, [], rest⟩⟩ := by
      show shortOption optstring c arg _ = _
      rw [shortOption, hc]
      simp only [if_neg harg, List.nil_append]
    rw [List.length_singleton, Nat.add_comm, each_option (by omega) hcall, List.append_nil]
  | @separate c hc arg =>
    have hcall : getoptLong optstring longopts ⟨scanned, skipped, [c], [arg] ++ rest⟩ =
        ⟨c.toNat, some arg, ⟨scanned ++ [arg], skipped, [], rest⟩⟩ := by
      show shortOption optstring c [] _ = _
      rw [shortOption, hc]
      rfl
    rw [List.length_singleton, Nat.add_comm, each_option (by omega) hcall]

/-- The first call for an element of short options. -/
theorem each_short {c : UInt8} {cs : Arg} (hc : c ≠ dash) :
    each optstring longopts body (fuel + 1) ⟨scanned, skipped, [], (dash :: c :: cs) :: rest⟩ st =
      each optstring longopts body (fuel + 1)
        ⟨scanned ++ [dash :: c :: cs], skipped, c :: cs, rest⟩ st := by
  have hcall : getoptLong optstring longopts ⟨scanned, skipped, [], (dash :: c :: cs) :: rest⟩ =
      shortOption optstring c cs ⟨scanned ++ [dash :: c :: cs], skipped, [], rest⟩ := by
    show nextElement optstring longopts scanned skipped ((dash :: c :: cs) :: rest) = _
    simp [nextElement, hc]
  rw [each, each, hcall]
  rfl

/-- The first call for an element that is a long option. -/
theorem getoptLong_long {text : Arg} (htext : text ≠ []) :
    getoptLong optstring longopts ⟨scanned, skipped, [], (dash :: dash :: text) :: rest⟩ =
      longOption optstring longopts text
        ⟨scanned ++ [dash :: dash :: text], skipped, [], rest⟩ := by
  show nextElement optstring longopts scanned skipped ((dash :: dash :: text) :: rest) = _
  simp [nextElement, htext]

theorem takeWhile_equals {name : Arg} (h : equals ∉ name) :
    name.takeWhile (fun c => c ≠ equals) = name ∧ name.dropWhile (fun c => c ≠ equals) = [] := by
  have hall : ∀ c ∈ name, decide (c ≠ equals) = true := by
    intro c hc
    rw [decide_eq_true_iff]
    rintro rfl
    exact h hc
  exact ⟨List.takeWhile_eq_self_iff.mpr hall, List.dropWhile_eq_nil_iff.mpr hall⟩

theorem takeWhile_equals_append {name : Arg} (h : equals ∉ name) (arg : Arg) :
    (name ++ equals :: arg).takeWhile (fun c => c ≠ equals) = name ∧
      (name ++ equals :: arg).dropWhile (fun c => c ≠ equals) = equals :: arg := by
  obtain ⟨htake, hdrop⟩ := takeWhile_equals h
  constructor
  · rw [List.takeWhile_append, htake, if_pos rfl]
    simp
  · rw [List.dropWhile_append, hdrop]
    simp

/-- **Options.** The options that the next elements spell are found, and the elements are moved
    to the front. -/
theorem each_spells (h : Spells optstring longopts ws os) :
    each optstring longopts body (os.length + fuel) ⟨scanned, skipped, [], ws ++ rest⟩ st =
      bodies body os st >>= fun st' =>
        each optstring longopts body fuel ⟨scanned ++ ws, skipped, [], rest⟩ st' := by
  cases h with
  | @short c cs ws os hc hcluster =>
    obtain ⟨m, hm⟩ : ∃ m, os.length + fuel = m + 1 := by
      cases hcluster with
      | flag _ _ => exact ⟨_, Nat.add_right_comm ..⟩
      | attached _ _ => exact ⟨fuel, Nat.add_comm ..⟩
      | separate _ _ => exact ⟨fuel, Nat.add_comm ..⟩
    rw [hm, List.cons_append, each_short hc, ← hm, each_cluster hcluster, List.append_assoc]
    rfl
  | @flag name o hname heq hfind hval harg =>
    have hcall : getoptLong optstring longopts
        ⟨scanned, skipped, [], [dash :: dash :: name] ++ rest⟩ =
          ⟨o.val, none, ⟨scanned ++ [dash :: dash :: name], skipped, [], rest⟩⟩ := by
      obtain ⟨htake, hdrop⟩ := takeWhile_equals heq
      rw [List.singleton_append, getoptLong_long hname, longOption, htake, hdrop, hfind]
      simp only [if_neg harg]
    rw [List.length_singleton, Nat.add_comm, each_option hval hcall]
  | @attached name o heq hfind hval harg arg =>
    have hcall : getoptLong optstring longopts
        ⟨scanned, skipped, [], [dash :: dash :: (name ++ equals :: arg)] ++ rest⟩ =
          ⟨o.val, some arg,
            ⟨scanned ++ [dash :: dash :: (name ++ equals :: arg)], skipped, [], rest⟩⟩ := by
      obtain ⟨htake, hdrop⟩ := takeWhile_equals_append heq arg
      rw [List.singleton_append, getoptLong_long (by simp), longOption, htake, hdrop, hfind]
      simp only [if_neg harg]
    rw [List.length_singleton, Nat.add_comm, each_option hval hcall]
  | @separate name o hname heq hfind hval harg arg =>
    have hcall : getoptLong optstring longopts
        ⟨scanned, skipped, [], [dash :: dash :: name, arg] ++ rest⟩ =
          ⟨o.val, some arg, ⟨scanned ++ [dash :: dash :: name, arg], skipped, [], rest⟩⟩ := by
      obtain ⟨htake, hdrop⟩ := takeWhile_equals heq
      rw [List.cons_append, getoptLong_long hname, longOption, htake, hdrop, hfind]
      simp only [if_pos harg, takeNext, List.singleton_append, List.append_assoc]
    rw [List.length_singleton, Nat.add_comm, each_option hval hcall]

/-- **Operands.** An element that is no option is skipped in the next call. -/
theorem each_operand {a : Arg} (ha : IsOperand a) :
    each optstring longopts body (fuel + 1) ⟨scanned, skipped, [], a :: rest⟩ st =
      each optstring longopts body (fuel + 1) ⟨scanned, skipped ++ [a], [], rest⟩ st := by
  have hcall : getoptLong optstring longopts ⟨scanned, skipped, [], a :: rest⟩ =
      getoptLong optstring longopts ⟨scanned, skipped ++ [a], [], rest⟩ := by
    show nextElement optstring longopts scanned skipped (a :: rest) =
      nextElement optstring longopts scanned (skipped ++ [a]) rest
    match a, ha with
    | [], _ => simp [nextElement]
    | [_], _ => simp [nextElement]
    | d :: c :: cs, ha =>
      have hd : d ≠ dash := by simpa [IsOperand] using ha
      simp [nextElement, hd]
  rw [each, each, hcall]

theorem each_tail (tail : Option (List Arg)) :
    each optstring longopts body (fuel + 1) ⟨scanned, skipped, [], tailWords tail⟩ st =
      .ok (⟨scanned ++ (tailWords tail).take 1, skipped ++ tail.getD [], [], []⟩, st) := by
  cases tail with
  | none =>
    show each optstring longopts body (fuel + 1) ⟨scanned, skipped, [], []⟩ st =
      .ok (⟨scanned ++ [], skipped ++ [], [], []⟩, st)
    rw [List.append_nil, List.append_nil, each]
    rfl
  | some after => rfl

variable {items : List (Item optstring longopts)}

/-- An option has at least a character. -/
theorem Cluster.length_le {cs : Arg} (h : Cluster optstring cs ws os) : os.length ≤ cs.length := by
  induction h with
  | nil => exact Nat.le_refl 0
  | flag _ _ ih => exact Nat.succ_le_succ ih
  | attached _ _ => exact Nat.succ_le_succ (Nat.zero_le _)
  | separate _ _ => exact Nat.le_refl 1

theorem Spells.length_le (h : Spells optstring longopts ws os) :
    os.length ≤ (ws.map fun a => a.length + 1).sum := by
  cases h with
  | short _ hcluster =>
    have hle := hcluster.length_le
    simp only [List.map_cons, List.sum_cons, List.length_cons] at hle ⊢
    omega
  | flag _ _ _ _ _ => exact Nat.succ_le_succ (Nat.zero_le _)
  | attached _ _ _ _ _ => exact Nat.succ_le_succ (Nat.zero_le _)
  | separate _ _ _ _ _ _ => exact Nat.succ_le_succ (Nat.zero_le _)

theorem found_length_le (items : List (Item optstring longopts)) :
    (items.flatMap Item.found).length ≤
      ((items.flatMap Item.words).map fun a => a.length + 1).sum := by
  induction items with
  | nil => exact Nat.le_refl 0
  | cons item items ih =>
    rw [List.flatMap_cons, List.flatMap_cons, List.length_append, List.map_append, List.sum_append]
    apply Nat.add_le_add _ ih
    cases item with
    | options ws os h => exact h.length_le
    | operand a h => exact Nat.zero_le _

/-- With the fuel counted. -/
theorem each_items_from (tail : Option (List Arg)) :
    each optstring longopts body ((items.flatMap Item.found).length + (fuel + 1))
        ⟨scanned, skipped, [], items.flatMap Item.words ++ tailWords tail⟩ st =
      bodies body (items.flatMap Item.found) st >>= fun st' =>
        .ok (⟨scanned ++ items.flatMap Item.scanned ++ (tailWords tail).take 1,
          skipped ++ items.flatMap Item.operands ++ tail.getD [], [], []⟩, st') := by
  induction items generalizing scanned skipped st with
  | nil =>
    simp only [List.flatMap_nil, List.length_nil, Nat.zero_add, List.nil_append, List.append_nil]
    rw [each_tail]
    rfl
  | cons item items ih =>
    cases item with
    | options ws os h =>
      simp only [List.flatMap_cons, Item.found, Item.words, Item.scanned, Item.operands,
        List.length_append, List.append_assoc, List.nil_append, bodies_append_bind, Nat.add_assoc]
      rw [each_spells h]
      simp only [ih, List.append_assoc]
    | operand a h =>
      simp only [List.flatMap_cons, Item.found, Item.words, Item.scanned, Item.operands,
        List.nil_append, List.cons_append, ← Nat.add_assoc]
      rw [each_operand h, Nat.add_assoc, ih]
      simp only [List.append_assoc, List.singleton_append]

/-- **Command lines.** The body is run for every option in the order in which they stand, and
    behind the options and their arguments is left what is neither, in its order. -/
theorem each_items (body : Int → Option Arg → σ → Except ε σ)
    (items : List (Item optstring longopts)) (tail : Option (List Arg)) (st : σ)
    (hfuel : Scan.size ⟨[], [], [], items.flatMap Item.words ++ tailWords tail⟩ < fuel) :
    each optstring longopts body fuel
        ⟨[], [], [], items.flatMap Item.words ++ tailWords tail⟩ st =
      bodies body (items.flatMap Item.found) st >>= fun st' =>
        .ok (⟨items.flatMap Item.scanned ++ (tailWords tail).take 1,
          items.flatMap Item.operands ++ tail.getD [], [], []⟩, st') := by
  have hle := found_length_le items
  unfold Scan.size at hfuel
  rw [List.map_append, List.sum_append, List.length_nil] at hfuel
  obtain ⟨m, rfl⟩ : ∃ m, fuel = (items.flatMap Item.found).length + (m + 1) :=
    ⟨fuel - (items.flatMap Item.found).length - 1, by omega⟩
  rw [each_items_from, List.nil_append, List.nil_append]

end Meaning

end Getopt
