import Sdiol.Lib.LastWrite
import Sdiol.Lua

namespace Sdiol

open LastWrite

/-!
# The config table of `dual_key()`

`read_dual_key_config` compares the names it knows with a key of the table by `strncmp`, up to
the length of the *key*.  A beginning of a name, the empty string among them, is therefore as
good as the name, and so is a name followed by a byte 0 and anything else
(`strncmpEq_iff`).  What an entry sets is `entryWrite`, and the loop is a list of writes to the
three outputs (`readDualKeyConfig_table`).

`validated_exactly_iff` says for which tables the loop does what its error message promises.
-/

/-! ### The keys -/

/-- The keys of the table. -/
inductive ConfigKey where
  | mode
  | holdMs
  | doubleTapMs
deriving DecidableEq

/-- Their names. -/
def ConfigKey.name : ConfigKey → List UInt8
  | mode => "MODE".toUTF8.toList
  | holdMs => "HOLD_MS".toUTF8.toList
  | doubleTapMs => "DOUBLE_TAP_MS".toUTF8.toList

/-- The integers a key may have: a known mode, at least 1, at least -1. -/
def ConfigKey.InDomain : ConfigKey → Int → Prop
  | mode, n => n = 0 ∨ n = 1 ∨ n = 2
  | holdMs, n => 1 ≤ n
  | doubleTapMs, n => -1 ≤ n

instance (c : ConfigKey) (n : Int) : Decidable (c.InDomain n) := by
  cases c <;> unfold ConfigKey.InDomain <;> infer_instance

/-- The number of a `dual_key_mode_t`. -/
def DualMode.number : DualMode → Int
  | tapOnRollover => 0
  | holdOnRollover => 1
  | timeoutOnly => 2

/-- The three outputs. -/
def DualConfig.get (dual : DualConfig) : ConfigKey → Int
  | .mode => dual.mode.number
  | .holdMs => dual.holdMs
  | .doubleTapMs => dual.doubleTapMs

/-- The key that `read_dual_key_config` takes a string for, which is the first one that
    `strncmp` accepts. -/
def readAs (key : List UInt8) : Option ConfigKey :=
  [ConfigKey.mode, .holdMs, .doubleTapMs].find? fun c => strncmpEq c.name key

/-- What an entry of the table writes, and `none` if it is refused. -/
def entryWrite : TableKey × LuaValue → Option (ConfigKey × Int)
  | (.text key, .integer n) =>
    match readAs key with
    | some c => if c.InDomain n.toInt then some (c, n.toInt) else none
    | none => none
  | _ => none

/-- An entry as the message of the source describes it: one of the three strings, with an
    integer in its domain. -/
def Exact (e : TableKey × LuaValue) : Prop :=
  ∃ c n, e = (.text (ConfigKey.name c), .integer n) ∧ c.InDomain n.toInt

/-- `read_dual_key_config` does what it is for, in whatever order `lua_next` visits the
    entries: it succeeds exactly if all entries are as described, and then every output is the
    value given for its key, or what it was before. -/
def ValidatedExactly (entries : List (TableKey × LuaValue)) (dual : DualConfig) : Prop :=
  ∀ entries', entries'.Perm entries →
    ((∃ out, readDualKeyConfig (.table entries') dual = .ok out) ↔ ∀ e ∈ entries, Exact e) ∧
    ∀ out, readDualKeyConfig (.table entries') dual = .ok out → ∀ c : ConfigKey,
      (∀ n, (.text c.name, .integer n) ∈ entries → out.get c = n.toInt) ∧
      ((∀ v, (.text c.name, v) ∉ entries) → out.get c = dual.get c)

/-! ### What is accepted as a name -/

/-- **Names.** `strncmp` up to the length of `key` accepts the beginnings of `s`, and `s` with
    a byte 0 and anything behind it. -/
theorem strncmpEq_iff {s key : List UInt8} :
    strncmpEq s key = true ↔ key <+: s ∨ s ++ [0] <+: key := by
  induction s generalizing key with
  | nil =>
    cases key with
    | nil => exact iff_of_true rfl (.inl (List.prefix_refl []))
    | cons k key =>
      rw [strncmpEq, beq_iff_eq, List.nil_append, List.cons_prefix_cons, eq_comm]
      simp
  | cons c s ih =>
    cases key with
    | nil => exact iff_of_true rfl (.inl List.nil_prefix)
    | cons k key =>
      rw [strncmpEq, Bool.and_eq_true, beq_iff_eq, ih, List.cons_append, List.cons_prefix_cons,
        List.cons_prefix_cons, eq_comm (a := c)]
      exact and_or_left

-- so a beginning of a name is as good as the name
example : strncmpEq "MODE".toUTF8.toList "MO".toUTF8.toList = true := by decide +kernel

/-- A name is taken for itself. -/
theorem readAs_name (c : ConfigKey) : readAs c.name = some c := by
  cases c <;> decide +kernel

theorem ConfigKey.name_injective : Function.Injective ConfigKey.name := by
  intro c c' h
  have hread := congrArg readAs h
  rw [readAs_name, readAs_name] at hread
  exact Option.some.inj hread

/-! ### The loop -/

/-- The integers that are modes. -/
theorem dualKeyMode_cases (n : Int) :
    (ConfigKey.mode.InDomain n ∧ ∃ mode, dualKeyMode n = some mode ∧ mode.number = n) ∨
      (¬ ConfigKey.mode.InDomain n ∧ dualKeyMode n = none) := by
  unfold dualKeyMode
  by_cases h₀ : n = 0
  · exact .inl ⟨.inl h₀, .tapOnRollover, if_pos h₀, h₀.symm⟩
  by_cases h₁ : n = 1
  · exact .inl ⟨.inr (.inl h₁), .holdOnRollover, by rw [if_neg h₀, if_pos h₁], h₁.symm⟩
  by_cases h₂ : n = 2
  · exact .inl ⟨.inr (.inr h₂), .timeoutOnly, by rw [if_neg h₀, if_neg h₁, if_pos h₂], h₂.symm⟩
  · exact .inr ⟨by rintro (h | h | h) <;> contradiction, by rw [if_neg h₀, if_neg h₁, if_neg h₂]⟩

/-- The `if`s of the loop read a key as `readAs` does. -/
theorem readAs_eq (key : List UInt8) :
    readAs key = if strncmpEq (ConfigKey.name .mode) key then some .mode
      else if strncmpEq (ConfigKey.name .holdMs) key then some .holdMs
      else if strncmpEq (ConfigKey.name .doubleTapMs) key then some .doubleTapMs
      else none := by
  unfold readAs
  simp only [List.find?]
  split <;> simp_all
  split <;> simp_all
  split <;> simp_all

/-- What the body of the loop does with an integer for a key. -/
theorem readConfigEntry_integer (key : List UInt8) (n : Int64) (dual : DualConfig) :
    readConfigEntry (.text key) (.integer n) dual =
      match readAs key with
      | some .mode =>
        match dualKeyMode n.toInt with
        | some mode => .ok { dual with mode }
        | none => .error .invalidMode
      | some .holdMs =>
        if n.toInt < 1 then .error .invalidHoldMs else .ok { dual with holdMs := n.toInt }
      | some .doubleTapMs =>
        if n.toInt < -1 then .error .invalidDoubleTapMs
        else .ok { dual with doubleTapMs := n.toInt }
      | none => .error .configBadType := by
  unfold readConfigEntry
  -- the names are compared one after the other
  by_cases hmode : strncmpEq (ConfigKey.name .mode) key = true
  · have hread : readAs key = some .mode := by rw [readAs_eq, if_pos hmode]
    rw [hread]
    exact if_pos hmode
  by_cases hhold : strncmpEq (ConfigKey.name .holdMs) key = true
  · have hread : readAs key = some .holdMs := by rw [readAs_eq, if_neg hmode, if_pos hhold]
    rw [hread]
    exact (if_neg hmode).trans (if_pos hhold)
  by_cases hdouble : strncmpEq (ConfigKey.name .doubleTapMs) key = true
  · have hread : readAs key = some .doubleTapMs := by
      rw [readAs_eq, if_neg hmode, if_neg hhold, if_pos hdouble]
    rw [hread]
    exact (if_neg hmode).trans ((if_neg hhold).trans (if_pos hdouble))
  · have hread : readAs key = none := by
      rw [readAs_eq, if_neg hmode, if_neg hhold, if_neg hdouble]
    rw [hread]
    exact (if_neg hmode).trans ((if_neg hhold).trans (if_neg hdouble))

/-- A value that is no integer is refused. -/
theorem readConfigEntry_not_integer {key : TableKey} {value : LuaValue} {dual : DualConfig}
    (h : ∀ n, value ≠ .integer n) : ∃ err, readConfigEntry key value dual = .error err := by
  unfold readConfigEntry
  split
  · exact ⟨_, rfl⟩
  split
  · split
    · exact absurd rfl (h _)
    · exact ⟨_, rfl⟩
  split
  · split
    · exact absurd rfl (h _)
    · exact ⟨_, rfl⟩
  split
  · split
    · exact absurd rfl (h _)
    · exact ⟨_, rfl⟩
  · exact ⟨_, rfl⟩

/-- Setting a field writes its output. -/
theorem DualConfig.get_mode (dual : DualConfig) (mode : DualMode) :
    ({ dual with mode } : DualConfig).get = Function.update dual.get .mode mode.number := by
  funext c
  cases c <;> rfl

theorem DualConfig.get_holdMs (dual : DualConfig) (ms : Int) :
    ({ dual with holdMs := ms } : DualConfig).get = Function.update dual.get .holdMs ms := by
  funext c
  cases c <;> rfl

theorem DualConfig.get_doubleTapMs (dual : DualConfig) (ms : Int) :
    ({ dual with doubleTapMs := ms } : DualConfig).get =
      Function.update dual.get .doubleTapMs ms := by
  funext c
  cases c <;> rfl

/-- **One entry.** It is refused, or writes one output. -/
theorem readConfigEntry_write (e : TableKey × LuaValue) (dual : DualConfig) :
    (∃ w out, entryWrite e = some w ∧ readConfigEntry e.1 e.2 dual = .ok out ∧
      out.get = Function.update dual.get w.1 w.2) ∨
    (entryWrite e = none ∧ ∃ err, readConfigEntry e.1 e.2 dual = .error err) := by
  obtain ⟨key, value⟩ := e
  by_cases hint : ∃ n, value = .integer n
  swap
  · -- no name takes a value that is no integer
    have hnot : ∀ n, value ≠ .integer n := fun n hn => hint ⟨n, hn⟩
    refine .inr ⟨?_, readConfigEntry_not_integer hnot⟩
    cases value with
    | integer n => exact absurd rfl (hnot n)
    | _ => cases key <;> rfl
  obtain ⟨n, rfl⟩ := hint
  cases key with
  | other => exact .inr ⟨rfl, _, rfl⟩
  | text key =>
    simp only [readConfigEntry_integer, entryWrite]
    cases readAs key with
    | none => exact .inr ⟨rfl, _, rfl⟩
    | some c =>
      cases c with
      | mode =>
        simp only
        rcases dualKeyMode_cases n.toInt with ⟨hin, mode, hmode, hnumber⟩ | ⟨hout, hmode⟩
        · rw [hmode, if_pos hin, ← hnumber]
          exact .inl ⟨_, _, rfl, rfl, dual.get_mode mode⟩
        · rw [hmode, if_neg hout]
          exact .inr ⟨rfl, _, rfl⟩
      | holdMs =>
        simp only
        by_cases hin : ConfigKey.holdMs.InDomain n.toInt
        · rw [if_pos hin, if_neg (not_lt.mpr hin)]
          exact .inl ⟨_, _, rfl, rfl, dual.get_holdMs n.toInt⟩
        · rw [if_neg hin, if_pos (not_le.mp hin)]
          exact .inr ⟨rfl, _, rfl⟩
      | doubleTapMs =>
        simp only
        by_cases hin : ConfigKey.doubleTapMs.InDomain n.toInt
        · rw [if_pos hin, if_neg (not_lt.mpr hin)]
          exact .inl ⟨_, _, rfl, rfl, dual.get_doubleTapMs n.toInt⟩
        · rw [if_neg hin, if_pos (not_le.mp hin)]
          exact .inr ⟨rfl, _, rfl⟩

/-- **The loop.** It refuses the table if it refuses an entry; otherwise the entries are
    written one after the other. -/
theorem readConfigEntries_write (entries : List (TableKey × LuaValue)) (dual : DualConfig) :
    ((∃ out, readConfigEntries entries dual = .ok out) ↔
      ∀ e ∈ entries, ∃ w, entryWrite e = some w) ∧
    ∀ out, readConfigEntries entries dual = .ok out →
      out.get = writeAll (entries.filterMap entryWrite) dual.get := by
  induction entries generalizing dual with
  | nil =>
    refine ⟨iff_of_true ⟨dual, rfl⟩ (by simp), ?_⟩
    intro out h
    cases h
    rfl
  | cons e entries ih =>
    rcases readConfigEntry_write e dual with ⟨w, dual', hw, hok, hget⟩ | ⟨hnone, err, herr⟩
    · have hstep : readConfigEntries (e :: entries) dual = readConfigEntries entries dual' := by
        rw [readConfigEntries, hok]
        rfl
      rw [hstep, List.forall_mem_cons, List.filterMap_cons_some hw, writeAll_cons, ← hget]
      obtain ⟨hiff, hwrites⟩ := ih dual'
      exact ⟨hiff.trans (and_iff_right ⟨w, hw⟩).symm, hwrites⟩
    · have hstep : readConfigEntries (e :: entries) dual = .error err := by
        rw [readConfigEntries, herr]
        rfl
      rw [hstep, List.forall_mem_cons, hnone]
      simp

/-! ### Which tables are validated -/

section Table

variable {entries : List (TableKey × LuaValue)} {dual : DualConfig}

/-- An entry as described writes the value it gives. -/
theorem entryWrite_name (c : ConfigKey) (n : Int64) :
    entryWrite (.text c.name, .integer n) =
      if c.InDomain n.toInt then some (c, n.toInt) else none := by
  simp only [entryWrite, readAs_name]

theorem Exact.entryWrite {e : TableKey × LuaValue} (h : Exact e) :
    ∃ w, entryWrite e = some w := by
  obtain ⟨c, n, rfl, hin⟩ := h
  exact ⟨_, (entryWrite_name c n).trans (if_pos hin)⟩

/-- What an entry with one of the three names writes is what it gives for that name. -/
theorem entryWrite_eq_some {e : TableKey × LuaValue} {w : ConfigKey × Int}
    (hname : ∃ c : ConfigKey, e.1 = .text c.name) (h : entryWrite e = some w) :
    ∃ n, e = (.text w.1.name, .integer n) ∧ w.2 = n.toInt ∧ w.1.InDomain n.toInt := by
  obtain ⟨key, value⟩ := e
  obtain ⟨c, rfl⟩ := hname
  cases value with
  | integer n =>
    rw [entryWrite_name] at h
    split at h
    · rename_i hin
      cases h
      exact ⟨n, rfl, rfl, hin⟩
    · exact absurd h (by simp)
  | _ => exact absurd h (by simp [Sdiol.entryWrite])

/-- The entries that are refused: taken for none of the names, or for one in whose domain the
    value is not. -/
theorem entryWrite_eq_none {e : TableKey × LuaValue} :
    entryWrite e = none ↔
      ∀ key n c, e = (.text key, .integer n) → readAs key = some c → ¬ c.InDomain n.toInt := by
  constructor
  · rintro hnone key n c rfl hread hin
    simp only [entryWrite, hread, if_pos hin] at hnone
    exact absurd hnone (by simp)
  · intro h
    unfold entryWrite
    split
    · rename_i key n
      cases hread : readAs key with
      | none => rfl
      | some c => exact if_neg (h key n c rfl hread)
    · rfl

/-- A table with no other keys than the three names is validated. -/
theorem validatedExactly_of_names
    (hkeys : ∀ (c : ConfigKey) v v', (.text c.name, v) ∈ entries → (.text c.name, v') ∈ entries →
      v = v')
    (hnames : ∀ e ∈ entries, ∃ c : ConfigKey, e.1 = .text c.name) :
    ValidatedExactly entries dual := by
  intro entries' hperm
  obtain ⟨hiff, hwrites⟩ := readConfigEntries_write entries' dual
  -- with a key among the names, an entry that is not refused is exact
  have hexact : ∀ e ∈ entries', ∀ w, entryWrite e = some w → Exact e := by
    intro e he w hw
    obtain ⟨n, heq, _, hin⟩ := entryWrite_eq_some (hnames e (hperm.mem_iff.mp he)) hw
    exact ⟨w.1, n, heq, hin⟩
  refine ⟨hiff.trans ⟨fun h e he => ?_, fun h e he => ?_⟩, fun out hout c => ?_⟩
  · obtain ⟨w, hw⟩ := h e (hperm.mem_iff.mpr he)
    exact hexact e (hperm.mem_iff.mpr he) w hw
  · exact (h e (hperm.mem_iff.mp he)).entryWrite
  · -- what is written to a name is what the table gives for it
    have hwritten : ∀ w, w ∈ entries'.filterMap entryWrite →
        ∃ n, (.text w.1.name, .integer n) ∈ entries ∧ w.2 = n.toInt := by
      intro w hw
      obtain ⟨e, he, hew⟩ := List.mem_filterMap.mp hw
      obtain ⟨n, rfl, hn, _⟩ := entryWrite_eq_some (hnames e (hperm.mem_iff.mp he)) hew
      exact ⟨n, hperm.mem_iff.mp he, hn⟩
    have hfunctional : Functional (entries'.filterMap entryWrite) := by
      intro c v v' hv hv'
      obtain ⟨n, hn, rfl⟩ := hwritten (c, v) hv
      obtain ⟨n', hn', rfl⟩ := hwritten (c, v') hv'
      cases hkeys c _ _ hn hn'
      rfl
    rw [hwrites out hout]
    constructor
    · intro n hn
      obtain ⟨w, hw⟩ := hiff.mp ⟨out, hout⟩ _ (hperm.mem_iff.mpr hn)
      apply hfunctional.writeAll_eq
      apply List.mem_filterMap.mpr
      refine ⟨_, hperm.mem_iff.mpr hn, ?_⟩
      rw [entryWrite_name] at hw ⊢
      split at hw
      · rename_i hin
        exact if_pos hin
      · exact absurd hw (by simp)
    · intro hnone
      apply writeAll_of_not_mem
      intro v hv
      obtain ⟨n, hn, _⟩ := hwritten (c, v) hv
      exact hnone _ hn

/-- **Validation.** Let a table hold at most one value for each of the three names.  It is
    validated exactly if all its keys are among the three names, or one of its entries is
    refused: taken for none of the names, or for one in whose domain the value is not. -/
theorem validated_exactly_iff
    (hkeys : ∀ (c : ConfigKey) v v', (.text c.name, v) ∈ entries → (.text c.name, v') ∈ entries →
      v = v') :
    ValidatedExactly entries dual ↔
      (∀ e ∈ entries, ∃ c : ConfigKey, e.1 = .text c.name) ∨
        ∃ e ∈ entries, ∀ key n c, e = (.text key, .integer n) → readAs key = some c →
          ¬ c.InDomain n.toInt := by
  constructor
  · intro hvalid
    by_cases hrefused : ∃ e ∈ entries, entryWrite e = none
    · obtain ⟨e, he, hnone⟩ := hrefused
      exact .inr ⟨e, he, entryWrite_eq_none.mp hnone⟩
    -- nothing is refused, so that all keys have to be right
    refine .inl fun e he => ?_
    have hok : ∀ e ∈ entries, ∃ w, entryWrite e = some w := by
      intro e he
      apply Option.ne_none_iff_exists'.mp
      exact fun hnone => hrefused ⟨e, he, hnone⟩
    obtain ⟨c, n, rfl, _⟩ := (hvalid entries (List.Perm.refl _)).1.mp
      ((readConfigEntries_write entries dual).1.mpr hok) e he
    exact ⟨c, rfl⟩
  · rintro (hnames | ⟨e, he, hrefused⟩)
    · exact validatedExactly_of_names hkeys hnames
    intro entries' hperm
    have hnone := entryWrite_eq_none.mpr hrefused
    have hfails : ¬ ∃ out, readDualKeyConfig (.table entries') dual = .ok out := by
      intro hout
      obtain ⟨w, hw⟩ := (readConfigEntries_write entries' dual).1.mp hout e
        (hperm.mem_iff.mpr he)
      rw [hnone] at hw
      exact absurd hw (by simp)
    refine ⟨iff_of_false hfails fun hexact => ?_, fun out hout => absurd ⟨out, hout⟩ hfails⟩
    obtain ⟨w, hw⟩ := (hexact e he).entryWrite
    rw [hnone] at hw
    exact absurd hw (by simp)

/-- `{HOLD_MS = 150, MODE = 1}` -/
theorem validated_exactly_two :
    ValidatedExactly [(.text (ConfigKey.name .holdMs), .integer 150),
      (.text (ConfigKey.name .mode), .integer 1)] defaultDual := by
  refine (validated_exactly_iff ?_).mpr (.inl ?_)
  · have hentry : ∀ (c : ConfigKey) v, (.text c.name, v) ∈
        [(TableKey.text (ConfigKey.name .holdMs), LuaValue.integer 150),
          (.text (ConfigKey.name .mode), .integer 1)] →
        c = .holdMs ∧ v = .integer 150 ∨ c = .mode ∧ v = .integer 1 := by
      intro c v hv
      simpa [ConfigKey.name_injective.eq_iff] using hv
    intro c v v' hv hv'
    rcases hentry c v hv with ⟨rfl, rfl⟩ | ⟨rfl, rfl⟩ <;>
      rcases hentry _ v' hv' with ⟨hc, rfl⟩ | ⟨hc, rfl⟩ <;> first | rfl | cases hc
  · intro e he
    rcases List.mem_pair.mp he with rfl | rfl
    · exact ⟨.holdMs, rfl⟩
    · exact ⟨.mode, rfl⟩

/-- `{HOLD = 150}` sets `HOLD_MS`. -/
theorem prefix_accepted :
    readDualKeyConfig (.table [(.text "HOLD".toUTF8.toList, .integer 150)]) defaultDual =
        .ok { defaultDual with holdMs := 150 } ∧
      ¬ ValidatedExactly [(.text "HOLD".toUTF8.toList, .integer 150)] defaultDual := by
  have hread : readDualKeyConfig (.table [(.text "HOLD".toUTF8.toList, .integer 150)])
      defaultDual = .ok { defaultDual with holdMs := 150 } := by
    decide +kernel
  refine ⟨hread, fun hvalid => ?_⟩
  obtain ⟨c, n, heq, _⟩ := (hvalid _ (List.Perm.refl _)).1.mp ⟨_, hread⟩ _ List.mem_cons_self
  have hname : "HOLD".toUTF8.toList = c.name := TableKey.text.inj (congrArg Prod.fst heq)
  cases c <;> exact absurd hname (by decide +kernel)

end Table

end Sdiol
