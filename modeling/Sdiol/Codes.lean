import Sdiol.TableOrder

namespace Sdiol

open LastWrite

/-!
# Key codes at two widths

A script writes a key code as an integer, and puts it where an action belongs (the value of an
entry of a keymap, a tap, a hold) or where an event of a macro belongs (an argument of
`macro()`, `shift()`, `ctrl()`, `alt()` or `meta()`).  `copy_to_key_action` makes the test
`n < 0 || n >= KEY_MAX` on the `lua_Integer`; `append_simple_key_to_macro` makes the same test
on its parameter, which is an `int`, so that the upper half of the integer is cut off before.

`Place` is a place of either kind, in a call that is otherwise accepted, and `Place.read` the
number that is tested for it.  `Place.call_integer` says what one call does;
`codes_agree_iff` says for which integers the two tests give the same answer.
-/

/-- `KEY_MAX` bounds the key codes. -/
def IsCode (n : Int) : Prop := 0 ≤ n ∧ n < keyMax

instance (n : Int) : Decidable (IsCode n) := inferInstanceAs (Decidable (_ ∧ _))

/-! ### Places -/

/-- The functions of a script that build macros. -/
inductive MacroFn where
  | luaMacro
  | luaShift
  | luaCtrl
  | luaAlt
  | luaMeta
deriving DecidableEq

/-- The modifier around the macro. -/
def MacroFn.modifier : MacroFn → Option KeyCode
  | .luaMacro => none
  | .luaShift => some 42
  | .luaCtrl => some 29
  | .luaAlt => some 56
  | .luaMeta => some 125

def MacroFn.call : MacroFn → List LuaValue → Except ConfigError LuaValue
  | .luaMacro => Sdiol.luaMacro
  | .luaShift => Sdiol.luaShift
  | .luaCtrl => Sdiol.luaCtrl
  | .luaAlt => Sdiol.luaAlt
  | .luaMeta => Sdiol.luaMeta

/-- The macro with its modifier pressed before it and released after it. -/
def MacroFn.around (fn : MacroFn) (chain : List MacroEvent) : List MacroEvent :=
  match fn.modifier with
  | none => chain
  | some num => ⟨num, true⟩ :: (chain ++ [⟨num, false⟩])

/-- Where a script can write a key code. -/
inductive Place where
  /-- the value of an entry in the table for `grab_keyboard` -/
  | keymap (before : List (TableKey × LuaValue)) (key : TableKey)
      (after : List (TableKey × LuaValue))
  /-- the value of an entry in a table that is an action itself -/
  | layer (before : List (TableKey × LuaValue)) (key : TableKey)
      (after : List (TableKey × LuaValue))
  /-- argument 1 of `dual_key()` -/
  | dualTap (hold : LuaValue) (config : Option LuaValue)
  /-- argument 2 of `dual_key()` -/
  | dualHold (tap : LuaValue) (config : Option LuaValue)
  /-- an argument of a function that builds a macro -/
  | argument (fn : MacroFn) (before after : List LuaValue)

namespace Place

/-- The action that comes out of the call with `v` in this place. -/
def call : Place → LuaValue → Except ConfigError KeyAction
  | .keymap before key after, v => luaGrabKeyboard (.table (before ++ (key, v) :: after))
  | .layer before key after, v => copyToKeyAction (.table (before ++ (key, v) :: after))
  | .dualTap hold config, v => luaDualKey (v :: hold :: config.toList) >>= copyToKeyAction
  | .dualHold tap config, v => luaDualKey (tap :: v :: config.toList) >>= copyToKeyAction
  | .argument fn before after, v => fn.call (before ++ v :: after) >>= copyToKeyAction

/-- There is something that can stand in this place, so the rest of the call is accepted. -/
def Open (p : Place) : Prop := ∃ v a, p.call v = .ok a

/-- In the action `a`, the code in this place is `n`.  Of the entries of a table that bind the
    same key, the last one counts. -/
def Stores (n : Int) (a : KeyAction) : Place → Prop
  | .keymap _ key after | .layer _ key after =>
    ∃ map c, a = .ktMap map ∧ tableKeyCode key = some c ∧
      ((∀ e ∈ after, tableKeyCode e.1 ≠ some c) → ∃ k : KeyCode, map c = .ktSimple k ∧ k.val = n)
  | .dualTap _ _ => ∃ (k : KeyCode) (hold : KeyAction) (dual : DualConfig),
      a = .ktDual (.ktSimple k) hold dual ∧ k.val = n
  | .dualHold _ _ => ∃ (k : KeyCode) (tap : KeyAction) (dual : DualConfig),
      a = .ktDual tap (.ktSimple k) dual ∧ k.val = n
  | .argument fn before after => ∃ (k : KeyCode) (front back : List MacroEvent),
      appendCopies before = .ok front ∧ appendCopies after = .ok back ∧
        a = .ktMacro (fn.around (front ++ ⟨k, true⟩ :: ⟨k, false⟩ :: back)) ∧ k.val = n

/-- The number that is tested. -/
def read (n : Int64) : Place → Int
  | .argument _ _ _ => n.toInt32.toInt
  | _ => n.toInt

/-- In this place, exactly the key codes are accepted, and the code is stored that was given. -/
def Agrees (n : Int64) (p : Place) : Prop :=
  ((∃ a, p.call (.integer n) = .ok a) ↔ IsCode n.toInt) ∧
    ∀ a, p.call (.integer n) = .ok a → p.Stores n.toInt a

end Place

/-- Plain keys and macros agree about `n`. -/
def CodesAgree (n : Int64) : Prop := ∀ p : Place, p.Open → p.Agrees n

/-! ### The two tests -/

theorem checkedCode_eq_ok {n : Int} {c : KeyCode} : checkedCode n = .ok c ↔ n = c.val := by
  unfold checkedCode
  constructor
  · intro h
    split at h
    · rename_i hrange
      cases h
      show n = ((n.toNat : Nat) : Int)
      omega
    · exact absurd h (by simp)
  · intro h
    have hlt : c.val < keyMax := c.isLt
    rw [dif_pos ⟨by omega, by omega⟩]
    congr 1
    ext
    show n.toNat = c.val
    omega

theorem isCode_iff {n : Int} : IsCode n ↔ ∃ c : KeyCode, n = c.val := by
  constructor
  · rintro ⟨hlow, hhigh⟩
    exact ⟨⟨n.toNat, by omega⟩, (Int.toNat_of_nonneg hlow).symm⟩
  · rintro ⟨c, rfl⟩
    have hlt : c.val < keyMax := c.isLt
    exact ⟨by omega, by omega⟩

theorem copyToKeyAction_integer {n : Int64} {ka : KeyAction} :
    copyToKeyAction (.integer n) = .ok ka ↔ ∃ c : KeyCode, n.toInt = c.val ∧ ka = .ktSimple c := by
  rw [copyToKeyAction, Steps.bind_eq_ok]
  simp only [checkedCode_eq_ok, Except.ok.injEq, @eq_comm _ _ ka]

theorem appendCopyToMacro_integer {n : Int64} {chain : List MacroEvent} :
    appendCopyToMacro (.integer n) = .ok chain ↔
      ∃ c : KeyCode, n.toInt32.toInt = c.val ∧ chain = [⟨c, true⟩, ⟨c, false⟩] := by
  rw [appendCopyToMacro, appendSimpleKeyToMacro, Steps.bind_eq_ok]
  simp only [checkedCode_eq_ok, Except.ok.injEq, @eq_comm _ _ chain]

/-- A key code is as large as its lower half. -/
theorem IsCode.toInt32 {n : Int64} (h : IsCode n.toInt) : n.toInt32.toInt = n.toInt := by
  obtain ⟨hlow, hhigh⟩ := h
  have hmax : (keyMax : Int) < 2 ^ 31 := by decide
  rw [Int64.toInt_toInt32]
  apply Int.bmod_eq_of_le
  · omega
  · omega

/-! ### What one call does -/

/-- **Tables.** An entry in the middle. -/
theorem copyToKeyAction_entry {before after : List (TableKey × LuaValue)} {key : TableKey}
    {v : LuaValue} {a : KeyAction} :
    copyToKeyAction (.table (before ++ (key, v) :: after)) = .ok a ↔
      (∀ e ∈ before ++ after, ∃ w, entryBinding e = some w) ∧
        ∃ c ka, tableKeyCode key = some c ∧ copyToKeyAction v = .ok ka ∧
          a = .ktMap (writeAll (before.filterMap entryBinding ++ (c, ka) ::
            after.filterMap entryBinding) fun _ => .ktNone) := by
  rw [copyToKeyAction_table]
  constructor
  · rintro ⟨hentries, rfl⟩
    obtain ⟨w, hw⟩ := hentries (key, v) (by simp)
    obtain ⟨hkey, hv⟩ := entryBinding_eq_some.mp hw
    refine ⟨fun e he => hentries e ?_, w.1, w.2, hkey, hv, ?_⟩
    · rcases List.mem_append.mp he with he | he
      · exact List.mem_append_left _ he
      · exact List.mem_append_right _ (List.mem_cons_of_mem _ he)
    · rw [List.filterMap_append, List.filterMap_cons_some hw]
  · rintro ⟨hrest, c, ka, hkey, hv, rfl⟩
    have hw : entryBinding (key, v) = some (c, ka) := entryBinding_eq_some.mpr ⟨hkey, hv⟩
    refine ⟨fun e he => ?_, ?_⟩
    · rcases List.mem_append.mp he with he | he
      · exact hrest e (List.mem_append_left _ he)
      · rcases List.mem_cons.mp he with rfl | he
        · exact ⟨_, hw⟩
        · exact hrest e (List.mem_append_right _ he)
    · rw [List.filterMap_append, List.filterMap_cons_some hw]

/-- The value of an entry is found in the map, unless a later entry binds the same key. -/
theorem writeAll_entry {before after : List (TableKey × LuaValue)} {c : KeyCode} {ka : KeyAction}
    (hlast : ∀ e ∈ after, tableKeyCode e.1 ≠ some c) :
    writeAll (before.filterMap entryBinding ++ (c, ka) :: after.filterMap entryBinding)
      (fun _ => .ktNone) c = ka := by
  have hnone : ∀ v, (c, v) ∉ after.filterMap entryBinding := by
    intro v hv
    obtain ⟨e, he, hw⟩ := List.mem_filterMap.mp hv
    exact hlast e he (entryBinding_eq_some.mp hw).1
  rw [writeAll, List.foldl_append, List.foldl_cons]
  show writeAll (after.filterMap entryBinding) _ c = ka
  rw [writeAll_of_not_mem hnone, Function.update_self]

/-- **`dual_key()`.** -/
theorem luaDualKey_eq_ok {tap hold : LuaValue} {config : Option LuaValue} {a : KeyAction} :
    (luaDualKey (tap :: hold :: config.toList) >>= copyToKeyAction) = .ok a ↔
      ∃ tap' hold' dual, copyToKeyAction tap = .ok tap' ∧ copyToKeyAction hold = .ok hold' ∧
        tap'.isDual = false ∧ tap'.isMap = false ∧ hold'.isDual = false ∧
          dualKeyConfig config = .ok dual ∧ a = .ktDual tap' hold' dual := by
  have hcall : luaDualKey (tap :: hold :: config.toList) = dualKey tap hold config := by
    cases config with
    | none => rfl
    | some config => rfl
  rw [hcall, Steps.bind_eq_ok]
  constructor
  · rintro ⟨v, h, hv⟩
    obtain ⟨tap', htap, h⟩ := Steps.bind_eq_ok.mp h
    obtain ⟨hold', hhold, h⟩ := Steps.bind_eq_ok.mp h
    split at h
    · exact absurd h (by simp)
    rename_i hplain
    split at h
    · exact absurd h (by simp)
    rename_i hdual
    obtain ⟨dual, hconfig, h⟩ := Steps.bind_eq_ok.mp h
    cases h
    rw [copyToKeyAction_userdata] at hv
    cases hv
    have hshape : tap'.isDual = false ∧ tap'.isMap = false ∧ hold'.isDual = false := by
      simpa [not_or, and_assoc] using And.intro hplain hdual
    exact ⟨tap', hold', dual, htap, hhold, hshape.1, hshape.2.1, hshape.2.2, hconfig, rfl⟩
  · rintro ⟨tap', hold', dual, htap, hhold, hnodual, hnomap, hnodual', hconfig, rfl⟩
    refine ⟨_, ?_, copyToKeyAction_userdata _⟩
    simp only [dualKey, htap, hhold, hconfig, hnodual, hnomap, hnodual', bind, Except.bind]
    rfl

/-- **Macros.** An argument in the middle. -/
theorem appendCopies_argument {before after : List LuaValue} {v : LuaValue}
    {chain : List MacroEvent} :
    appendCopies (before ++ v :: after) = .ok chain ↔
      ∃ front part back, appendCopies before = .ok front ∧ appendCopyToMacro v = .ok part ∧
        appendCopies after = .ok back ∧ chain = front ++ part ++ back := by
  induction before generalizing chain with
  | nil =>
    simp only [List.nil_append, appendCopies, Steps.bind_eq_ok, Except.ok.injEq]
    constructor
    · rintro ⟨part, hpart, back, hback, rfl⟩
      exact ⟨[], part, back, rfl, hpart, hback, rfl⟩
    · rintro ⟨_, part, back, rfl, hpart, hback, rfl⟩
      exact ⟨part, hpart, back, hback, rfl⟩
  | cons arg before ih =>
    simp only [List.cons_append, appendCopies, Steps.bind_eq_ok, ih, Except.ok.injEq]
    constructor
    · rintro ⟨c, hc, _, ⟨front, part, back, hfront, hpart, hback, rfl⟩, rfl⟩
      exact ⟨c ++ front, part, back, ⟨c, hc, front, hfront, rfl⟩, hpart, hback, by simp⟩
    · rintro ⟨_, part, back, ⟨c, hc, front, hfront, rfl⟩, hpart, hback, rfl⟩
      exact ⟨c, hc, _, ⟨front, part, back, hfront, hpart, hback, rfl⟩, by simp⟩

theorem MacroFn.call_eq_ok {fn : MacroFn} {args : List LuaValue} (hne : args ≠ [])
    {a : KeyAction} :
    (fn.call args >>= copyToKeyAction) = .ok a ↔
      ∃ chain, appendCopies args = .ok chain ∧ a = .ktMacro (fn.around chain) := by
  have hcall : ∀ v, fn.call args = .ok v ↔
      ∃ chain, appendCopies args = .ok chain ∧ v = .userdata (.ktMacro (fn.around chain)) := by
    intro v
    cases fn <;>
      simp only [MacroFn.call, Sdiol.luaMacro, Sdiol.luaShift, Sdiol.luaCtrl, Sdiol.luaAlt,
        Sdiol.luaMeta, luaMod, if_neg hne, Steps.bind_eq_ok, Except.ok.injEq, MacroFn.around,
        MacroFn.modifier, @eq_comm _ _ v]
  simp only [Steps.bind_eq_ok, hcall]
  constructor
  · rintro ⟨_, ⟨chain, hchain, rfl⟩, ha⟩
    rw [copyToKeyAction_userdata] at ha
    exact ⟨chain, hchain, (Except.ok.inj ha).symm⟩
  · rintro ⟨chain, hchain, rfl⟩
    exact ⟨_, ⟨chain, hchain, rfl⟩, copyToKeyAction_userdata _⟩

/-- `grab_keyboard` fills what is not bound, and keeps the keys that are. -/
theorem luaGrabKeyboard_table {entries : List (TableKey × LuaValue)} {a : KeyAction} :
    luaGrabKeyboard (.table entries) = .ok a ↔
      ∃ map, copyToKeyAction (.table entries) = .ok (.ktMap map) ∧
        a = .ktMap fun i => fillAction (map i) none (.ktSimple i) := by
  rw [luaGrabKeyboard, Steps.bind_eq_ok]
  constructor
  · rintro ⟨ka, hka, h⟩
    obtain ⟨_, rfl⟩ := copyToKeyAction_table.mp hka
    cases h
    exact ⟨_, hka, rfl⟩
  · rintro ⟨map, hmap, rfl⟩
    exact ⟨.ktMap map, hmap, rfl⟩

namespace Place

/-- Exactly if `m` is a code, the integer `n` is accepted in this place, and then `m` is stored. -/
def Tests (n : Int64) (m : Int) (p : Place) : Prop :=
  ((∃ a, p.call (.integer n) = .ok a) ↔ IsCode m) ∧
    ∀ a, p.call (.integer n) = .ok a → p.Stores m a

/-- It is enough that an accepted call has read a code, and that every code is accepted. -/
theorem tests_of_code {n : Int64} {m : Int} {p : Place}
    (hread : ∀ a, p.call (.integer n) = .ok a → (∃ k : KeyCode, m = k.val) ∧ p.Stores m a)
    (haccept : ∀ k : KeyCode, m = k.val → ∃ a, p.call (.integer n) = .ok a) : p.Tests n m := by
  refine ⟨?_, fun a h => (hread a h).2⟩
  rw [isCode_iff]
  constructor
  · rintro ⟨a, h⟩
    exact (hread a h).1
  · rintro ⟨k, hk⟩
    exact haccept k hk

theorem layer_integer {before after : List (TableKey × LuaValue)} {key : TableKey}
    (hopen : (layer before key after).Open) (n : Int64) :
    (layer before key after).Tests n n.toInt := by
  obtain ⟨v, a, hcall⟩ := hopen
  obtain ⟨hrest, c, _, hkey, _, _⟩ := copyToKeyAction_entry.mp hcall
  apply tests_of_code
  · intro a h
    obtain ⟨_, c, _, hkey, hn, rfl⟩ := copyToKeyAction_entry.mp h
    obtain ⟨k, hk, rfl⟩ := copyToKeyAction_integer.mp hn
    exact ⟨⟨k, hk⟩, _, c, rfl, hkey, fun hlast => ⟨k, writeAll_entry hlast, hk.symm⟩⟩
  · intro k hk
    have hn := copyToKeyAction_integer.mpr ⟨k, hk, rfl⟩
    exact ⟨_, copyToKeyAction_entry.mpr ⟨hrest, c, _, hkey, hn, rfl⟩⟩

/-- In the table for `grab_keyboard` it is the same. -/
theorem keymap_integer {before after : List (TableKey × LuaValue)} {key : TableKey}
    (hopen : (keymap before key after).Open) (n : Int64) :
    (keymap before key after).Tests n n.toInt := by
  obtain ⟨v, a, hcall⟩ := hopen
  obtain ⟨map, hmap, _⟩ := luaGrabKeyboard_table.mp hcall
  obtain ⟨hiff, hstores⟩ := layer_integer ⟨v, _, hmap⟩ n
  apply tests_of_code
  · intro a h
    obtain ⟨map, hmap, rfl⟩ := luaGrabKeyboard_table.mp h
    obtain ⟨_, c, heq, hkey, hlast⟩ := hstores _ hmap
    cases heq
    refine ⟨isCode_iff.mp (hiff.mp ⟨_, hmap⟩), _, c, rfl, hkey, fun hno => ?_⟩
    obtain ⟨k, hk, hn⟩ := hlast hno
    refine ⟨k, ?_, hn⟩
    -- what is bound is not filled
    show fillAction (map c) none (.ktSimple c) = .ktSimple k
    rw [hk]
    rfl
  · intro k hk
    obtain ⟨a, h⟩ := hiff.mpr (isCode_iff.mpr ⟨k, hk⟩)
    obtain ⟨_, rfl⟩ := copyToKeyAction_table.mp h
    exact ⟨_, luaGrabKeyboard_table.mpr ⟨_, h, rfl⟩⟩

theorem dualTap_integer {hold : LuaValue} {config : Option LuaValue}
    (hopen : (dualTap hold config).Open) (n : Int64) :
    (dualTap hold config).Tests n n.toInt := by
  obtain ⟨v, a, hcall⟩ := hopen
  obtain ⟨_, hold', dual, _, hhold, _, _, hnodual, hconfig, _⟩ := luaDualKey_eq_ok.mp hcall
  apply tests_of_code
  · intro a h
    obtain ⟨_, hold', dual, hn, _, _, _, _, _, rfl⟩ := luaDualKey_eq_ok.mp h
    obtain ⟨k, hk, rfl⟩ := copyToKeyAction_integer.mp hn
    exact ⟨⟨k, hk⟩, k, hold', dual, rfl, hk.symm⟩
  · intro k hk
    have hn := copyToKeyAction_integer.mpr ⟨k, hk, rfl⟩
    exact ⟨_, luaDualKey_eq_ok.mpr
      ⟨_, hold', dual, hn, hhold, rfl, rfl, hnodual, hconfig, rfl⟩⟩

theorem dualHold_integer {tap : LuaValue} {config : Option LuaValue}
    (hopen : (dualHold tap config).Open) (n : Int64) :
    (dualHold tap config).Tests n n.toInt := by
  obtain ⟨v, a, hcall⟩ := hopen
  obtain ⟨tap', _, dual, htap, _, hnodual, hnomap, _, hconfig, _⟩ := luaDualKey_eq_ok.mp hcall
  apply tests_of_code
  · intro a h
    obtain ⟨tap', _, dual, _, hn, _, _, _, _, rfl⟩ := luaDualKey_eq_ok.mp h
    obtain ⟨k, hk, rfl⟩ := copyToKeyAction_integer.mp hn
    exact ⟨⟨k, hk⟩, k, tap', dual, rfl, hk.symm⟩
  · intro k hk
    have hn := copyToKeyAction_integer.mpr ⟨k, hk, rfl⟩
    exact ⟨_, luaDualKey_eq_ok.mpr
      ⟨tap', _, dual, htap, hn, hnodual, hnomap, rfl, hconfig, rfl⟩⟩

/-- The number that is tested here has 32 bits. -/
theorem argument_integer {fn : MacroFn} {before after : List LuaValue}
    (hopen : (argument fn before after).Open) (n : Int64) :
    (argument fn before after).Tests n n.toInt32.toInt := by
  have hne : ∀ v, before ++ v :: after ≠ [] := by simp
  obtain ⟨v, a, hcall⟩ := hopen
  obtain ⟨_, hchain, _⟩ := (MacroFn.call_eq_ok (hne v)).mp hcall
  obtain ⟨front, _, back, hfront, _, hback, _⟩ := appendCopies_argument.mp hchain
  apply tests_of_code
  · intro a h
    obtain ⟨_, hchain, rfl⟩ := (MacroFn.call_eq_ok (hne _)).mp h
    obtain ⟨front, _, back, hfront, hn, hback, rfl⟩ := appendCopies_argument.mp hchain
    obtain ⟨k, hk, rfl⟩ := appendCopyToMacro_integer.mp hn
    refine ⟨⟨k, hk⟩, k, front, back, hfront, hback, ?_, hk.symm⟩
    rw [List.append_assoc]
    rfl
  · intro k hk
    have hn := appendCopyToMacro_integer.mpr ⟨k, hk, rfl⟩
    have hchain := appendCopies_argument.mpr ⟨front, _, back, hfront, hn, hback, rfl⟩
    exact ⟨_, (MacroFn.call_eq_ok (hne _)).mpr ⟨_, hchain, rfl⟩⟩

/-- **One call.** Exactly if the number that is tested is a code, the call is accepted, and then
    this number is stored. -/
theorem call_integer {p : Place} (hopen : p.Open) (n : Int64) : p.Tests n (p.read n) := by
  cases p with
  | keymap before key after => exact keymap_integer hopen n
  | layer before key after => exact layer_integer hopen n
  | dualTap hold config => exact dualTap_integer hopen n
  | dualHold tap config => exact dualHold_integer hopen n
  | argument fn before after => exact argument_integer hopen n

theorem read_cases (p : Place) (n : Int64) : p.read n = n.toInt ∨ p.read n = n.toInt32.toInt := by
  cases p with
  | argument fn before after => exact .inr rfl
  | _ => exact .inl rfl

/-- `macro()` with one argument. -/
theorem argument_code {n : Int64} {k : KeyCode} (hk : n.toInt32.toInt = k.val) :
    (argument .luaMacro [] []).call (.integer n) = .ok (.ktMacro [⟨k, true⟩, ⟨k, false⟩]) := by
  have hn := appendCopyToMacro_integer.mpr ⟨k, hk, rfl⟩
  apply (MacroFn.call_eq_ok (by simp)).mpr
  exact ⟨_, appendCopies_argument.mpr ⟨[], _, [], rfl, hn, rfl, rfl⟩, rfl⟩

theorem open_argument : (argument .luaMacro [] []).Open :=
  ⟨.integer 30, _, argument_code (k := 30) (by decide)⟩

end Place

/-- **Agreement.** Plain keys and macros agree about exactly those integers that are key codes,
    or of which the lower half is none either. -/
theorem codes_agree_iff (n : Int64) :
    CodesAgree n ↔ IsCode n.toInt ∨ ¬ IsCode n.toInt32.toInt := by
  constructor
  · intro hagree
    by_cases hcode : IsCode n.toInt
    · exact .inl hcode
    · -- the only argument of `macro()`
      have hplace := (hagree _ Place.open_argument).1
      have hcall := (Place.call_integer Place.open_argument n).1
      exact .inr fun hlower => hcode (hplace.mp (hcall.mpr hlower))
  · intro hn p hopen
    have htests : p.Tests n (p.read n) := p.call_integer hopen n
    rcases p.read_cases n with hread | hread
    · rw [hread] at htests
      exact htests
    · rw [hread] at htests
      rcases hn with hcode | hnone
      · -- the lower half of a code is the code
        rw [hcode.toInt32] at htests
        exact htests
      · -- then both tests reject `n`
        have hnocode : ¬ IsCode n.toInt := by
          intro hcode
          have hlower := hcode.toInt32
          exact hnone (hlower ▸ hcode)
        obtain ⟨hcall, _⟩ := htests
        have hnocall : ∀ a, p.call (.integer n) ≠ .ok a := fun a h => hnone (hcall.mp ⟨a, h⟩)
        exact ⟨iff_of_false (fun ⟨a, h⟩ => hnocall a h) hnocode, fun a h => absurd h (hnocall a)⟩

/-- `macro(4294967326)` is `macro(30)`, while 4294967326 is not accepted as an action. -/
theorem codes_disagree :
    (Place.argument .luaMacro [] []).Open ∧
      (Place.argument .luaMacro [] []).call (.integer 4294967326) =
        .ok (.ktMacro [⟨30, true⟩, ⟨30, false⟩]) ∧
      (∀ ka, copyToKeyAction (.integer 4294967326) ≠ .ok ka) ∧ ¬ CodesAgree 4294967326 := by
  have hcall := Place.argument_code (n := 4294967326) (k := 30) (by decide)
  have hnocode : ¬ IsCode (4294967326 : Int64).toInt := by decide
  refine ⟨Place.open_argument, hcall, fun ka h => ?_, fun hagree => ?_⟩
  · obtain ⟨k, hk, _⟩ := copyToKeyAction_integer.mp h
    exact hnocode (isCode_iff.mpr ⟨k, hk⟩)
  · exact hnocode ((hagree _ Place.open_argument).1.mp ⟨_, hcall⟩)

end Sdiol
