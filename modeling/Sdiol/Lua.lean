import Sdiol.Config
import Sdiol.Names
import Sdiol.Lib.Steps

namespace Sdiol

/-!
# What a configuration script can build

The functions of `config.c` that a Lua script calls, over the Lua values they look at.  A table
is the list of its entries in the order in which `lua_next` visits them, and a `userdata` is the
key action it holds.  Failures of `malloc` are left out: they end in a Lua error, like every
other failure, and the script that is run gets nothing.

`Scripted v` says that a script can build `v`; it may use a value any number of times.
`copyToKeyAction_accepted` is the invariant all those functions keep together, and
`luaGrabKeyboard_keymap` what `grab_keyboard` makes of a value it accepts.
-/

/-! ### Lua values -/

/-- A key of a table.  `lua_isstring` accepts numbers as well as strings and `lua_tolstring`
    gives the digits, so that a number is a `text`, too. -/
inductive TableKey where
  | text (name : List UInt8)
  | other

/-- A Lua value, as far as `config.c` looks at it. -/
inductive LuaValue where
  | nil
  | integer (n : Int64)
  | table (entries : List (TableKey × LuaValue))
  | userdata (ka : KeyAction)
  /-- a boolean, a float, a string, a function, a thread -/
  | other

/-- Why a call fails. -/
inductive ConfigError where
  /-- "Invalid key code: %d" -/
  | invalidKeyCode
  /-- "no key with name %s" -/
  | noKeyWithName
  /-- "invalid key type in keymap, must be string or number" -/
  | invalidKeyType
  /-- "unallowed type in copy_to_key_action()" and in `append_copy_to_macro()` -/
  | unallowedType
  /-- "macro() requires at least one argument", and so for `shift()`, `ctrl()`, … -/
  | noArgument
  /-- "dual_key() requires two or three arguments" -/
  | dualKeyArguments
  /-- "dual_key() argument 1 cannot be another dual_key or a keymap" -/
  | dualKeyTap
  /-- "dual_key() argument 2 cannot be another dual_key" -/
  | dualKeyHold
  /-- `DUAL_KEY_CONFIG_BAD_TYPE` -/
  | configBadType
  /-- `DUAL_KEY_INVALID_MODE` -/
  | invalidMode
  /-- `DUAL_KEY_INVALID_HOLD_MS` -/
  | invalidHoldMs
  /-- `DUAL_KEY_INVALID_DOUBLE_TAP_MS` -/
  | invalidDoubleTapMs
  /-- "argument 2 of grab_keyboard must be a table" -/
  | notATable
deriving DecidableEq

/-- The bytes a C function reads of a string. -/
def untilNul (name : List UInt8) : List UInt8 := name.takeWhile fun c => c ≠ 0

theorem tableKey_inRange (name : List UInt8) :
    (getInputValue (untilNul name)).toNat < keyMax :=
  getInputValue_inRange (untilNul name)

/-! ### `copy_to_key_action` -/

/-- The test `n < 0 || n >= KEY_MAX`. -/
def checkedCode (n : Int) : Except ConfigError KeyCode :=
  if h : 0 ≤ n ∧ n < keyMax then .ok ⟨n.toNat, by omega⟩ else .error .invalidKeyCode

/-- `key_action_dup`: a deep copy. -/
def keyActionDup : KeyAction → KeyAction
  | .ktNone => .ktNone
  | .ktRef ref => .ktRef ref
  | .ktSimple c => .ktSimple c
  | .ktMacro chain => .ktMacro chain
  | .ktDual tap hold dual => .ktDual (keyActionDup tap) (keyActionDup hold) dual
  | .ktMap map => .ktMap fun i => keyActionDup (map i)

mutual

/-- `copy_to_key_action` -/
def copyToKeyAction : LuaValue → Except ConfigError KeyAction
  -- nil objects are actually valid
  | .nil => .ok .ktNone
  | .integer n => do
    let c ← checkedCode n.toInt
    .ok (.ktSimple c)
  | .table entries => do
    let map ← extractTableToKeyMap entries fun _ => .ktNone
    .ok (.ktMap map)
  | .userdata ka => .ok (keyActionDup ka)
  | .other => .error .unallowedType

/-- `extract_table_to_key_map`.  Its branch for keys that are integers is never reached, as
    those are strings to `lua_isstring`. -/
def extractTableToKeyMap :
    List (TableKey × LuaValue) → (KeyCode → KeyAction) → Except ConfigError (KeyCode → KeyAction)
  | [], map => .ok map
  | (.text name, value) :: entries, map =>
    let key := getInputValue (untilNul name)
    if key = 0 then .error .noKeyWithName
    else do
      let ka ← copyToKeyAction value
      let i : KeyCode := ⟨key.toNat, tableKey_inRange name⟩
      extractTableToKeyMap entries (Function.update map i ka)
  | (.other, _) :: _, _ => .error .invalidKeyType

end

/-! ### `macro()` and the modifiers -/

/-- `append_simple_key_to_macro` -/
def appendSimpleKeyToMacro (n : Int) : Except ConfigError (List MacroEvent) := do
  let c ← checkedCode n
  .ok [⟨c, true⟩, ⟨c, false⟩]

/-- `append_copy_to_macro`: what it appends.  The `lua_Integer` is cut down to an `int`. -/
def appendCopyToMacro : LuaValue → Except ConfigError (List MacroEvent)
  | .integer n => appendSimpleKeyToMacro n.toInt32.toInt
  | .userdata (.ktSimple c) => appendSimpleKeyToMacro c.val
  | .userdata (.ktMacro chain) => .ok chain
  | _ => .error .unallowedType

/-- The loop over the arguments: copies of all of them, one after the other. -/
def appendCopies : List LuaValue → Except ConfigError (List MacroEvent)
  | [] => .ok []
  | arg :: args => do
    let chain ← appendCopyToMacro arg
    let rest ← appendCopies args
    .ok (chain ++ rest)

/-- `lua_macro` -/
def luaMacro (args : List LuaValue) : Except ConfigError LuaValue :=
  if args = [] then .error .noArgument
  else do
    let chain ← appendCopies args
    .ok (.userdata (.ktMacro chain))

/-- `DEF_LUA_MOD(name, num)` -/
def luaMod (num : KeyCode) (args : List LuaValue) : Except ConfigError LuaValue :=
  if args = [] then .error .noArgument
  else do
    let chain ← appendCopies args
    .ok (.userdata (.ktMacro (⟨num, true⟩ :: (chain ++ [⟨num, false⟩]))))

def luaShift : List LuaValue → Except ConfigError LuaValue := luaMod 42
def luaCtrl : List LuaValue → Except ConfigError LuaValue := luaMod 29
def luaAlt : List LuaValue → Except ConfigError LuaValue := luaMod 56
def luaMeta : List LuaValue → Except ConfigError LuaValue := luaMod 125

/-! ### `dual_key()` -/

/-- A `dual_key_mode_t` from its number. -/
def dualKeyMode (n : Int) : Option DualMode :=
  if n = 0 then some .tapOnRollover
  else if n = 1 then some .holdOnRollover
  else if n = 2 then some .timeoutOnly
  else none

/-- `strncmp(s, key, keylen) == 0` for a `key` of `keylen` bytes: `key` is as long as `s` or
    shorter and agrees with it, or agrees with it up to the byte 0 that ends `s`. -/
def strncmpEq : List UInt8 → List UInt8 → Bool
  | _, [] => true
  | [], k :: _ => k == 0
  | c :: s, k :: key => c == k && strncmpEq s key

/-- The defaults of `lua_dual_key`. -/
def defaultDual : DualConfig := ⟨.tapOnRollover, 200, 300⟩

/-- The body of the loop of `read_dual_key_config`. -/
def readConfigEntry (key : TableKey) (value : LuaValue) (dual : DualConfig) :
    Except ConfigError DualConfig :=
  match key with
  -- all keys must be strings
  | .other => .error .configBadType
  | .text key =>
    if strncmpEq "MODE".toUTF8.toList key then
      match value with
      | .integer n =>
        match dualKeyMode n.toInt with
        | some mode => .ok { dual with mode }
        | none => .error .invalidMode
      | _ => .error .invalidMode
    else if strncmpEq "HOLD_MS".toUTF8.toList key then
      match value with
      -- hold_ms must be positive
      | .integer n =>
        if n.toInt < 1 then .error .invalidHoldMs else .ok { dual with holdMs := n.toInt }
      | _ => .error .invalidHoldMs
    else if strncmpEq "DOUBLE_TAP_MS".toUTF8.toList key then
      match value with
      -- double_tap_ms must be positive, 0, or -1
      | .integer n =>
        if n.toInt < -1 then .error .invalidDoubleTapMs
        else .ok { dual with doubleTapMs := n.toInt }
      | _ => .error .invalidDoubleTapMs
    -- unrecognized key
    else .error .configBadType

/-- The loop of `read_dual_key_config`. -/
def readConfigEntries :
    List (TableKey × LuaValue) → DualConfig → Except ConfigError DualConfig
  | [], dual => .ok dual
  | (key, value) :: entries, dual => do
    let dual ← readConfigEntry key value dual
    readConfigEntries entries dual

/-- `read_dual_key_config` -/
def readDualKeyConfig (config : LuaValue) (dual : DualConfig) : Except ConfigError DualConfig :=
  match config with
  -- deprecated support for MODE as the third arg
  | .integer n =>
    match dualKeyMode n.toInt with
    | some mode => .ok { dual with mode }
    | none => .error .configBadType
  | .table entries => readConfigEntries entries dual
  | _ => .error .configBadType

/-- What the third argument of `lua_dual_key`, if there is one, makes of the defaults. -/
def dualKeyConfig : Option LuaValue → Except ConfigError DualConfig
  | some config => readDualKeyConfig config defaultDual
  | none => .ok defaultDual

/-- `lua_dual_key` after its arguments were counted. -/
def dualKey (tap hold : LuaValue) (config : Option LuaValue) : Except ConfigError LuaValue := do
  let tap ← copyToKeyAction tap
  let hold ← copyToKeyAction hold
  if tap.isDual ∨ tap.isMap then .error .dualKeyTap
  else if hold.isDual then .error .dualKeyHold
  else do
    let dual ← dualKeyConfig config
    .ok (.userdata (.ktDual tap hold dual))

/-- `lua_dual_key` -/
def luaDualKey : List LuaValue → Except ConfigError LuaValue
  | [tap, hold] => dualKey tap hold none
  | [tap, hold, config] => dualKey tap hold (some config)
  | _ => .error .dualKeyArguments

/-! ### `grab_keyboard()` -/

/-- `lua_grab_keyboard`: the keymap it makes of its second argument. -/
def luaGrabKeyboard (keymap : LuaValue) : Except ConfigError KeyAction := do
  let map ← copyToKeyAction keymap
  if map.isMap then
    -- fill in the KT_NONE values (which should have fall-through behavior)
    .ok (fillMap map none)
  else .error .notATable

/-- The values a script can build. -/
inductive Scripted : LuaValue → Prop
  | nil : Scripted .nil
  | integer (n : Int64) : Scripted (.integer n)
  | other : Scripted .other
  | table {entries : List (TableKey × LuaValue)} (h : ∀ entry ∈ entries, Scripted entry.2) :
      Scripted (.table entries)
  | chain {args : List LuaValue} {v : LuaValue} (hargs : ∀ arg ∈ args, Scripted arg)
      (h : luaMacro args = .ok v) : Scripted v
  | modified {mod : List LuaValue → Except ConfigError LuaValue} {args : List LuaValue}
      {v : LuaValue} (hmod : mod ∈ [luaShift, luaCtrl, luaAlt, luaMeta])
      (hargs : ∀ arg ∈ args, Scripted arg) (h : mod args = .ok v) : Scripted v
  | dualKey {args : List LuaValue} {v : LuaValue} (hargs : ∀ arg ∈ args, Scripted arg)
      (h : luaDualKey args = .ok v) : Scripted v

/-! ### What they build -/

@[simp] theorem keyActionDup_eq (ka : KeyAction) : keyActionDup ka = ka := by
  induction ka with
  | ktNone => rfl
  | ktRef ref _ => rfl
  | ktSimple c => rfl
  | ktMacro chain => rfl
  | ktDual tap hold dual ihTap ihHold => rw [keyActionDup, ihTap, ihHold]
  | ktMap map ih => rw [keyActionDup, funext ih]

theorem copyToKeyAction_userdata (ka : KeyAction) :
    copyToKeyAction (.userdata ka) = .ok ka := by
  rw [copyToKeyAction, keyActionDup_eq]

theorem extractTableToKeyMap_text {name : List UInt8} {value : LuaValue}
    {entries : List (TableKey × LuaValue)} {map map' : KeyCode → KeyAction}
    (h : extractTableToKeyMap ((.text name, value) :: entries) map = .ok map') :
    ∃ ka i, copyToKeyAction value = .ok ka ∧
      extractTableToKeyMap entries (Function.update map i ka) = .ok map' := by
  rw [extractTableToKeyMap] at h
  simp only at h
  split at h
  · exact absurd h (by simp)
  · obtain ⟨ka, hka, h⟩ := Steps.bind_eq_ok.mp h
    exact ⟨ka, _, hka, h⟩

/-- **Tables.** If every value of a table is copied to an accepted action, then every entry of
    the map is accepted. -/
theorem extractTableToKeyMap_accepted {entries : List (TableKey × LuaValue)}
    (hentries : ∀ entry ∈ entries, ∀ ka, copyToKeyAction entry.2 = .ok ka → ka.Accepted)
    {map map' : KeyCode → KeyAction} (hmap : ∀ i, (map i).Accepted)
    (h : extractTableToKeyMap entries map = .ok map') : ∀ i, (map' i).Accepted := by
  induction entries generalizing map with
  | nil =>
    rw [extractTableToKeyMap] at h
    cases h
    exact hmap
  | cons entry entries ih =>
    obtain ⟨key, value⟩ := entry
    obtain ⟨hvalue, hrest⟩ := List.forall_mem_cons.mp hentries
    cases key with
    | other => exact absurd h (by simp [extractTableToKeyMap])
    | text name =>
      obtain ⟨ka, i, hka, h⟩ := extractTableToKeyMap_text h
      have hupdate : ∀ j, (Function.update map i ka j).Accepted :=
        (Function.forall_update_iff map fun _ a => a.Accepted).mpr
          ⟨hvalue ka hka, fun j _ => hmap j⟩
      exact ih hrest hupdate h

theorem appendSimpleKeyToMacro_built {n : Int} {chain : List MacroEvent}
    (h : appendSimpleKeyToMacro n = .ok chain) : BuiltChain chain := by
  obtain ⟨c, _, h⟩ := Steps.bind_eq_ok.mp h
  cases h
  exact .key c

/-- **Arguments.** What is copied of an argument is a chain that presses before it releases. -/
theorem appendCopyToMacro_built {arg : LuaValue}
    (harg : ∀ ka, copyToKeyAction arg = .ok ka → ka.Accepted) {chain : List MacroEvent}
    (h : appendCopyToMacro arg = .ok chain) : BuiltChain chain := by
  unfold appendCopyToMacro at h
  split at h
  · exact appendSimpleKeyToMacro_built h
  · exact appendSimpleKeyToMacro_built h
  · cases h
    exact harg _ (copyToKeyAction_userdata _)
  · exact absurd h (by simp)

theorem appendCopies_built {args : List LuaValue} (hne : args ≠ [])
    (hargs : ∀ arg ∈ args, ∀ ka, copyToKeyAction arg = .ok ka → ka.Accepted)
    {chain : List MacroEvent} (h : appendCopies args = .ok chain) : BuiltChain chain := by
  induction args generalizing chain with
  | nil => exact absurd rfl hne
  | cons arg args ih =>
    obtain ⟨harg, hargs⟩ := List.forall_mem_cons.mp hargs
    obtain ⟨c, hc, h⟩ := Steps.bind_eq_ok.mp h
    obtain ⟨rest, hrest, h⟩ := Steps.bind_eq_ok.mp h
    cases h
    have hbuilt := appendCopyToMacro_built harg hc
    by_cases hlast : args = []
    · subst hlast
      cases hrest
      rwa [List.append_nil]
    · exact hbuilt.append (ih hlast hargs hrest)

theorem luaMacro_accepted {args : List LuaValue} {v : LuaValue}
    (hargs : ∀ arg ∈ args, ∀ ka, copyToKeyAction arg = .ok ka → ka.Accepted)
    (h : luaMacro args = .ok v) : ∃ ka, v = .userdata ka ∧ ka.Accepted := by
  unfold luaMacro at h
  split at h
  · exact absurd h (by simp)
  · rename_i hne
    obtain ⟨chain, hchain, h⟩ := Steps.bind_eq_ok.mp h
    cases h
    exact ⟨_, rfl, appendCopies_built hne hargs hchain⟩

theorem luaMod_accepted {num : KeyCode} {args : List LuaValue} {v : LuaValue}
    (hargs : ∀ arg ∈ args, ∀ ka, copyToKeyAction arg = .ok ka → ka.Accepted)
    (h : luaMod num args = .ok v) : ∃ ka, v = .userdata ka ∧ ka.Accepted := by
  unfold luaMod at h
  split at h
  · exact absurd h (by simp)
  · rename_i hne
    obtain ⟨chain, hchain, h⟩ := Steps.bind_eq_ok.mp h
    cases h
    exact ⟨_, rfl, (appendCopies_built hne hargs hchain).modified num⟩

/-- The times `lua_dual_key` accepts. -/
def DualConfig.TimesInRange (dual : DualConfig) : Prop := 1 ≤ dual.holdMs ∧ -1 ≤ dual.doubleTapMs

theorem readConfigEntry_inRange {key : TableKey} {value : LuaValue} {dual dual' : DualConfig}
    (hdual : dual.TimesInRange) (h : readConfigEntry key value dual = .ok dual') :
    dual'.TimesInRange := by
  unfold readConfigEntry at h
  split at h
  · exact absurd h (by simp)
  split at h
  · -- MODE
    split at h
    · split at h
      · cases h
        exact hdual
      · exact absurd h (by simp)
    · exact absurd h (by simp)
  split at h
  · -- HOLD_MS
    split at h
    · split at h
      · exact absurd h (by simp)
      · cases h
        exact ⟨by simp only; omega, hdual.2⟩
    · exact absurd h (by simp)
  split at h
  · -- DOUBLE_TAP_MS
    split at h
    · split at h
      · exact absurd h (by simp)
      · cases h
        exact ⟨hdual.1, by simp only; omega⟩
    · exact absurd h (by simp)
  · exact absurd h (by simp)

theorem readDualKeyConfig_inRange {config : LuaValue} {dual dual' : DualConfig}
    (hdual : dual.TimesInRange) (h : readDualKeyConfig config dual = .ok dual') :
    dual'.TimesInRange := by
  unfold readDualKeyConfig at h
  split at h
  · split at h
    · cases h
      exact hdual
    · exact absurd h (by simp)
  · rename_i entries
    induction entries generalizing dual with
    | nil =>
      cases h
      exact hdual
    | cons entry entries ih =>
      obtain ⟨dual₁, h₁, h⟩ := Steps.bind_eq_ok.mp h
      exact ih (readConfigEntry_inRange hdual h₁) h
  · exact absurd h (by simp)

theorem defaultDual_inRange : defaultDual.TimesInRange := by
  show (1 : Int) ≤ 200 ∧ (-1 : Int) ≤ 300
  decide

theorem dualKey_accepted {tap hold v : LuaValue} {config : Option LuaValue}
    (htap : ∀ ka, copyToKeyAction tap = .ok ka → ka.Accepted)
    (hhold : ∀ ka, copyToKeyAction hold = .ok ka → ka.Accepted)
    (h : dualKey tap hold config = .ok v) : ∃ ka, v = .userdata ka ∧ ka.Accepted := by
  obtain ⟨tap', ht, h⟩ := Steps.bind_eq_ok.mp h
  obtain ⟨hold', hh, h⟩ := Steps.bind_eq_ok.mp h
  split at h
  · exact absurd h (by simp)
  rename_i hbad
  split at h
  · exact absurd h (by simp)
  rename_i hdual
  obtain ⟨dual, hconfig, h⟩ := Steps.bind_eq_ok.mp h
  cases h
  have htimes : dual.TimesInRange := by
    cases config with
    | none =>
      cases hconfig
      exact defaultDual_inRange
    | some config => exact readDualKeyConfig_inRange defaultDual_inRange hconfig
  have hshape : tap'.isDual = false ∧ tap'.isMap = false ∧ hold'.isDual = false := by
    simpa [not_or, and_assoc] using And.intro hbad hdual
  exact ⟨_, rfl, hshape, htimes, htap _ ht, hhold _ hh⟩

/-- **Everything scripts build.** Whatever `copy_to_key_action` makes of a value that a script
    can build is accepted. -/
theorem copyToKeyAction_accepted {v : LuaValue} (hv : Scripted v) :
    ∀ ka, copyToKeyAction v = .ok ka → ka.Accepted := by
  -- a userdata is copied as it is
  have huserdata : ∀ {v : LuaValue} {ka : KeyAction}, (∃ a, v = .userdata a ∧ a.Accepted) →
      copyToKeyAction v = .ok ka → ka.Accepted := by
    rintro _ ka ⟨a, rfl, ha⟩ h
    rw [copyToKeyAction_userdata] at h
    cases h
    exact ha
  induction hv with
  | nil =>
    intro ka h
    rw [copyToKeyAction] at h
    cases h
    trivial
  | integer n =>
    intro ka h
    rw [copyToKeyAction] at h
    obtain ⟨c, _, h⟩ := Steps.bind_eq_ok.mp h
    cases h
    trivial
  | other =>
    intro ka h
    exact absurd h (by simp [copyToKeyAction])
  | table _ ih =>
    intro ka h
    rw [copyToKeyAction] at h
    obtain ⟨map, hmap, h⟩ := Steps.bind_eq_ok.mp h
    cases h
    exact extractTableToKeyMap_accepted ih
      (fun _ => show KeyAction.ktNone.Accepted from trivial) hmap
  | chain _ h ih => exact fun ka => huserdata (luaMacro_accepted ih h)
  | modified hmod _ h ih =>
    intro ka
    simp only [List.mem_cons, List.not_mem_nil, or_false] at hmod
    rcases hmod with rfl | rfl | rfl | rfl <;> exact huserdata (luaMod_accepted ih h)
  | dualKey _ h ih =>
    intro ka
    unfold luaDualKey at h
    split at h
    · exact huserdata (dualKey_accepted (ih _ (by simp)) (ih _ (by simp)) h)
    · exact huserdata (dualKey_accepted (ih _ (by simp)) (ih _ (by simp)) h)
    · exact absurd h (by simp)

/-- **`grab_keyboard`.** What it accepts of a script is the root of a keymap. -/
theorem luaGrabKeyboard_keymap {v : LuaValue} {root : KeyAction} (hv : Scripted v)
    (h : luaGrabKeyboard v = .ok root) : ∃ km : Keymap, root = km.root := by
  obtain ⟨ka, hka, h⟩ := Steps.bind_eq_ok.mp h
  have haccepted := copyToKeyAction_accepted hv ka hka
  cases ka with
  | ktMap map =>
    cases h
    exact ⟨⟨map, haccepted⟩, rfl⟩
  | _ => exact absurd h (by simp [KeyAction.isMap])

end Sdiol
