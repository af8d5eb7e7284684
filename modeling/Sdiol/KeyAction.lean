import Sdiol.Event
import Sdiol.Lib.Counter

namespace Sdiol

/-!
# Key actions

`key_action.h` and `key_action.c`: what a key can be bound to, and the lookup the resolver
performs.  A C pointer to an action is modelled by the action it points to, so a keymap is a
tree; an array of `KEY_MAX` actions is a function on key codes.
-/

/-- `struct key_macro_t` without its `next` pointer: one generated press or release. -/
structure MacroEvent where
  code : KeyCode
  press : Bool
deriving DecidableEq

/-- `dual_key_mode_t` -/
inductive DualMode where
  | tapOnRollover
  | holdOnRollover
  | timeoutOnly
deriving DecidableEq

/-- The scalar members of `key_dual_t`. -/
structure DualConfig where
  mode : DualMode
  holdMs : Int
  doubleTapMs : Int
deriving DecidableEq

/-- `struct key_action_t`, one constructor for each `enum key_type`.  A `KT_NONE` is
    `ktNone` while its `key.ref` is `NULL` and `ktRef a` once it points to `a`.  The `int`
    of a `KT_SIMPLE` is only ever stored after a check against `KEY_MAX`. -/
inductive KeyAction where
  | ktNone
  | ktRef (ref : KeyAction)
  | ktSimple (simple : KeyCode)
  | ktMacro (chain : List MacroEvent)
  | ktDual (tap hold : KeyAction) (dual : DualConfig)
  | ktMap (map : KeyCode → KeyAction)

namespace KeyAction

/-- `ka->type == KT_NONE` -/
def isNone : KeyAction → Bool
  | ktNone | ktRef _ => true
  | _ => false

/-- `ka->type == KT_MACRO` -/
def isMacro : KeyAction → Bool
  | ktMacro _ => true
  | _ => false

/-- `ka->type == KT_MAP` -/
def isMap : KeyAction → Bool
  | ktMap _ => true
  | _ => false

/-- `ka->type == KT_DUAL` -/
def isDual : KeyAction → Bool
  | ktDual .. => true
  | _ => false

end KeyAction

/-! ### `key_action_get` -/

/-- The loop of `key_action_get` with `tries` iterations left. -/
def keyActionGetLoop : Nat → KeyAction → KeyCode → Except Abort KeyAction
  | 0, _, _ => .error .infiniteRecursion
  | tries + 1, ka, i =>
    match ka with
    | .ktSimple _ | .ktMacro _ | .ktDual .. => .ok ka
    | .ktMap map => .ok (map i)
    -- try again with another deref
    | .ktRef ref => keyActionGetLoop tries ref i
    | .ktNone => .error .nullDereference

/-- `key_action_get`: the action a keymap holds for key `i`. -/
def keyActionGet (ka : KeyAction) (i : KeyCode) : Except Abort KeyAction :=
  keyActionGetLoop 32 ka i

@[simp] theorem keyActionGet_ktMap (map : KeyCode → KeyAction) (i : KeyCode) :
    keyActionGet (.ktMap map) i = .ok (map i) := rfl

/-! ### Macro chains -/

/-- The presses (`true`) and releases (`false`) of code `c` in a macro chain. -/
def chainEdges (c : KeyCode) (chain : List MacroEvent) : List Bool :=
  chain.filterMap fun m => if m.code = c then some m.press else none

/-- Every code of the chain is pressed before it is released, and released in the end. -/
def BalancedChain (chain : List MacroEvent) : Prop :=
  ∀ c, Counter.Balanced (chainEdges c chain)

/-- The chains `lua_macro` and the functions of `DEF_LUA_MOD` can build. -/
inductive BuiltChain : List MacroEvent → Prop
  /-- `append_simple_key_to_macro` -/
  | key (c : KeyCode) : BuiltChain [⟨c, true⟩, ⟨c, false⟩]
  /-- the copies of all arguments, one after the other -/
  | append {chain₁ chain₂ : List MacroEvent} (h₁ : BuiltChain chain₁) (h₂ : BuiltChain chain₂) :
      BuiltChain (chain₁ ++ chain₂)
  /-- the arguments between the press and the release of a modifier -/
  | modified (c : KeyCode) {chain : List MacroEvent} (h : BuiltChain chain) :
      BuiltChain (⟨c, true⟩ :: (chain ++ [⟨c, false⟩]))

/-- **Macros are balanced.** Whatever a script builds presses before it releases, and
    releases whatever it presses. -/
theorem BuiltChain.balanced {chain : List MacroEvent} (h : BuiltChain chain) :
    BalancedChain chain := by
  induction h with
  | key d =>
    intro c
    by_cases hc : d = c
    · simpa [chainEdges, hc] using Counter.balanced_nil.wrap
    · simpa [chainEdges, hc] using Counter.balanced_nil
  | append _ _ ih₁ ih₂ =>
    intro c
    have happ := (ih₁ c).append (ih₂ c)
    rwa [chainEdges, List.filterMap_append]
  | modified d _ ih =>
    intro c
    by_cases hc : d = c
    · simpa [chainEdges, hc] using (ih c).wrap
    · simpa [chainEdges, hc] using ih c

/-! ### Shapes of key actions -/

namespace KeyAction

/-- What `copy_to_key_action` and `lua_dual_key` let into a keymap: the tap of a dual key is
    neither a dual key nor a map, its hold is not a dual key, its times are in range, and a
    macro is one that scripts can build.  Nothing refers to anything yet. -/
def Accepted : KeyAction → Prop
  | ktNone => True
  | ktRef _ => False
  | ktSimple _ => True
  | ktMacro chain => BuiltChain chain
  | ktDual tap hold dual =>
      (tap.isDual = false ∧ tap.isMap = false ∧ hold.isDual = false) ∧
      (1 ≤ dual.holdMs ∧ -1 ≤ dual.doubleTapMs) ∧ tap.Accepted ∧ hold.Accepted
  | ktMap map => ∀ i, (map i).Accepted

/-- What the resolver relies on: no `KT_NONE` at any depth, the tap of a dual key is a simple
    key or a macro, its hold is not a dual key, and macros are balanced. -/
def Filled : KeyAction → Prop
  | ktNone => False
  | ktRef _ => False
  | ktSimple _ => True
  | ktMacro chain => BalancedChain chain
  | ktDual tap hold _ =>
      (tap.isDual = false ∧ tap.isMap = false ∧ hold.isDual = false) ∧ tap.Filled ∧ hold.Filled
  | ktMap map => ∀ i, (map i).Filled

/-- Every dual key satisfies `P`, at any depth. -/
def AllDuals (P : DualConfig → Prop) : KeyAction → Prop
  | ktNone => True
  | ktRef _ => True
  | ktSimple _ => True
  | ktMacro _ => True
  | ktDual tap hold dual => P dual ∧ tap.AllDuals P ∧ hold.AllDuals P
  | ktMap map => ∀ i, (map i).AllDuals P

/-- Only `TAP_ON_ROLLOVER` and `HOLD_ON_ROLLOVER` dual keys, at any depth. -/
def NoTimeoutOnly : KeyAction → Prop := AllDuals fun dual => dual.mode ≠ .timeoutOnly

end KeyAction

/-- The entries of a map that binds the keys of a table and leaves every other key
    `KT_NONE`. -/
def tableMap (table : List (KeyCode × KeyAction)) (i : KeyCode) : KeyAction :=
  match table.find? fun b => b.1 == i with
  | some b => b.2
  | none   => .ktNone

/-- What holds of `KT_NONE` and of every bound action holds of every entry. -/
theorem tableMap_forall {P : KeyAction → Prop} (hnone : P .ktNone)
    {table : List (KeyCode × KeyAction)} (h : ∀ b ∈ table, P b.2) (i : KeyCode) :
    P (tableMap table i) := by
  unfold tableMap
  split
  · rename_i b hb
    exact h b (List.mem_of_find?_eq_some hb)
  · exact hnone

end Sdiol
