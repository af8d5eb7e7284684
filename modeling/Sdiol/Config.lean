import Sdiol.KeyAction

namespace Sdiol

/-!
# Filling keymaps

`fill_action` and `fill_map` of `config.c`, which give every entry a script left unmapped a
meaning, and the keymap that `lua_grab_keyboard` builds with them.

A `Keymap` is a root map whose entries `copy_to_key_action` and `lua_dual_key` accept;
`Keymap.root` is that map after `fill_map(&grab->map, NULL)`.  `Keymap.root_filled` is the
typing invariant the resolver relies on, and `Keymap.root_allDuals` says that filling adds no
dual key.
-/

/-! ### `fill_action`, `fill_map` -/

/-- The filler `fill_map` computes for entry `i`: the key itself for a root map, a reference
    to the entry of `base` otherwise.  `none` when `base` is not a `KT_MAP`. -/
def mapFiller (base : Option KeyAction) : Option (KeyCode → KeyAction) :=
  match base with
  | none => some .ktSimple
  | some (.ktMap baseMap) => some fun i => .ktRef (baseMap i)
  | some _ => none

/-- `fill_action(tgt, base, filler)`; the last case is the call `fill_map(tgt, base)`. -/
def fillAction (tgt : KeyAction) (base : Option KeyAction) (filler : KeyAction) : KeyAction :=
  match tgt with
  | .ktNone | .ktRef _ => filler
  | .ktSimple c => .ktSimple c
  | .ktMacro chain => .ktMacro chain
  | .ktDual tap hold dual =>
      .ktDual (fillAction tap base filler) (fillAction hold base filler) dual
  | .ktMap map =>
      match mapFiller base with
      | some fillerOf => .ktMap fun i => fillAction (map i) base (fillerOf i)
      | none => .ktMap map

/-- `fill_map(tgt, base)`: fill every `KT_NONE` of a map. -/
def fillMap (tgt : KeyAction) (base : Option KeyAction) : KeyAction :=
  match tgt with
  | .ktMap map =>
      match mapFiller base with
      | some fillerOf => .ktMap fun i => fillAction (map i) base (fillerOf i)
      | none => .ktMap map
  | _ => tgt

/-- The two functions call each other on maps. -/
theorem fillAction_ktMap (map : KeyCode → KeyAction) (base : Option KeyAction)
    (filler : KeyAction) : fillAction (.ktMap map) base filler = fillMap (.ktMap map) base := by
  simp only [fillAction, fillMap]

/-! ### Filling below a root map -/

/-- Filling with a simple key changes the type of `KT_NONE` only. -/
theorem fillAction_isDual (tgt : KeyAction) (i : KeyCode) :
    (fillAction tgt none (.ktSimple i)).isDual = tgt.isDual := by
  cases tgt <;> rfl

theorem fillAction_isMap (tgt : KeyAction) (i : KeyCode) :
    (fillAction tgt none (.ktSimple i)).isMap = tgt.isMap := by
  cases tgt <;> rfl

theorem fillAction_filled {tgt : KeyAction} (i : KeyCode) (h : tgt.Accepted) :
    (fillAction tgt none (.ktSimple i)).Filled := by
  induction tgt generalizing i with
  | ktNone => trivial
  | ktRef ref _ => exact h.elim
  | ktSimple c => trivial
  | ktMacro chain => exact BuiltChain.balanced h
  | ktDual tap hold dual ihTap ihHold =>
    obtain ⟨⟨h₁, h₂, h₃⟩, _, hTap, hHold⟩ := h
    refine ⟨⟨?_, ?_, ?_⟩, ihTap i hTap, ihHold i hHold⟩
    · rw [fillAction_isDual]; exact h₁
    · rw [fillAction_isMap]; exact h₂
    · rw [fillAction_isDual]; exact h₃
  | ktMap map ih => exact fun j => ih j j (h j)

theorem fillAction_allDuals {P : DualConfig → Prop} {tgt : KeyAction} (i : KeyCode)
    (h : tgt.AllDuals P) : (fillAction tgt none (.ktSimple i)).AllDuals P := by
  induction tgt generalizing i with
  | ktNone => trivial
  | ktRef ref _ => trivial
  | ktSimple c => trivial
  | ktMacro chain => trivial
  | ktDual tap hold dual ihTap ihHold => exact ⟨h.1, ihTap i h.2.1, ihHold i h.2.2⟩
  | ktMap map ih => exact fun j => ih j j (h j)

/-! ### The keymap of a grab -/

/-- The second argument of `grab_keyboard`, once accepted. -/
structure Keymap where
  entries : KeyCode → KeyAction
  accepted : ∀ i, (entries i).Accepted

/-- `grab->map` after `fill_map(&grab->map, NULL)`. -/
def Keymap.root (km : Keymap) : KeyAction := fillMap (.ktMap km.entries) none

/-- The filled entries of a keymap. -/
def Keymap.rootMap (km : Keymap) (i : KeyCode) : KeyAction :=
  fillAction (km.entries i) none (.ktSimple i)

theorem Keymap.root_eq (km : Keymap) : km.root = .ktMap km.rootMap := rfl

/-- The keymap of a table of accepted actions. -/
def Keymap.ofTable (table : List (KeyCode × KeyAction)) (h : ∀ b ∈ table, b.2.Accepted) :
    Keymap := ⟨tableMap table, tableMap_forall trivial h⟩

/-- Key 45 types 45 when it is tapped and is left shift, 42, when it is held. -/
def shiftOn45 (mode : DualMode) : Keymap :=
  .ofTable [(45, .ktDual (.ktSimple 45) (.ktSimple 42) ⟨mode, 200, 300⟩)] (by
    intro b hb
    obtain rfl := List.mem_singleton.mp hb
    have htimes : (1 : Int) ≤ 200 ∧ (-1 : Int) ≤ 300 := by decide
    exact ⟨⟨rfl, rfl, rfl⟩, htimes, trivial, trivial⟩)

/-- **Typing.** Nothing the resolver can meet in a filled keymap is unmapped or ill-formed. -/
theorem Keymap.root_filled (km : Keymap) : km.root.Filled :=
  fun i => fillAction_filled i (km.accepted i)

theorem Keymap.root_allDuals {P : DualConfig → Prop} (km : Keymap)
    (h : ∀ i, (km.entries i).AllDuals P) : km.root.AllDuals P :=
  fun i => fillAction_allDuals i (h i)

theorem shiftOn45_allDuals {P : DualConfig → Prop} {mode : DualMode} (h : P ⟨mode, 200, 300⟩) :
    (shiftOn45 mode).root.AllDuals P :=
  Keymap.root_allDuals _ (tableMap_forall trivial (by
    intro b hb
    obtain rfl := List.mem_singleton.mp hb
    exact ⟨h, trivial, trivial⟩))

end Sdiol
