import Sdiol.Config
import Sdiol.Lib.Heap

namespace Sdiol

/-!
# Key actions in memory

`key_action.c` with its pointers: what `KeyAction` abstracts to a tree is here a `Cell`, which is
a `key_action_t`, and the blocks of a heap that it points to.

A function that is given memory it must not touch (a block that was freed, a `NULL` that it
dereferences, a chain that goes around in circles) has no result, `none`.  `key_action_dup`
gives back the number it returns and what it leaves in `*out`; its callers store that where
`out` points to.

A recursion or a loop over pointers takes the number of steps it may make.
-/

/-- `key_action_t`, one constructor for each `enum key_type`. -/
inductive Cell where
  | ktNone (ref : Option Nat)
  | ktSimple (simple : KeyCode)
  | ktMacro (chain : Option Nat)
  | ktDual (tap hold : Nat) (dual : DualConfig)
  | ktMap (map : Nat)

/-- What `malloc` is called for: a `key_macro_t`, a `key_action_t`, `KEY_MAX` of them. -/
inductive Block where
  | event (m : MacroEvent) (next : Option Nat)
  | action (ka : Cell)
  | actions (map : KeyCode → Cell)

/-- The memory of the configuration. -/
abbrev Mem := Heap Block

/-- `(key_action_t){0}` -/
def Cell.zero : Cell := .ktNone none

/-- The values of `i` in `for(size_t i = 0; i < KEY_MAX; i++)`. -/
@[irreducible] def indices : List KeyCode := List.finRange keyMax

theorem mem_indices (i : KeyCode) : i ∈ indices := by
  unfold indices
  exact List.mem_finRange i

theorem nodup_indices : indices.Nodup := by
  unfold indices
  exact List.nodup_finRange keyMax

/-- The loop starts at 0. -/
theorem exists_indices_eq : ∃ is, indices = 0 :: is ∧ 0 ∉ is := by
  have heq : indices = 0 :: (List.finRange (keyMax - 1)).map Fin.succ := by
    unfold indices
    exact List.finRange_succ
  refine ⟨_, heq, ?_⟩
  have hnodup := nodup_indices
  rw [heq] at hnodup
  exact (List.nodup_cons.mp hnodup).1

namespace Mem

/-! ### Reading a block -/

/-- `*p` of a `key_macro_t *`. -/
def eventAt (p : Nat) (h : Mem) : Option (MacroEvent × Option Nat) :=
  match h.block p with
  | some (.event m next) => some (m, next)
  | _ => none

/-- `*p` of a `key_action_t *` that points to one action. -/
def actionAt (p : Nat) (h : Mem) : Option Cell :=
  match h.block p with
  | some (.action ka) => some ka
  | _ => none

/-- `*p` of a `key_action_t *` that points to `KEY_MAX` actions. -/
def actionsAt (p : Nat) (h : Mem) : Option (KeyCode → Cell) :=
  match h.block p with
  | some (.actions map) => some map
  | _ => none

/-! ### Macro chains -/

/-- `key_macro_new` -/
def keyMacroNew (m : MacroEvent) (h : Mem) : Mem × Option Nat := h.malloc (.event m none)

/-- `key_macro_free` -/
def keyMacroFree : Nat → Option Nat → Mem → Option Mem
  | _, none, h => some h
  | 0, some _, _ => none
  | fuel + 1, some p, h => do
    let (_, next) ← eventAt p h
    let h ← h.free p
    keyMacroFree fuel next h

/-- The loop of `key_macro_dup`, whose copy starts at `copy`. -/
def keyMacroDupLoop (copy : Nat) : Nat → Nat → Nat → Mem → Option (Mem × Option Nat)
  | 0, _, _, _ => none
  | fuel + 1, old, new, h => do
    let (_, oldNext) ← eventAt old h
    match oldNext with
    | none => some (h, some copy)
    | some oldNext => do
      let (m, _) ← eventAt oldNext h
      let (h, newNext) := keyMacroNew m h
      let (e, _) ← eventAt new h
      let h ← h.store new (.event e newNext)
      match newNext with
      | none => do
        let h ← keyMacroFree h.next (some copy) h
        some (h, none)
      | some newNext => keyMacroDupLoop copy fuel oldNext newNext h

/-- `key_macro_dup`: the copy, or `NULL`. -/
def keyMacroDup (fuel : Nat) (chain : Nat) (h : Mem) : Option (Mem × Option Nat) := do
  let (m, _) ← eventAt chain h
  let (h, copy) := keyMacroNew m h
  match copy with
  | none => some (h, none)
  | some copy => keyMacroDupLoop copy fuel chain copy h

/-! ### `key_action_free` -/

/-- `key_action_free(p)`, where `p` points to one action and `free` releases what it holds. -/
def freeAction (free : Cell → Mem → Option Mem) (p : Nat) (h : Mem) : Option Mem := do
  let ka ← actionAt p h
  let h ← free ka h
  h.store p (.action .zero)

/-- `key_action_free(&map[i])`, where `map` points to `KEY_MAX` actions. -/
def freeEntry (free : Cell → Mem → Option Mem) (map : Nat) (i : KeyCode) (h : Mem) :
    Option Mem := do
  let cells ← actionsAt map h
  let h ← free (cells i) h
  let cells ← actionsAt map h
  h.store map (.actions (Function.update cells i .zero))

/-- `for(size_t i = 0; i < KEY_MAX; i++){ key_action_free(&map[i]); }` from some entry on. -/
def freeEntries (free : Cell → Mem → Option Mem) (map : Nat) :
    List KeyCode → Mem → Option Mem
  | [], h => some h
  | i :: is, h => do
    let h ← freeEntry free map i h
    freeEntries free map is h

/-- `key_action_free`: the blocks that a `key_action_t` owns.  The caller sets it to zero. -/
def keyActionFree : Nat → Cell → Mem → Option Mem
  | 0, _, _ => none
  | fuel + 1, ka, h =>
    match ka with
    | .ktNone _ => some h
    | .ktSimple _ => some h
    | .ktMacro chain => keyMacroFree fuel chain h
    | .ktDual tap hold _ => do
      let h ← freeAction (keyActionFree fuel) tap h
      let h ← h.free tap
      let h ← freeAction (keyActionFree fuel) hold h
      h.free hold
    | .ktMap map => do
      let h ← freeEntries (keyActionFree fuel) map indices h
      h.free map

/-! ### `key_action_dup` -/

/-- `for(size_t ii = 0; ii < i; i++){ key_action_free(&out->key.map[ii]); }`, which counts `i`
    up until it wraps around and frees the entry 0 all the while. -/
def unwindMap (out : Nat) (i : UInt64) (h : Mem) : Option Mem :=
  if i = 0 then some h
  else (freeEntry (keyActionFree (h.next + 1)) out 0 h).bind fun h => unwindMap out (i + 1) h
termination_by if i = 0 then 0 else 2 ^ 64 - i.toNat
decreasing_by
  rename_i hi
  have hlt := i.toNat_lt
  have hsucc : i + 1 = 0 ∨ (i + 1).toNat = i.toNat + 1 := by
    by_cases hmax : i.toNat + 1 = 2 ^ 64
    · left
      apply UInt64.toNat_inj.mp
      rw [UInt64.toNat_add]
      show (i.toNat + 1) % 2 ^ 64 = 0
      rw [hmax, Nat.mod_self]
    · right
      rw [UInt64.toNat_add]
      apply Nat.mod_eq_of_lt
      show i.toNat + 1 < 2 ^ 64
      omega
  rw [if_neg hi]
  rcases hsucc with h0 | hnext
  · rw [if_pos h0]
    omega
  · split
    · omega
    · omega

/-- The loop of `key_action_dup` over the elements of a map, from some element on: whether all
    were copied. -/
def dupEntries (dup : Cell → Mem → Option (Mem × Int32 × Cell)) (map out : Nat) :
    List KeyCode → Mem → Option (Mem × Bool)
  | [], h => some (h, true)
  | i :: is, h => do
    let cells ← actionsAt map h
    let (h, ret, ka) ← dup (cells i) h
    let copies ← actionsAt out h
    let h ← h.store out (.actions (Function.update copies i ka))
    if ret ≠ 0 then do
      let h ← unwindMap out (UInt64.ofNat i.val) h
      let h ← h.free out
      some (h, false)
    else dupEntries dup map out is h

/-- The part of `key_action_dup` that matches the hold of a dual key whose tap was copied. -/
def dupHold (dup : Cell → Mem → Option (Mem × Int32 × Cell)) (hold outTap : Nat)
    (dual : DualConfig) (h : Mem) : Option (Mem × Int32 × Cell) :=
  let (h, outHold) := h.malloc (.action .zero)
  match outHold with
  | none => do
    let h ← h.free outTap
    some (h, -1, .zero)
  | some outHold => do
    let inHold ← actionAt hold h
    let (h, ret, copy) ← dup inHold h
    let h ← h.store outHold (.action copy)
    if ret ≠ 0 then do
      let h ← h.free outTap
      let h ← h.free outHold
      some (h, -1, .zero)
    else some (h, 0, .ktDual outTap outHold dual)

/-- `key_action_dup`: what it returns, and `*out`. -/
def keyActionDup : Nat → Cell → Mem → Option (Mem × Int32 × Cell)
  | 0, _, _ => none
  | fuel + 1, ka, h =>
    match ka with
    | .ktNone ref => some (h, 0, .ktNone ref)
    | .ktSimple c => some (h, 0, .ktSimple c)
    | .ktMacro none => none
    | .ktMacro (some chain) => do
      let (h, copy) ← keyMacroDup fuel chain h
      match copy with
      | none => some (h, -1, .zero)
      | some copy => some (h, 0, .ktMacro (some copy))
    | .ktDual tap hold dual =>
      -- match tap
      let (h, outTap) := h.malloc (.action .zero)
      match outTap with
      | none => some (h, -1, .zero)
      | some outTap => do
        let inTap ← actionAt tap h
        let (h, ret, copy) ← keyActionDup fuel inTap h
        let h ← h.store outTap (.action copy)
        if ret ≠ 0 then do
          let h ← h.free outTap
          some (h, -1, .zero)
        -- match hold
        else dupHold (keyActionDup fuel) hold outTap dual h
    | .ktMap map =>
      -- alloc map
      let (h, out) := h.malloc (.actions fun _ => .zero)
      match out with
      | none => some (h, -1, .zero)
      | some out => do
        -- duplicate map elements
        let (h, ok) ← dupEntries (keyActionDup fuel) map out indices h
        if ok then some (h, 0, .ktMap out) else some (h, -1, .zero)

end Mem

end Sdiol
