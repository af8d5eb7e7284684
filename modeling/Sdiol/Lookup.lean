import Sdiol.Config

namespace Sdiol

/-!
# Looking up keys in a chain of keymaps

`fill_map(tgt, base)` turns every unmapped entry of `tgt` into a reference to the entry of
`base`, and the loop of `key_action_get` is there to follow such references.  A chain of maps,
each filled with the next one as its base and the last one with none, is a search path: the
entry of a key is the first binding of it on the path (`followRefs_entries`).

`key_action_get` follows the references of the action it is *given*.  Given a map, it returns
the map's entry in its first iteration, whether that entry is a reference or not.

* `keyActionGet_fillChain` — so it finds what the target map itself binds, and no more;
* `keyActionGet_entry` — asked again with that entry, it would follow the references, and then
  enter a layer it finds instead of returning it.
-/

namespace KeyAction

/-- The first action that is no reference, from `ka` on along `key.ref`. -/
def followRefs : KeyAction → KeyAction
  | ktRef ref => ref.followRefs
  | ka => ka

/-- The number of references in front of that action. -/
def refLinks : KeyAction → Nat
  | ktRef ref => ref.refLinks + 1
  | _ => 0

theorem followRefs_of_not_none {ka : KeyAction} (h : ka.isNone = false) : ka.followRefs = ka := by
  cases ka with
  | ktRef ref => exact absurd h (by simp [isNone])
  | _ => rfl

end KeyAction

/-! ### Chains of keymaps -/

/-- The entries of the first map of a chain after filling.  The map at the end is filled with
    no base, every other one with the next map as its base. -/
def chainEntries (root : KeyCode → KeyAction) :
    List (KeyCode → KeyAction) → KeyCode → KeyAction
  | [], i => fillAction (root i) none (.ktSimple i)
  | layer :: below, i =>
      fillAction (layer i) (some (.ktMap (chainEntries root below)))
        (.ktRef (chainEntries root below i))

/-- The first map of a chain, after `fill_map` for each of its maps. -/
def fillChain (root : KeyCode → KeyAction) : List (KeyCode → KeyAction) → KeyAction
  | [] => fillMap (.ktMap root) none
  | layer :: below => fillMap (.ktMap layer) (some (fillChain root below))

/-- What `fill_map` makes of key `i` where a chain first binds it; the key itself if no map
    binds it. -/
def firstBinding (root : KeyCode → KeyAction) :
    List (KeyCode → KeyAction) → KeyCode → KeyAction
  | [], i => fillAction (root i) none (.ktSimple i)
  | layer :: below, i =>
      if (layer i).isNone then firstBinding root below i
      else fillAction (layer i) (some (.ktMap (chainEntries root below)))
        (.ktRef (chainEntries root below i))

/-- What a lookup of key `i` in the filled map `tgt` is to find: the first action that is not
    `KT_NONE`, from the entry of `tgt` on along the references. -/
def LooksUp (tgt : KeyAction) (i : KeyCode) : Prop :=
  ∃ entries ka, tgt = .ktMap entries ∧ keyActionGet tgt i = .ok ka ∧
    ka = (entries i).followRefs ∧ ka.isNone = false

section Chains

variable {root : KeyCode → KeyAction} {layers : List (KeyCode → KeyAction)} {i : KeyCode}

/-- **Filling.** A filled chain starts with a map of the entries `chainEntries`. -/
theorem fillChain_eq (root : KeyCode → KeyAction) (layers : List (KeyCode → KeyAction)) :
    fillChain root layers = .ktMap (chainEntries root layers) := by
  induction layers with
  | nil => rfl
  | cons layer below ih =>
    rw [fillChain, ih]
    rfl

/-- Filling changes the type of `KT_NONE` only. -/
theorem fillAction_of_not_none {tgt : KeyAction} (h : tgt.isNone = false)
    (base : Option KeyAction) (filler : KeyAction) :
    (fillAction tgt base filler).isNone = false := by
  cases tgt with
  | ktNone => exact absurd h (by simp [KeyAction.isNone])
  | ktRef ref => exact absurd h (by simp [KeyAction.isNone])
  | ktMap map =>
    cases hfiller : mapFiller base with
    | none => simp [fillAction, hfiller, KeyAction.isNone]
    | some fillerOf => simp [fillAction, hfiller, KeyAction.isNone]
  | _ => rfl

theorem fillAction_of_none {tgt : KeyAction} (h : tgt.isNone = true) (base : Option KeyAction)
    (filler : KeyAction) : fillAction tgt base filler = filler := by
  cases tgt with
  | ktNone => rfl
  | ktRef ref => rfl
  | _ => exact absurd h (by simp [KeyAction.isNone])

/-- Nothing in a root map is `KT_NONE`. -/
theorem chainEntries_root (root : KeyCode → KeyAction) (i : KeyCode) :
    (chainEntries root [] i).isNone = false := by
  rw [chainEntries]
  cases hroot : (root i).isNone with
  | true =>
    rw [fillAction_of_none hroot]
    rfl
  | false => exact fillAction_of_not_none hroot _ _

/-- **The search path.** Along the references of an entry lies the first binding of its key. -/
theorem followRefs_entries (root : KeyCode → KeyAction) (layers : List (KeyCode → KeyAction))
    (i : KeyCode) :
    (chainEntries root layers i).followRefs = firstBinding root layers i ∧
      (firstBinding root layers i).isNone = false := by
  induction layers with
  | nil =>
    have hroot := chainEntries_root root i
    exact ⟨KeyAction.followRefs_of_not_none hroot, hroot⟩
  | cons layer below ih =>
    rw [chainEntries, firstBinding]
    cases hlayer : (layer i).isNone with
    | true =>
      rw [fillAction_of_none hlayer, if_pos rfl]
      exact ih
    | false =>
      rw [if_neg (by simp)]
      have hbound := fillAction_of_not_none hlayer
        (some (.ktMap (chainEntries root below))) (.ktRef (chainEntries root below i))
      exact ⟨KeyAction.followRefs_of_not_none hbound, hbound⟩

/-- An entry refers down the chain at most once for each map in front of the root. -/
theorem refLinks_entries (root : KeyCode → KeyAction) (layers : List (KeyCode → KeyAction))
    (i : KeyCode) : (chainEntries root layers i).refLinks ≤ layers.length := by
  have hzero : ∀ {ka : KeyAction}, ka.isNone = false → ka.refLinks = 0 := by
    intro ka h
    cases ka with
    | ktRef ref => exact absurd h (by simp [KeyAction.isNone])
    | _ => rfl
  induction layers with
  | nil => rw [hzero (chainEntries_root root i)]; exact Nat.zero_le _
  | cons layer below ih =>
    rw [chainEntries]
    cases hlayer : (layer i).isNone with
    | true =>
      rw [fillAction_of_none hlayer]
      exact Nat.succ_le_succ ih
    | false =>
      rw [hzero (fillAction_of_not_none hlayer _ _)]
      exact Nat.zero_le _

/-! ### `key_action_get` -/

/-- The loop follows the references of the action it is given, if it has one iteration more
    than there are references, and then looks into a map. -/
theorem keyActionGetLoop_followRefs {tries : Nat} {ka : KeyAction} (i : KeyCode)
    (hlinks : ka.refLinks < tries) (hend : ka.followRefs.isNone = false) :
    (∀ map, ka.followRefs = .ktMap map → keyActionGetLoop tries ka i = .ok (map i)) ∧
      (ka.followRefs.isMap = false → keyActionGetLoop tries ka i = .ok ka.followRefs) := by
  induction tries generalizing ka with
  | zero => exact absurd hlinks (Nat.not_lt_zero _)
  | succ tries ih =>
    cases ka with
    | ktNone => exact absurd hend (by simp [KeyAction.followRefs, KeyAction.isNone])
    | ktRef ref => exact ih (Nat.lt_of_succ_lt_succ hlinks) hend
    | ktMap map =>
      refine ⟨?_, fun h => absurd h (by simp [KeyAction.followRefs, KeyAction.isMap])⟩
      intro map' h
      cases show KeyAction.ktMap map = .ktMap map' from h
      rfl
    | _ => exact ⟨fun _ h => absurd h (by simp [KeyAction.followRefs]), fun _ => rfl⟩

/-- **A second lookup.** In a chain with at most 31 links, `key_action_get` of an entry finds
    the first binding of the key, unless that is a layer: then it finds an entry of it. -/
theorem keyActionGet_entry (hlinks : layers.length ≤ 31) :
    (∀ map, firstBinding root layers i = .ktMap map →
      keyActionGet (chainEntries root layers i) i = .ok (map i)) ∧
    ((firstBinding root layers i).isMap = false →
      keyActionGet (chainEntries root layers i) i = .ok (firstBinding root layers i)) := by
  obtain ⟨hfollow, hend⟩ := followRefs_entries root layers i
  have hless : (chainEntries root layers i).refLinks < 32 :=
    Nat.lt_succ_of_le ((refLinks_entries root layers i).trans hlinks)
  rw [← hfollow] at hend ⊢
  exact keyActionGetLoop_followRefs i hless hend

/-- **Lookup.** In a filled chain of keymaps, `key_action_get` finds the first action that is
    not `KT_NONE` along the references exactly if there is no reference to follow: if the chain
    is a root map only, or its first map binds the key itself. -/
theorem keyActionGet_fillChain (root : KeyCode → KeyAction) (layers : List (KeyCode → KeyAction))
    (i : KeyCode) :
    LooksUp (fillChain root layers) i ↔
      ∀ layer below, layers = layer :: below → (layer i).isNone = false := by
  have hget : keyActionGet (fillChain root layers) i = .ok (chainEntries root layers i) := by
    rw [fillChain_eq]
    rfl
  constructor
  · rintro ⟨entries, ka, _, hka, _, hsome⟩ layer below rfl
    rw [hget] at hka
    cases hka
    by_contra hnone
    rw [Bool.not_eq_false] at hnone
    rw [chainEntries, fillAction_of_none hnone] at hsome
    exact absurd hsome (by simp [KeyAction.isNone])
  · intro hbound
    have hentry : (chainEntries root layers i).isNone = false := by
      cases layers with
      | nil => exact chainEntries_root root i
      | cons layer below => exact fillAction_of_not_none (hbound layer below rfl) _ _
    exact ⟨_, _, fillChain_eq root layers, hget,
      (KeyAction.followRefs_of_not_none hentry).symm, hentry⟩

/-- A layer that leaves key 30 to the root map: the lookup ends at the reference. -/
theorem keyActionGet_unmapped :
    keyActionGet (fillChain (fun _ => .ktNone) [fun _ => .ktNone]) 30 =
        .ok (.ktRef (.ktSimple 30)) ∧
      ¬ LooksUp (fillChain (fun _ => .ktNone) [fun _ => .ktNone]) 30 := by
  refine ⟨rfl, ?_⟩
  rintro ⟨_, _, _, hget, _, hsome⟩
  cases hget
  exact absurd hsome (by simp [KeyAction.isNone, fillAction])

end Chains

end Sdiol
