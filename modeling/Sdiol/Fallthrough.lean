import Sdiol.Trace

namespace Sdiol

/-!
# Keys a layer leaves unmapped

`lua_grab_keyboard` fills the `KT_NONE` entries of a keymap, "which should have fall-through
behavior", with `fill_map(&grab->map, NULL)`.  `fill_map` hands its own `base`, and not the map
it fills, to `fill_action`, so that the maps below the root are filled with `base == NULL`
too: their unmapped keys get their own codes.

`Nested` pairs every map of a tree with what it is filled to and with the maps around it, and
`assigned` is what those maps assign to a key.  `fall_through` says for which keys of which
layers the two agree; `runResolver_onLayer` says that these are the maps a run can be in.
-/

/-! ### Layers and what encloses them -/

/-- A map of the tree: as the script gives it, and after `fill_map`. -/
structure Layer where
  given : KeyCode → KeyAction
  filled : KeyCode → KeyAction

/-- `Nested km layer enclosing`: `layer` is the root map of the keymap or, at any depth, a map
    bound to a key or the hold action of a dual key; `enclosing` are the maps around it,
    innermost first. -/
inductive Nested (km : Keymap) : Layer → List Layer → Prop
  | root : Nested km ⟨km.entries, km.rootMap⟩ []
  | key {outer inner : Layer} {enclosing : List Layer} (k : KeyCode)
      (h : Nested km outer enclosing) (hgiven : outer.given k = .ktMap inner.given)
      (hfilled : outer.filled k = .ktMap inner.filled) : Nested km inner (outer :: enclosing)
  | hold {outer inner : Layer} {enclosing : List Layer} (k : KeyCode) {tap tap' : KeyAction}
      {dual dual' : DualConfig} (h : Nested km outer enclosing)
      (hgiven : outer.given k = .ktDual tap (.ktMap inner.given) dual)
      (hfilled : outer.filled k = .ktDual tap' (.ktMap inner.filled) dual') :
      Nested km inner (outer :: enclosing)

/-- The first explicit action for key `i`, walking outward. -/
def binding : List Layer → KeyCode → Option KeyAction
  | [], _ => none
  | map :: outer, i => if (map.given i).isNone then binding outer i else some (map.given i)

/-- What the maps assign to key `i`: the first explicit action, walking outward, as it was
    filled, or the key's own code. -/
def assigned : List Layer → KeyCode → KeyAction
  | [], i => .ktSimple i
  | map :: outer, i => if (map.given i).isNone then assigned outer i else map.filled i

/-! ### Every map is filled like the root -/

/-- The given entries are accepted, and each is filled with its own code. -/
def Layer.OwnCodes (map : Layer) : Prop :=
  ∀ i, (map.given i).Accepted ∧ map.filled i = fillAction (map.given i) none (.ktSimple i)

/-- A map below one that was filled with own codes was filled with own codes. -/
theorem ownCodes_inner {inner : Layer} (haccepted : (KeyAction.ktMap inner.given).Accepted)
    {i : KeyCode} (hfilled : KeyAction.ktMap inner.filled
      = fillAction (.ktMap inner.given) none (.ktSimple i)) : inner.OwnCodes := by
  intro j
  have hmap : inner.filled = fun j => fillAction (inner.given j) none (.ktSimple j) :=
    KeyAction.ktMap.inj hfilled
  exact ⟨haccepted j, congrFun hmap j⟩

/-- What is known of an entry that is given as `tgt` and filled to `ka`. -/
theorem Layer.OwnCodes.entry {map : Layer} (h : map.OwnCodes) {i : KeyCode} {tgt ka : KeyAction}
    (hgiven : map.given i = tgt) (hfilled : map.filled i = ka) :
    tgt.Accepted ∧ ka = fillAction tgt none (.ktSimple i) := by
  obtain ⟨haccepted, hfill⟩ := h i
  rw [hgiven] at haccepted
  rw [hgiven, hfilled] at hfill
  exact ⟨haccepted, hfill⟩

theorem Nested.ownCodes {km : Keymap} {layer : Layer} {enclosing : List Layer}
    (h : Nested km layer enclosing) : layer.OwnCodes ∧ ∀ map ∈ enclosing, map.OwnCodes := by
  induction h with
  | root => exact ⟨fun i => ⟨km.accepted i, rfl⟩, by simp⟩
  | key k _ hgiven hfilled ih =>
    obtain ⟨haccepted, hfill⟩ := ih.1.entry hgiven hfilled
    exact ⟨ownCodes_inner haccepted hfill, List.forall_mem_cons.mpr ih⟩
  | hold k _ hgiven hfilled ih =>
    obtain ⟨haccepted, hfill⟩ := ih.1.entry hgiven hfilled
    have hhold := (KeyAction.ktDual.inj hfill).2.1
    exact ⟨ownCodes_inner haccepted.2.2.2 hhold, List.forall_mem_cons.mpr ih⟩

/-- An explicit action is filled to the simple key `i` only if it is that key. -/
theorem fillAction_eq_ktSimple {tgt : KeyAction} {i : KeyCode} (hbound : tgt.isNone = false)
    (hfill : fillAction tgt none (.ktSimple i) = .ktSimple i) : tgt = .ktSimple i := by
  cases tgt with
  | ktNone => exact absurd hbound (by simp [KeyAction.isNone])
  | ktRef ref => exact absurd hbound (by simp [KeyAction.isNone])
  | ktSimple c => exact hfill
  | ktMacro chain => exact absurd hfill (by simp [fillAction])
  | ktDual tap hold dual => exact absurd hfill (by simp [fillAction])
  | ktMap map => exact absurd hfill (by simp [fillAction, mapFiller])

/-- **Walking outward.** The enclosing maps assign to a key its own code exactly if none of
    them binds it, or the first one that does binds it to its own code. -/
theorem assigned_eq_ktSimple {enclosing : List Layer} (h : ∀ map ∈ enclosing, map.OwnCodes)
    (i : KeyCode) : assigned enclosing i = .ktSimple i ↔
      binding enclosing i = none ∨ binding enclosing i = some (.ktSimple i) := by
  induction enclosing with
  | nil => simp [assigned, binding]
  | cons map outer ih =>
    obtain ⟨hmap, houter⟩ := List.forall_mem_cons.mp h
    have hfill := (hmap i).2
    unfold assigned binding
    cases hnone : (map.given i).isNone with
    | true =>
      rw [if_pos rfl, if_pos rfl]
      exact ih houter
    | false =>
      rw [if_neg (by simp), if_neg (by simp), hfill]
      constructor
      · intro hsimple
        exact .inr (congrArg some (fillAction_eq_ktSimple hnone hsimple))
      · rintro (hbound | hbound)
        · exact absurd hbound (by simp)
        · rw [Option.some.inj hbound]
          rfl

/-- **Fall-through.** A key that a map leaves unmapped does, while that map is the current
    keymap, what the enclosing maps assign to it, exactly if none of them binds it or the first
    one that does binds it to its own code. -/
theorem fall_through {km : Keymap} {layer : Layer} {enclosing : List Layer}
    (h : Nested km layer enclosing) {i : KeyCode} (hi : layer.given i = .ktNone) :
    keyActionGet (.ktMap layer.filled) i = .ok (assigned enclosing i) ↔
      binding enclosing i = none ∨ binding enclosing i = some (.ktSimple i) := by
  obtain ⟨hlayer, henclosing⟩ := h.ownCodes
  have hown : layer.filled i = .ktSimple i := by
    rw [(hlayer i).2, hi]
    rfl
  rw [keyActionGet_ktMap, hown, ← assigned_eq_ktSimple henclosing i, Except.ok.injEq]
  exact eq_comm

/-- Key 30 types 48, and 38 is held for a layer that leaves every key unmapped. -/
def emptyLayerOn38 : Keymap :=
  .ofTable [(30, .ktSimple 48), (38, .ktMap (tableMap []))] (by
    intro b hb
    rcases List.mem_pair.mp hb with rfl | rfl
    · trivial
    · exact tableMap_forall trivial (by simp))

/-- The layer of `emptyLayerOn38`. -/
def emptyLayer : Layer := ⟨tableMap [], fun i => fillAction (tableMap [] i) none (.ktSimple i)⟩

theorem emptyLayer_nested : Nested emptyLayerOn38 emptyLayer
    [⟨emptyLayerOn38.entries, emptyLayerOn38.rootMap⟩] :=
  .key 38 .root rfl rfl

/-- Key 49 is bound nowhere, so it types its own code in the layer. -/
theorem fall_through_unbound : keyActionGet (.ktMap emptyLayer.filled) 49
    = .ok (assigned [⟨emptyLayerOn38.entries, emptyLayerOn38.rootMap⟩] 49) :=
  (fall_through emptyLayer_nested rfl).mpr (.inl rfl)

/-- Key 30 is left unmapped by the layer and bound to 48 around it, but in the layer it types
    30: pressed while 38 is held it sends 30. -/
theorem own_code_in_layer :
    Nested emptyLayerOn38 emptyLayer [⟨emptyLayerOn38.entries, emptyLayerOn38.rootMap⟩] ∧
      emptyLayer.given 30 = .ktNone ∧
      assigned [⟨emptyLayerOn38.entries, emptyLayerOn38.rootMap⟩] 30 = .ktSimple 48 ∧
      keyActionGet (.ktMap emptyLayer.filled) 30 = .ok (.ktSimple 30) ∧
      (runResolver emptyLayerOn38.root [keyAt 0 38 1, keyAt 10 30 1]).map
        (fun x => (sends x.2).map fun ev => ev.code) = .ok [30] := by
  refine ⟨emptyLayer_nested, rfl, rfl, rfl, ?_⟩
  decide +kernel

/-! ### The maps a run can be in -/

/-- The current keymap is a map of the tree. -/
structure OnLayer (km : Keymap) (s : KeyState) : Prop where
  rootKeymap : s.rootKeymap = km.root
  currentKeymap : ∃ layer enclosing, Nested km layer enclosing ∧
    s.currentKeymap = .ktMap layer.filled

/-- A map that a filled entry holds is the filled form of a given one. -/
theorem fillAction_eq_ktMap {tgt : KeyAction} {i : KeyCode} {map : KeyCode → KeyAction}
    (haccepted : tgt.Accepted) (h : fillAction tgt none (.ktSimple i) = .ktMap map) :
    ∃ given, tgt = .ktMap given := by
  cases tgt with
  | ktNone => exact absurd h (by simp [fillAction])
  | ktRef ref => exact haccepted.elim
  | ktSimple c => exact absurd h (by simp [fillAction])
  | ktMacro chain => exact absurd h (by simp [fillAction])
  | ktDual tap hold dual => exact absurd h (by simp [fillAction])
  | ktMap given => exact ⟨given, rfl⟩

/-- A dual key that a filled entry holds is the filled form of a given one. -/
theorem fillAction_eq_ktDual {tgt tap hold : KeyAction} {dual : DualConfig} {i : KeyCode}
    (haccepted : tgt.Accepted) (h : fillAction tgt none (.ktSimple i) = .ktDual tap hold dual) :
    ∃ tap₀ hold₀, tgt = .ktDual tap₀ hold₀ dual ∧ tap = fillAction tap₀ none (.ktSimple i) ∧
      hold = fillAction hold₀ none (.ktSimple i) := by
  cases tgt with
  | ktNone => exact absurd h (by simp [fillAction])
  | ktRef ref => exact haccepted.elim
  | ktSimple c => exact absurd h (by simp [fillAction])
  | ktMacro chain => exact absurd h (by simp [fillAction])
  | ktDual tap₀ hold₀ dual₀ =>
    obtain ⟨htap, hhold, rfl⟩ := KeyAction.ktDual.inj h
    exact ⟨tap₀, hold₀, rfl, htap.symm, hhold.symm⟩
  | ktMap given => exact absurd h (by simp [fillAction, mapFiller])

section Runs

variable {km : Keymap} {s s' : KeyState} {now : Timeval} {ev : InputEvent} {l : List Effect}

/-- **Entering a layer.** A map that a press in a map of the tree settles on is one of the
    tree. -/
theorem Chosen.nested {queued : List InputEvent} {k : KeyCode} {map : KeyCode → KeyAction}
    {pre : List Effect} {t : LastTap} (h : Chosen s now ev queued k (.ktMap map) pre t)
    (hs : OnLayer km s) : ∃ layer enclosing, Nested km layer enclosing ∧ map = layer.filled := by
  obtain ⟨layer, enclosing, hnested, hcur⟩ := hs.currentKeymap
  obtain ⟨haccepted, hfill⟩ := hnested.ownCodes.1 k
  cases h with
  | plain hget _ =>
    rw [hcur, keyActionGet_ktMap, Except.ok.injEq] at hget
    obtain ⟨given, hgiven⟩ := fillAction_eq_ktMap haccepted (hfill.symm.trans hget)
    exact ⟨⟨given, map⟩, _, .key k hnested hgiven hget, rfl⟩
  | tap hget _ =>
    -- the tap of an accepted dual key is no map
    rw [hcur, keyActionGet_ktMap, Except.ok.injEq] at hget
    obtain ⟨tap₀, hold₀, hgiven, htap, _⟩ :=
      fillAction_eq_ktDual haccepted (hfill.symm.trans hget)
    rw [hgiven] at haccepted
    have hmap := congrArg KeyAction.isMap htap
    rw [fillAction_isMap, haccepted.1.2.1] at hmap
    exact absurd hmap (by simp [KeyAction.isMap])
  | hold hget _ =>
    rw [hcur, keyActionGet_ktMap, Except.ok.injEq] at hget
    obtain ⟨tap₀, hold₀, hgiven, _, hhold⟩ :=
      fillAction_eq_ktDual haccepted (hfill.symm.trans hget)
    rw [hgiven] at haccepted
    obtain ⟨given, rfl⟩ := fillAction_eq_ktMap haccepted.2.2.2 hhold.symm
    exact ⟨⟨given, map⟩, _, .hold k hnested hgiven hget, rfl⟩

theorem OnLayer.of_eq (h : OnLayer km s) (hroot : s'.rootKeymap = s.rootKeymap)
    (hcur : s'.currentKeymap = s.currentKeymap) : OnLayer km s' :=
  ⟨hroot.trans h.rootKeymap, by rw [hcur]; exact h.currentKeymap⟩

/-- Going back to the root keymap. -/
theorem OnLayer.reset (h : OnLayer km s) (hroot : s'.rootKeymap = s.rootKeymap)
    (hcur : s'.currentKeymap = s.rootKeymap) : OnLayer km s' := by
  refine ⟨hroot.trans h.rootKeymap, _, _, .root, ?_⟩
  rw [hcur, h.rootKeymap, Keymap.root_eq]

theorem Handled.onLayer {queued : List InputEvent} {b : Bool}
    (h : Handled s now ev queued b s' l) (hs : OnLayer km s) : OnLayer km s' := by
  cases h with
  | releasedLayer _ _ _ _ => exact hs.reset rfl rfl
  | pressed _ _ hchosen hacted =>
    cases hacted with
    | simple c => exact hs.of_eq rfl rfl
    | chain ch => exact hs.of_eq rfl rfl
    | layer map =>
      obtain ⟨layer, enclosing, hnested, rfl⟩ := hchosen.nested hs
      exact ⟨hs.rootKeymap, layer, enclosing, hnested, rfl⟩
  | _ => exact hs.of_eq rfl rfl

theorem plainResolve_onLayer {p p' : PlainResolver} {b : Bool} (hp : OnLayer km p.toKeyState)
    (h : plainResolve earlyRelease now p = .ok (b, p', l)) : OnLayer km p'.toKeyState := by
  have hs : OnLayer km { p.toKeyState with useResolvableTime := false } := hp.of_eq rfl rfl
  rcases plainResolve_cases h with ⟨_, _, rfl, _⟩ | ⟨_, _, _, _, _, rfl, hh⟩ |
    ⟨_, _, _, _, _, _, _, _, hh, ⟨_, rfl, _⟩ | ⟨_, _, hearly, rfl, _⟩⟩
  · exact hp
  · exact hh.onLayer hs
  · exact hh.onLayer hs
  · obtain ⟨_, _, _, ⟨_, rfl, _⟩ | ⟨_, _, rfl, _⟩⟩ := earlyRelease_eq_some hearly
    · exact (hh.onLayer hs).reset rfl rfl
    · exact hh.onLayer hs

end Runs

/-- **Run.** After every event of every run, the current keymap is a map of the tree: these
    are the maps `fall_through` is about. -/
theorem runResolver_onLayer {km : Keymap} {inputs : List Reading} {r : Resolver}
    {log : List Effect} (h : runResolver km.root inputs = .ok (r, log)) :
    OnLayer km r.toKeyState := by
  have hdedup : ∀ (p : PlainResolver) ev pass s, OnLayer km p.toKeyState →
      resolveDedupInput p.toKeyState ev = .ok (pass, s) → OnLayer km s := by
    intro p ev pass s hp hd
    obtain ⟨counts, rfl⟩ := resolveDedupInput_eq hd
    exact hp.of_eq rfl rfl
  exact runPlain_inv (fun _ p => OnLayer km p.toKeyState) (fun _ => True)
    (fun _ p ev s hp hd => hdedup p ev false s hp hd)
    (fun _ p ev s hp _ ha => hdedup p ev true s hp ha)
    (fun _ _ _ _ _ _ hp hstep => plainResolve_onLayer hp hstep) (fun _ _ => trivial)
    ⟨rfl, _, _, .root, rfl⟩ (runPlain_of_runResolver h)

end Sdiol
