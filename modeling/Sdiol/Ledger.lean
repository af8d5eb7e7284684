import Sdiol.KeyOrder

namespace Sdiol

/-!
# What each key still owes the output

A key that is down and whose entry in `release_map` is the code `c` will send a release of
`c`.  `owed c` counts these keys.  It bounds what the resolver has pressed and not released:
every call of `resolve` that changes the output counter of `c` upwards adds to what is owed,
and pays with every release (`plainResolve_caps`).

Two more facts about `release_map` are kept beside it:

* `Recorded` — a key that is down has the entry that its latest press wrote;
* `LayerHeld` — outside the root keymap, some key that is down has the entry `RESET_KEYMAP`.
-/

open Alternation (settle_cons)
open Counter (Caps caps_nil caps_press caps_release caps_balanced tally tally_change)

/-! ### The edges of what is sent -/

theorem codeOf_ne_zero {c : KeyCode} (hc : c ≠ 0) : codeOf c ≠ 0 := by
  intro h
  have h0 : codeOf 0 = 0 := by decide
  exact hc (codeOf_injective (h.trans h0.symm))

theorem keyEdges_mapped {c : KeyCode} {ev : InputEvent} (code : UInt16)
    (hrel : ev.isRelease = true) :
    keyEdges c [{ ev with code := code }] = if code = codeOf c then [false] else [] := by
  have hrel' : InputEvent.isRelease { ev with code := code } = true := hrel
  have hedge : keyEdge c { ev with code := code } = if code = codeOf c then some false else none :=
    keyEdge_release hrel'
  rw [keyEdges_cons, hedge]
  split <;> rfl

theorem keyEdges_simple {c d : KeyCode} {ev : InputEvent} (hpress : ev.isPress = true) :
    keyEdges c (actionSends ev (.ktSimple d)) = if d = c then [true] else [] := by
  have hpress' : InputEvent.isPress { ev with code := codeOf d } = true := hpress
  have hedge : keyEdge c { ev with code := codeOf d } = if d = c then some true else none := by
    rw [keyEdge_press hpress']
    simp
  show keyEdges c [{ ev with code := codeOf d }] = _
  rw [keyEdges_cons, hedge]
  split <;> rfl

/-- A macro sends the presses and releases of its chain. -/
theorem keyEdges_chain (c : KeyCode) (ev : InputEvent) (ch : List MacroEvent) :
    keyEdges c (actionSends ev (.ktMacro ch)) = chainEdges c ch := by
  show keyEdges c (ch.flatMap macroSends) = chainEdges c ch
  induction ch with
  | nil => rfl
  | cons m ch ih =>
    have hsyn : keyEdge c synEvent = none := keyEdge_of_not_key (by decide)
    have hone : keyEdges c (macroSends m) = (if m.code = c then [m.press] else []) := by
      cases hpress : m.press <;> by_cases hc : m.code = c <;>
        simp [macroSends, keyEdges, keyEdge, hpress, hc, InputEvent.isPress,
          InputEvent.isRelease, evKey, synEvent, evSyn]
    rw [List.flatMap_cons, keyEdges_append, ih, hone]
    by_cases hc : m.code = c <;> simp [chainEdges, hc]

/-! ### Keys that an event does not belong to -/

section Other

variable {s s' : KeyState} {now : Timeval} {ev : InputEvent} {queued : List InputEvent}
  {b : Bool} {l : List Effect}

/-- Handling the oldest event changes what is known of its own key only. -/
theorem Handled.other (h : Handled s now ev queued b s' l) {j : KeyCode}
    (hj : ev.code ≠ codeOf j) :
    s'.releaseMap j = s.releaseMap j ∧ ∀ a, l.foldl (actionStep j) a = a := by
  have hne : ∀ k, ev.code = codeOf k → j ≠ k := by
    rintro k hk rfl
    exact hj hk
  cases h with
  | ignored _ => exact ⟨rfl, fun _ => rfl⟩
  | passed _ => exact ⟨rfl, fun _ => rfl⟩
  | repeated _ _ _ _ _ => exact ⟨rfl, fun _ => rfl⟩
  | releasedLayer k _ hcode _ =>
    exact ⟨Function.update_of_ne (hne k hcode) _ _, fun _ => rfl⟩
  | releasedNothing k _ hcode _ =>
    exact ⟨Function.update_of_ne (hne k hcode) _ _, fun _ => rfl⟩
  | releasedCode k _ hcode _ _ =>
    exact ⟨Function.update_of_ne (hne k hcode) _ _, fun _ => rfl⟩
  | pressed _ hcode hchosen hacted =>
    refine ⟨?_, fun a => ?_⟩
    · cases hacted with
      | simple c => exact Function.update_of_ne (hne _ hcode) _ _
      | chain ch => rfl
      | layer map => exact Function.update_of_ne (hne _ hcode) _ _
    · rw [List.foldl_append, hchosen.foldl_actionStep, hacted.foldl_actionStep, if_neg hj]
  | waiting _ _ _ _ => exact ⟨rfl, fun _ => rfl⟩

/-- Only a press that is acted on changes what the latest press did. -/
theorem Handled.foldl_actionStep (h : Handled s now ev queued b s' l)
    (hpress : ev.isPress = false) (j : KeyCode) (a : Option KeyAction) :
    l.foldl (actionStep j) a = a := by
  cases h with
  | pressed hp _ _ _ => rw [hp] at hpress; exact absurd hpress (by simp)
  | waiting hp _ _ _ => rfl
  | _ => rfl

theorem earlyRelease_actionStep {s s' : KeyState} {ev : InputEvent} {l : List Effect}
    (h : earlyRelease s ev = some (s', l)) (j : KeyCode) (a : Option KeyAction) :
    l.foldl (actionStep j) a = a := by
  obtain ⟨k, _, _, ⟨_, _, rfl⟩ | ⟨_, _, _, rfl⟩⟩ := earlyRelease_eq_some h <;> rfl

end Other

/-- **What the oldest event does to one output code.** An event with no edge does nothing; a
    release clears its key's entry and sends a release of `c` exactly if the entry was `c`
    and not 0; a press of a simple key enters and presses its code, a macro leaves the entry
    alone and is balanced, and a layer enters `RESET_KEYMAP` and sends nothing. -/
theorem Handled.summary {P : DualConfig → Prop} {s s' : KeyState} {now : Timeval}
    {ev : InputEvent} {queued : List InputEvent} {l : List Effect}
    (h : Handled s now ev queued true s' l) (hs : Ready P s) (c : KeyCode) :
    ((∀ k, keyEdge k ev = none) ∧ s'.releaseMap = s.releaseMap ∧ released l = [] ∧
      keyEdges c (sends l) = []) ∨
    (∃ k, ev.code = codeOf k ∧ ev.isRelease = true ∧
      s'.releaseMap = Function.update s.releaseMap k 0 ∧
      (∃ l', l = .released ev (s.releaseMap k) false :: l' ∧ released l' = []) ∧
      keyEdges c (sends l) = if s.releaseMap k = codeOf c ∧ c ≠ 0 then [false] else []) ∨
    (∃ k ka, ev.code = codeOf k ∧ ev.isPress = true ∧ released l = [] ∧
      (∀ a, l.foldl (actionStep k) a = some ka) ∧
      ((∃ d, ka = .ktSimple d ∧ s'.releaseMap = Function.update s.releaseMap k (codeOf d) ∧
          keyEdges c (sends l) = if d = c then [true] else []) ∨
        (∃ ch, ka = .ktMacro ch ∧ s'.releaseMap = s.releaseMap ∧
          Counter.Balanced (keyEdges c (sends l))) ∨
        (∃ map, ka = .ktMap map ∧ s'.releaseMap = Function.update s.releaseMap k resetKeymap ∧
          keyEdges c (sends l) = []))) := by
  cases h with
  -- events without an edge
  | ignored hcode => exact .inl ⟨keyEdge_of_ignored hcode, rfl, rfl, rfl⟩
  | passed hkey =>
    refine .inl ⟨fun k => keyEdge_of_not_key hkey, rfl, rfl, ?_⟩
    show keyEdges c [ev] = []
    rw [keyEdges_cons, keyEdge_of_not_key hkey]
    rfl
  | repeated k hvalue _ _ _ =>
    refine .inl ⟨fun k => keyEdge_of_repeat hvalue, rfl, rfl, ?_⟩
    show keyEdges c [{ ev with code := s.releaseMap k }] = []
    have hedge : keyEdge c { ev with code := s.releaseMap k } = none := keyEdge_of_repeat hvalue
    rw [keyEdges_cons, hedge]
    rfl
  -- releases: `RESET_KEYMAP` and 0 in `release_map` are no codes
  | releasedLayer k hrel hcode hmap =>
    refine .inr (.inl ⟨k, hcode, hrel, rfl, ⟨_, rfl, rfl⟩, ?_⟩)
    rw [if_neg fun hck => codeOf_ne_resetKeymap c (hck.1.symm.trans hmap)]
    rfl
  | releasedNothing k hrel hcode hmap =>
    refine .inr (.inl ⟨k, hcode, hrel, rfl, ⟨_, rfl, rfl⟩, ?_⟩)
    rw [if_neg fun hck => codeOf_ne_zero hck.2 (hck.1.symm.trans hmap)]
    rfl
  | releasedCode k hrel hcode hmap hzero =>
    refine .inr (.inl ⟨k, hcode, hrel, rfl, ⟨_, rfl, rfl⟩, ?_⟩)
    show keyEdges c [{ ev with code := s.releaseMap k }] = _
    rw [keyEdges_mapped _ hrel]
    by_cases hck : s.releaseMap k = codeOf c
    · have hc : c ≠ 0 := by
        rintro rfl
        exact hzero (hck.trans (by decide))
      rw [if_pos hck, if_pos ⟨hck, hc⟩]
    · rw [if_neg hck, if_neg fun h => hck h.1]
  -- a press: what it sends is what its action sends
  | @pressed j ka _ _ _ _ hpress hcode hchosen hacted =>
    refine .inr (.inr ⟨j, ka, hcode, hpress, ?_, fun a => ?_, ?_⟩)
    · rw [released_append, hchosen.released, hacted.released]
      rfl
    · rw [List.foldl_append, hacted.foldl_actionStep, if_pos hcode]
    · rw [sends_append, hchosen.sends, List.nil_append, hacted.sends]
      have husable := (hchosen.usable hs).1
      cases hacted with
      | simple d => exact .inl ⟨d, rfl, rfl, keyEdges_simple hpress⟩
      | chain ch =>
        refine .inr (.inl ⟨ch, rfl, rfl, ?_⟩)
        rw [keyEdges_chain]
        exact husable.1 c
      | layer map => exact .inr (.inr ⟨map, rfl, rfl, rfl⟩)

/-- **What the newest event does to one output code**, when it is taken early: a key release
    sends a release of `c` if the entry of its key was `c`. -/
theorem earlyRelease_summary {s s' : KeyState} {ev : InputEvent} {l : List Effect}
    (h : earlyRelease s ev = some (s', l)) (c : KeyCode) :
    ∃ k, ev.code = codeOf k ∧
      (∃ l', l = .released ev (s.releaseMap k) true :: l' ∧ released l' = []) ∧
      keyEdges c (sends l)
        = if ev.isRelease = true ∧ s.releaseMap k = codeOf c then [false] else [] := by
  have hsyn : keyEdges c [synEvent] = [] := by
    rw [keyEdges_cons, keyEdge_of_not_key (by decide)]
    rfl
  obtain ⟨k, hcode, hvalue, ⟨hmap, _, rfl⟩ | ⟨_, _, _, rfl⟩⟩ := earlyRelease_eq_some h
  · refine ⟨k, hcode, ⟨_, rfl, rfl⟩, ?_⟩
    rw [if_neg fun hck => codeOf_ne_resetKeymap c (hck.2.symm.trans hmap)]
    rfl
  · refine ⟨k, hcode, ⟨_, rfl, rfl⟩, ?_⟩
    show keyEdges c ([{ ev with code := s.releaseMap k }] ++ [synEvent]) = _
    rw [keyEdges_append, hsyn, List.append_nil]
    by_cases hrel : ev.isRelease = true
    · rw [keyEdges_mapped _ hrel]
      simp only [hrel, true_and]
    · -- value 0 but no key event
      have htype : ev.type ≠ evKey := fun he => hrel (InputEvent.isRelease_iff.mpr ⟨he, hvalue⟩)
      have hedge : keyEdge c { ev with code := s.releaseMap k } = none := keyEdge_of_not_key htype
      rw [if_neg fun hck => hrel hck.1, keyEdges_cons, hedge]
      rfl

/-! ### `Recorded` -/

/-- What `release_map` holds for a key that is down: the code of the simple key it was acted
    on as, or `RESET_KEYMAP` for a layer.  Macros leave whatever was there. -/
def Recorded (log : List Effect) (s : KeyState) : Prop :=
  ∀ k, keyDown k log = true →
    (∃ c, lastAction k log = some (.ktSimple c) ∧ s.releaseMap k = codeOf c) ∨
    (∃ ch, lastAction k log = some (.ktMacro ch)) ∨
    (∃ map, lastAction k log = some (.ktMap map) ∧ s.releaseMap k = resetKeymap)

theorem Recorded.simple {log : List Effect} {s : KeyState} (h : Recorded log s) {k c : KeyCode}
    (hdown : keyDown k log = true) (hlast : lastAction k log = some (.ktSimple c)) :
    s.releaseMap k = codeOf c := by
  rcases h k hdown with ⟨d, hd, hmap⟩ | ⟨ch, hch⟩ | ⟨map, hm, _⟩
  · rw [hlast] at hd
    cases hd
    exact hmap
  · rw [hlast] at hch
    cases hch
  · rw [hlast] at hm
    cases hm

/-- It speaks about `release_map` and about where the keys are. -/
theorem Recorded.of_eq {log log' : List Effect} {s s' : KeyState} (h : Recorded log s)
    (hdown : ∀ k, keyDown k log' = true → keyDown k log = true)
    (hlast : ∀ k, lastAction k log' = lastAction k log) (hmap : s'.releaseMap = s.releaseMap) :
    Recorded log' s' := by
  intro k hk
  rw [hlast, hmap]
  exact h k (hdown k hk)

theorem recorded_init (root : KeyAction) : Recorded [] (KeyState.init root) := by
  intro k hdown
  exact absurd hdown (by simp [keyDown])

theorem Handled.recorded {log : List Effect} {s s' : KeyState} {now : Timeval} {ev : InputEvent}
    {queued : List InputEvent} {l : List Effect} (h : Handled s now ev queued true s' l)
    (hs : Recorded log s) : Recorded (log ++ l) s' := by
  intro k
  rw [keyDown_append, lastAction_append, h.foldl_downStep k]
  by_cases hk : ev.code = codeOf k
  · cases h with
    | ignored hcode => rw [keyEdge_of_ignored hcode]; exact hs k
    | passed hkey => rw [keyEdge_of_not_key hkey]; exact hs k
    | repeated j hvalue _ _ _ => rw [keyEdge_of_repeat hvalue]; exact hs k
    | releasedLayer _ hrel _ _ => simp [keyEdge_release hrel, hk]
    | releasedNothing _ hrel _ _ => simp [keyEdge_release hrel, hk]
    | releasedCode _ hrel _ _ _ => simp [keyEdge_release hrel, hk]
    | pressed hpress hcode hchosen hacted =>
      intro _
      rw [List.foldl_append, hacted.foldl_actionStep, if_pos hk]
      obtain rfl := codeOf_injective (hcode.symm.trans hk)
      cases hacted with
      | simple d => exact .inl ⟨d, rfl, Function.update_self ..⟩
      | chain ch => exact .inr (.inl ⟨ch, rfl⟩)
      | layer map => exact .inr (.inr ⟨map, rfl, Function.update_self ..⟩)
  · obtain ⟨hmap, haction⟩ := h.other hk
    rw [keyEdge_of_code_ne hk, haction, hmap]
    exact hs k

theorem earlyRelease_recorded {log : List Effect} {s s' : KeyState} {ev : InputEvent}
    {l : List Effect} (h : earlyRelease s ev = some (s', l)) (hs : Recorded log s) :
    Recorded (log ++ l) s' := by
  refine hs.of_eq (fun k hdown => ?_) (fun k => ?_) (earlyRelease_key h 0 false).2.1
  · rw [keyDown_append, (earlyRelease_key h k _).2.2.2] at hdown
    split at hdown
    · exact absurd hdown (by simp)
    · exact hdown
  · rw [lastAction_append, earlyRelease_actionStep h]

/-! ### `LayerHeld` -/

/-- Outside the root keymap, a key that is down has `RESET_KEYMAP` in `release_map`. -/
def LayerHeld (log : List Effect) (s : KeyState) : Prop :=
  s.currentKeymap = s.rootKeymap ∨ ∃ k, keyDown k log = true ∧ s.releaseMap k = resetKeymap

theorem Handled.rootKeymap {s s' : KeyState} {now : Timeval} {ev : InputEvent}
    {queued : List InputEvent} {b : Bool} {l : List Effect}
    (h : Handled s now ev queued b s' l) : s'.rootKeymap = s.rootKeymap := by
  cases h with
  | pressed _ _ _ hacted => cases hacted <;> rfl
  | _ => rfl

/-- The edge of the oldest event moves its key: a press finds it up, a release down. -/
def Moves (log : List Effect) (ev : InputEvent) : Prop :=
  ∀ k e, keyEdge k ev = some e → keyDown k log = !e

theorem Handled.layerHeld {log : List Effect} {s s' : KeyState} {now : Timeval} {ev : InputEvent}
    {queued : List InputEvent} {l : List Effect} (h : Handled s now ev queued true s' l)
    (hmoves : Moves log ev) (hs : LayerHeld log s) : LayerHeld (log ++ l) s' := by
  -- as long as the keymap stays, the key that holds the layer has to stay down
  have hkeep : s'.currentKeymap = s.currentKeymap →
      (∀ k, keyDown k log = true → s.releaseMap k = resetKeymap → ev.code ≠ codeOf k ∨
        (keyEdge k ev = none ∧ s'.releaseMap k = s.releaseMap k)) →
      LayerHeld (log ++ l) s' := by
    intro hcur hother
    rcases hs with hroot | ⟨k, hdown, hmap⟩
    · exact .inl (by rw [hcur, h.rootKeymap]; exact hroot)
    · refine .inr ⟨k, ?_, ?_⟩
      · rw [keyDown_append, h.foldl_downStep k]
        rcases hother k hdown hmap with hne | ⟨hedge, _⟩
        · rw [keyEdge_of_code_ne hne]; exact hdown
        · rw [hedge]; exact hdown
      · rcases hother k hdown hmap with hne | ⟨_, heq⟩
        · rw [(h.other hne).1]; exact hmap
        · rw [heq]; exact hmap
  -- the key that is pressed was up
  have hpressed : ∀ k, ev.isPress = true → keyDown k log = true → ev.code ≠ codeOf k := by
    intro k hpress hdown hk
    have := hmoves k true (by rw [keyEdge_press hpress, if_pos hk])
    rw [hdown] at this
    exact absurd this (by simp)
  cases h with
  | ignored hcode => exact hkeep rfl fun k _ _ => .inr ⟨keyEdge_of_ignored hcode k, rfl⟩
  | passed hkey => exact hkeep rfl fun k _ _ => .inr ⟨keyEdge_of_not_key hkey, rfl⟩
  | repeated j hvalue _ _ _ => exact hkeep rfl fun k _ _ => .inr ⟨keyEdge_of_repeat hvalue, rfl⟩
  | releasedLayer j _ _ _ => exact .inl rfl
  -- the key that holds the layer has another entry than these
  | releasedNothing j _ hcode hmap =>
    refine hkeep rfl fun k _ hreset => .inl fun hk => ?_
    obtain rfl := codeOf_injective (hcode.symm.trans hk)
    rw [hmap] at hreset
    exact absurd hreset (by decide)
  | releasedCode j _ hcode hmap _ =>
    refine hkeep rfl fun k _ hreset => .inl fun hk => ?_
    obtain rfl := codeOf_injective (hcode.symm.trans hk)
    exact hmap hreset
  | pressed hpress hcode hchosen hacted =>
    cases hacted with
    | simple c => exact hkeep rfl fun k hdown _ => .inl (hpressed k hpress hdown)
    | chain ch => exact hkeep rfl fun k hdown _ => .inl (hpressed k hpress hdown)
    -- the new layer is held by the key that was pressed
    | layer map =>
      refine .inr ⟨_, ?_, Function.update_self ..⟩
      rw [keyDown_append, List.foldl_append, hchosen.foldl_downStep]
      simp [downStep, hcode]

theorem earlyRelease_layerHeld {log : List Effect} {s s' : KeyState} {ev : InputEvent}
    {l : List Effect} (h : earlyRelease s ev = some (s', l)) (hs : LayerHeld log s) :
    LayerHeld (log ++ l) s' := by
  have hkey := fun j => earlyRelease_key h j (keyDown j log)
  obtain ⟨j, hcode, _, ⟨_, rfl, _⟩ | ⟨hmap, _, rfl, _⟩⟩ := earlyRelease_eq_some h
  · exact .inl rfl
  · rcases hs with hroot | ⟨k, hdown, hreset⟩
    · exact .inl hroot
    · refine .inr ⟨k, ?_, hreset⟩
      rw [keyDown_append, (hkey k).2.2.2, if_neg ?_]
      · exact hdown
      · intro hedge
        obtain ⟨hk, _⟩ := keyEdge_eq_some_false hedge
        obtain rfl := codeOf_injective (hcode.symm.trans hk)
        exact hmap hreset

/-! ### `owed` -/

/-- Key `k` is down and will be released as `c`. -/
def owes (c : KeyCode) (log : List Effect) (s : KeyState) (k : KeyCode) : Bool :=
  keyDown k log && decide (s.releaseMap k = codeOf c)

/-- The number of keys that will be released as `c`. -/
def owed (c : KeyCode) (log : List Effect) (s : KeyState) : Nat := tally (owes c log s)

section Owed

variable {log : List Effect} {s s' : KeyState} {now : Timeval} {ev : InputEvent}
  {queued : List InputEvent} {l : List Effect} {c k : KeyCode}

variable (log c) in
/-- What is owed changes with what the key of the event owes. -/
theorem Handled.owed_change (h : Handled s now ev queued true s' l) (hk : ev.code = codeOf k) :
    owed c (log ++ l) s' + (owes c log s k).toNat
      = owed c log s + (owes c (log ++ l) s' k).toNat := by
  refine tally_change fun j hj => ?_
  have hne : ev.code ≠ codeOf j := by
    intro he
    exact hj (codeOf_injective (he.symm.trans hk))
  simp only [owes, keyDown_append, h.foldl_downStep j, keyEdge_of_code_ne hne, Option.getD_none,
    (h.other hne).1]

/-- An event that moves no key changes nothing. -/
theorem Handled.owed_idle (h : Handled s now ev queued true s' l)
    (hedge : ∀ k, keyEdge k ev = none) (hmap : s'.releaseMap = s.releaseMap) :
    owed c (log ++ l) s' = owed c log s := by
  have hsame : owes c (log ++ l) s' = owes c log s := by
    funext k
    simp only [owes, keyDown_append, h.foldl_downStep k, hedge, Option.getD_none, hmap]
  unfold owed
  rw [hsame]

variable (log c) in
/-- A release pays for its key. -/
theorem Handled.owed_released (h : Handled s now ev queued true s' l) (hmoves : Moves log ev)
    (hrel : ev.isRelease = true) (hk : ev.code = codeOf k) :
    owed c (log ++ l) s' + (decide (s.releaseMap k = codeOf c)).toNat = owed c log s := by
  have hedge : keyEdge k ev = some false := by rw [keyEdge_release hrel, if_pos hk]
  have hbefore : owes c log s k = decide (s.releaseMap k = codeOf c) := by
    simp [owes, hmoves k false hedge]
  have hafter : owes c (log ++ l) s' k = false := by
    simp [owes, keyDown_append, h.foldl_downStep k, hedge]
  have hchange := h.owed_change log c hk
  rw [hbefore, hafter] at hchange
  simpa using hchange

variable (log c) in
/-- A press that is acted on adds what its key will be released as. -/
theorem Handled.owed_pressed (h : Handled s now ev queued true s' l) (hmoves : Moves log ev)
    (hpress : ev.isPress = true) (hk : ev.code = codeOf k) :
    owed c (log ++ l) s' = owed c log s + (decide (s'.releaseMap k = codeOf c)).toNat := by
  have hedge : keyEdge k ev = some true := by rw [keyEdge_press hpress, if_pos hk]
  have hbefore : owes c log s k = false := by simp [owes, hmoves k true hedge]
  have hafter : owes c (log ++ l) s' k = decide (s'.releaseMap k = codeOf c) := by
    simp [owes, keyDown_append, h.foldl_downStep k, hedge]
  have hchange := h.owed_change log c hk
  rw [hbefore, hafter] at hchange
  simpa using hchange

/-- **Head.** Resolving the oldest event raises the counter of `c` only by what is owed for
    it afterwards. -/
theorem Handled.caps (h : Handled s now ev queued true s' l) {P : DualConfig → Prop}
    (hs : Ready P s) (hmoves : Moves log ev) (hc : c ≠ 0) :
    Caps (owed c log s) (keyEdges c (sends l)) (owed c (log ++ l) s') := by
  rcases h.summary hs c with ⟨hedge, hmap, _, hsent⟩ | ⟨k, hk, hrel, hmap, _, hsent⟩ |
    ⟨k, ka, hk, hpress, _, _, ⟨d, _, hmap, hsent⟩ | ⟨ch, _, hmap, hsent⟩ | ⟨map, _, hmap, hsent⟩⟩
  · -- no edge
    rw [hsent, h.owed_idle hedge hmap]
    exact caps_nil _
  · -- a release: what its key owed is paid
    have hpaid := h.owed_released log c hmoves hrel hk
    rw [hsent]
    by_cases hck : s.releaseMap k = codeOf c
    · rw [if_pos ⟨hck, hc⟩]
      rw [decide_eq_true hck, Bool.toNat_true] at hpaid
      rw [← hpaid]
      exact caps_release _
    · rw [if_neg fun h => hck h.1]
      rw [decide_eq_false hck, Bool.toNat_false, add_zero] at hpaid
      exact (caps_nil _).mono hpaid.ge
  · -- a simple key: its press of `c` is owed from now on
    have howed := h.owed_pressed log c hmoves hpress hk
    rw [hsent]
    simp only [hmap, Function.update_self, codeOf_inj] at howed
    by_cases hdc : d = c
    · rw [if_pos hdc]
      rw [decide_eq_true hdc, Bool.toNat_true] at howed
      rw [howed]
      exact caps_press _
    · rw [if_neg hdc]
      exact (caps_nil _).mono (by omega)
  · have howed := h.owed_pressed log c hmoves hpress hk
    exact (caps_balanced _ hsent).mono (by omega)
  · have howed := h.owed_pressed log c hmoves hpress hk
    rw [hsent]
    exact (caps_nil _).mono (by omega)

/-- **Tail.** The release taken early pays for its key. -/
theorem earlyRelease_caps (h : earlyRelease s ev = some (s', l))
    (hmoves : ∀ k, keyEdge k ev = some false → keyDown k log = true) :
    Caps (owed c log s) (keyEdges c (sends l)) (owed c (log ++ l) s') := by
  have hkey := fun j => earlyRelease_key h j (keyDown j log)
  obtain ⟨k, hcode, _, hsent⟩ := earlyRelease_summary h c
  rw [hsent]
  by_cases hrel : ev.isRelease = true
  · have hedge : keyEdge k ev = some false := by rw [keyEdge_release hrel, if_pos hcode]
    -- only the key of the event owes less afterwards
    have hchange : owed c (log ++ l) s' + (owes c log s k).toNat
        = owed c log s + (owes c (log ++ l) s' k).toNat := by
      refine tally_change fun j hj => ?_
      have hne : keyEdge j ev ≠ some false := by
        intro he
        exact hj (codeOf_injective ((keyEdge_eq_some_false he).1.symm.trans hcode))
      simp only [owes, keyDown_append, (hkey j).2.2.2, if_neg hne, (hkey j).2.1]
    have hbefore : owes c log s k = decide (s.releaseMap k = codeOf c) := by
      simp [owes, hmoves k hedge]
    have hafter : owes c (log ++ l) s' k = false := by
      simp only [owes, keyDown_append, (hkey k).2.2.2, if_pos hedge, Bool.false_and]
    rw [hbefore, hafter] at hchange
    by_cases hck : s.releaseMap k = codeOf c
    · rw [if_pos ⟨hrel, hck⟩]
      rw [decide_eq_true hck, Bool.toNat_true, Bool.toNat_false, add_zero] at hchange
      rw [← hchange]
      exact caps_release _
    · rw [if_neg fun h => hck h.2]
      rw [decide_eq_false hck, Bool.toNat_false, add_zero, add_zero] at hchange
      exact (caps_nil _).mono hchange.ge
  · -- an event that is no key release moves no key
    have hsame : owes c (log ++ l) s' = owes c log s := by
      funext j
      have hne : keyEdge j ev ≠ some false := fun he => hrel (keyEdge_eq_some_false he).2
      simp only [owes, keyDown_append, (hkey j).2.2.2, if_neg hne, (hkey j).2.1]
    rw [if_neg fun h => hrel h.1]
    unfold owed
    rw [hsame]
    exact caps_nil _

end Owed

/-! ### A whole call of `resolve` -/

section Resolve

variable {now : Timeval} {log : List Effect} {p p' : PlainResolver} {b : Bool} {l : List Effect}

/-- The event at the head of the queue moves its key. -/
theorem Alternating.moves {P : DualConfig → Prop} (hp : Alternating P log p) {ev : InputEvent}
    {rest : List InputEvent} (hqueue : p.queue = ev :: rest) : Moves log ev := by
  intro k e hedge
  have hk := hp.keys k
  unfold KeyAlternates at hk
  rw [hqueue, keyEdges_cons, hedge] at hk
  obtain ⟨hne, _⟩ := settle_cons.mp hk
  cases e <;> cases hd : keyDown k log <;> simp_all

/-- Leaving the oldest event waiting changes neither `release_map` nor any key. -/
theorem Handled.waiting_eq {s s' : KeyState} {ev : InputEvent} {queued : List InputEvent}
    (h : Handled s now ev queued false s' l) : s'.releaseMap = s.releaseMap ∧
      s'.currentKeymap = s.currentKeymap ∧ s'.rootKeymap = s.rootKeymap ∧ sends l = [] ∧
      (∀ k d, l.foldl (downStep k) d = d) ∧ ∀ k a, l.foldl (actionStep k) a = a := by
  cases h with
  | waiting _ _ _ _ => exact ⟨rfl, rfl, rfl, rfl, fun _ _ => rfl, fun _ _ => rfl⟩

/-- **One call.** What `resolve` adds to the counter of `c` is owed afterwards. -/
theorem plainResolve_caps (hp : Alternating RolloverMode log p)
    (h : plainResolve earlyRelease now p = .ok (b, p', l)) {c : KeyCode} (hc : c ≠ 0) :
    Caps (owed c log p.toKeyState) (keyEdges c (sends l)) (owed c (log ++ l) p'.toKeyState) := by
  have hs : Ready RolloverMode { p.toKeyState with useResolvableTime := false } :=
    hp.ready.of_eq rfl rfl rfl
  rcases plainResolve_cases h with ⟨_, _, rfl, rfl⟩ | ⟨ev, rest, s', hqueue, _, rfl, hh⟩ |
    ⟨ev, rest, newest, s₁, l₁, hqueue, _, hnewest, hh, hearly⟩
  · rw [List.append_nil]
    exact caps_nil _
  · exact hh.caps hs (hp.moves hqueue) hc
  · -- the oldest event waits: what is owed is the same as before
    obtain ⟨hmap, _, _, hsent, hdown, _⟩ := hh.waiting_eq
    have hsame : owed c (log ++ l₁) s₁ = owed c log p.toKeyState := by
      have howes : owes c (log ++ l₁) s₁ = owes c log p.toKeyState := by
        funext k
        simp only [owes, keyDown_append, hdown, hmap]
      unfold owed
      rw [howes]
    rcases hearly with ⟨_, rfl, rfl⟩ | ⟨s₂, l₂, hearly, rfl, rfl⟩
    · rw [hsent, hsame]
      exact caps_nil _
    · rw [sends_append, hsent, List.nil_append, ← List.append_assoc, ← hsame]
      refine earlyRelease_caps hearly fun k hedge => ?_
      have hno := hh.unqueued hs hnewest hedge
      rw [← hqueue] at hno
      rw [keyDown_append, hdown]
      exact (newest_release hp (queue_newest hqueue hnewest) hedge hno).2.1

end Resolve

end Sdiol
