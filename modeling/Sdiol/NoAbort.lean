import Sdiol.Lua
import Sdiol.Safety

namespace Sdiol

/-!
# Accepted configurations cannot abort the resolver

`Visited root Good r` says that the resolver can be in state `r`, before or after any call that
`serve_loop` makes for it, when all events satisfy `Good`.  `accepted_never_aborts` follows a
script from the values it builds to those states: what `grab_keyboard` accepts is filled to a
keymap in which no ill-formed action can be reached, and with that keymap no call fails.
-/

/-! ### Actions that can be reached -/

/-- The second action is the first one or lies below it, at any depth. -/
inductive KeyAction.Reaches : KeyAction → KeyAction → Prop
  | self (ka : KeyAction) : Reaches ka ka
  | entry {map : KeyCode → KeyAction} {ka : KeyAction} (i : KeyCode) (h : Reaches (map i) ka) :
      Reaches (.ktMap map) ka
  | tap {tap hold ka : KeyAction} {dual : DualConfig} (h : Reaches tap ka) :
      Reaches (.ktDual tap hold dual) ka
  | hold {tap hold ka : KeyAction} {dual : DualConfig} (h : Reaches hold ka) :
      Reaches (.ktDual tap hold dual) ka

/-- What lies below a filled action is filled. -/
theorem KeyAction.Reaches.filled {root ka : KeyAction} (h : root.Reaches ka) (hroot : root.Filled) :
    ka.Filled := by
  induction h with
  | self ka => exact hroot
  | entry i _ ih => exact ih (hroot i)
  | tap _ ih => exact ih hroot.2.1
  | hold _ ih => exact ih hroot.2.2

theorem KeyAction.Filled.isNone {ka : KeyAction} (h : ka.Filled) : ka.isNone = false := by
  cases ka with
  | ktNone => exact h.elim
  | ktRef ref => exact h.elim
  | _ => rfl

/-- The tap of a filled dual key is a simple key or a macro. -/
theorem KeyAction.Filled.tap {tap hold : KeyAction} {dual : DualConfig}
    (h : (ktDual tap hold dual).Filled) :
    (∃ c, tap = .ktSimple c) ∨ ∃ chain, tap = .ktMacro chain := by
  obtain ⟨⟨hdual, hmap, _⟩, htap, _⟩ := h
  cases tap with
  | ktNone => exact htap.elim
  | ktRef ref => exact htap.elim
  | ktSimple c => exact .inl ⟨c, rfl⟩
  | ktMacro chain => exact .inr ⟨chain, rfl⟩
  | ktDual _ _ _ => exact absurd hdual (by simp [isDual])
  | ktMap _ => exact absurd hmap (by simp [isMap])

/-! ### States the resolver goes through -/

/-- `r->unresolved[(r->ur_start + r->ur_len++) % URMAX] = ev` -/
def Resolver.push (r : Resolver) (ev : InputEvent) : Resolver :=
  { r with unresolved := Function.update r.unresolved ((r.urStart + r.urLen) % urMax) ev
           urLen := r.urLen + 1 }

/-- The resolver of a grab can be in state `r` before or after a call. -/
inductive Visited (root : KeyAction) (Good : InputEvent → Prop) : Resolver → Prop
  | init : Visited root Good (resolverInit root)
  | filtered {r : Resolver} {ev : InputEvent} {pass : Bool} {s : KeyState}
      (h : Visited root Good r) (hev : Good ev)
      (hdedup : resolveDedupInput r.toKeyState ev = .ok (pass, s)) :
      Visited root Good { r with toKeyState := s }
  | queued {r : Resolver} {ev : InputEvent} (h : Visited root Good r) (hev : Good ev)
      (hroom : r.urLen ≠ urMax) : Visited root Good (r.push ev)
  | resolved {r r' : Resolver} {now : Timeval} {b : Bool} {l : List Effect}
      (h : Visited root Good r) (hstep : resolve now r = .ok (b, r', l)) : Visited root Good r'

variable {root : KeyAction} {Good : InputEvent → Prop} {r r' : Resolver}

theorem serveEvent_visited {clk : Nat → Timeval} {ev : InputEvent} {l : List Effect}
    (hr : Visited root Good r) (hev : Good ev) (h : serveEvent clk ev r = .ok (r', l)) :
    Visited root Good r' := by
  unfold serveEvent at h
  obtain ⟨⟨pass, s⟩, hdedup, h⟩ := Steps.bind_eq_ok.mp h
  have hfiltered := hr.filtered hev hdedup
  simp only at h
  split at h
  · split at h
    · exact absurd h (by simp)
    · rename_i hroom
      obtain ⟨⟨r₁, log⟩, hloop, h⟩ := Steps.bind_eq_ok.mp h
      cases h
      refine Steps.loop_inv (fun _ r => Visited root Good r) ?_ []
        (hfiltered.queued hev hroom) hloop
      exact fun _ _ _ _ _ _ hr hstep => hr.resolved hstep
  · cases h
    exact hfiltered

/-- **Runs visit.** The state after a run, hence after each of its events, is visited. -/
theorem runResolver_visited {inputs : List Reading} {log : List Effect}
    (hgood : ∀ i ∈ inputs, Good i.ev) (h : runResolver root inputs = .ok (r, log)) :
    Visited root Good r :=
  Steps.run_inv (fun _ r => Visited root Good r)
    (fun i hi _ _ _ _ hr hstep => serveEvent_visited hr (hgood i hi) hstep) .init h

theorem Resolver.plain_push {r : Resolver} {ev : InputEvent} (hroom : r.urLen < urMax) :
    (r.push ev).plain = ⟨r.toKeyState, r.queue ++ [ev]⟩ := by
  unfold Resolver.plain Resolver.queue Resolver.push
  simp only [RingBuffer.contents_push _ _ _ _ _ hroom]

theorem Visited.inBounds (h : Visited root Good r) : r.InBounds := by
  induction h with
  | init => exact resolverInit_inBounds root
  | filtered _ _ _ ih => exact ih
  | queued _ _ hroom ih =>
    refine ⟨ih.1, ?_⟩
    have hlen := ih.2
    show _ + 1 ≤ urMax
    omega
  | resolved _ hstep ih => exact resolve_inBounds hstep ih

/-- Only events that arrived are in the queue. -/
theorem Visited.queue_good (h : Visited root Good r) : ∀ ev ∈ r.queue, Good ev := by
  induction h with
  | init => simp [resolverInit, Resolver.queue]
  | filtered _ _ _ ih => exact ih
  | @queued r ev h hev hroom ih =>
    have hlen := h.inBounds.2
    have hqueue : (r.push ev).queue = r.queue ++ [ev] :=
      congrArg PlainResolver.queue (Resolver.plain_push (by omega))
    intro e he
    rw [hqueue] at he
    rcases List.mem_append.mp he with he | he
    · exact ih e he
    · rw [List.mem_singleton.mp he]
      exact hev
  | resolved _ hstep ih =>
    intro e he
    exact ih e (mem_of_plainResolve (resolve_plain_ok hstep) he)

theorem Visited.runReady {P : DualConfig → Prop} (hmap : root.isMap = true)
    (hroot : root.Usable P) (h : Visited root CodeInRange r) : RunReady P r.plain := by
  induction h with
  | init =>
    refine ⟨ready_init hmap hroot, fun ev hev => ?_⟩
    simp [resolverInit, Resolver.queue] at hev
  | filtered _ _ hdedup ih => exact ih.dedup hdedup
  | queued h hev hroom ih =>
    have hlen := h.inBounds.2
    rw [Resolver.plain_push (by omega)]
    exact ih.push hev
  | resolved _ hstep ih => exact plainResolve_runReady (resolve_plain_ok hstep) ih

/-- No call of `resolve` fails where none fails on the queue. -/
theorem resolve_total {P : DualConfig → Prop} (now : Timeval) (h : RunReady P r.plain) :
    ∃ b r' l, resolve now r = .ok (b, r', l) := by
  obtain ⟨b, p', l, hplain, _⟩ := plainResolve_total now h
  rw [← resolve_plain] at hplain
  obtain ⟨⟨b, r', l⟩, hok, _⟩ := Steps.map_eq_ok hplain
  exact ⟨b, r', l, hok⟩

/-! ### From the script to the resolver -/

/-- **No accepted configuration aborts.** If `grab_keyboard` accepts a value that a script can
    build, then in the keymap it makes of it no `KT_NONE` can be reached, the tap of every
    dual key is a simple key or a macro, and its hold is no dual key.  In every state that the
    resolver goes through on events with codes below `KEY_MAX`, the current keymap is a map
    and no call fails, whatever the clock reads; so a whole run only ever fails by the
    overflow of the queue. -/
theorem accepted_never_aborts {v : LuaValue} {root : KeyAction} (hv : Scripted v)
    (h : luaGrabKeyboard v = .ok root) :
    (∀ ka, root.Reaches ka → ka.isNone = false ∧ ∀ tap hold dual, ka = .ktDual tap hold dual →
      ((∃ c, tap = .ktSimple c) ∨ ∃ chain, tap = .ktMacro chain) ∧ hold.isDual = false) ∧
    (∀ r, Visited root CodeInRange r → r.currentKeymap.isMap = true ∧
      (∀ now, ∃ b r' l, resolve now r = .ok (b, r', l)) ∧
      ∀ ev, CodeInRange ev → ∃ pass s, resolveDedupInput r.toKeyState ev = .ok (pass, s)) ∧
    ∀ inputs : List Reading, (∀ i ∈ inputs, CodeInRange i.ev) →
      runResolver root inputs = .error .overflow ∨
        ∃ r log, runResolver root inputs = .ok (r, log) ∧ Visited root CodeInRange r := by
  obtain ⟨km, rfl⟩ := luaGrabKeyboard_keymap hv h
  refine ⟨fun ka hreach => ?_, fun r hr => ?_, fun inputs hin => ?_⟩
  · have hfilled := hreach.filled km.root_filled
    refine ⟨hfilled.isNone, ?_⟩
    rintro tap hold dual rfl
    exact ⟨hfilled.tap, hfilled.1.2.2⟩
  · have hready := hr.runReady rfl km.root_usable_true
    exact ⟨hready.1.current_map, fun now => resolve_total now hready,
      fun ev hev => resolveDedupInput_total r.toKeyState hev⟩
  · rcases runResolver_total rfl km.root_usable_true hin with hover | ⟨r, log, hok⟩
    · exact .inl hover
    · exact .inr ⟨r, log, hok, runResolver_visited hin hok⟩

/-- `dual_key(45, 42, HOLD_ON_ROLLOVER)` -/
def shiftDual : LuaValue :=
  .userdata (.ktDual (.ktSimple 45) (.ktSimple 42) ⟨.holdOnRollover, 200, 300⟩)

/-- `shift(30)` -/
def shiftedA : LuaValue := .userdata (.ktMacro [⟨42, true⟩, ⟨30, true⟩, ⟨30, false⟩, ⟨42, false⟩])

/-- `{KEY_A = shift(30)}` -/
def shiftedLayer : LuaValue := .table [(.text "KEY_A".toUTF8.toList, shiftedA)]

/-- `{KEY_X = dual_key(45, 42, HOLD_ON_ROLLOVER), KEY_L = {KEY_A = shift(30)}}` -/
def scriptedKeymap : LuaValue :=
  .table [(.text "KEY_X".toUTF8.toList, shiftDual), (.text "KEY_L".toUTF8.toList, shiftedLayer)]

theorem scriptedKeymap_scripted : Scripted scriptedKeymap := by
  have hdualArgs : ∀ arg ∈ [.integer 45, .integer 42, .integer 1], Scripted arg := by
    simp [Scripted.integer]
  have hdual : Scripted shiftDual := .dualKey hdualArgs rfl
  have hshiftArgs : ∀ arg ∈ [.integer 30], Scripted arg :=
    List.forall_mem_singleton.mpr (.integer 30)
  have hshift : luaShift ∈ [luaShift, luaCtrl, luaAlt, luaMeta] := List.mem_cons_self
  have hshifted : Scripted shiftedA := .modified hshift hshiftArgs rfl
  have hlayer : Scripted shiftedLayer := .table (List.forall_mem_singleton.mpr hshifted)
  exact .table (List.forall_mem_cons.mpr ⟨hdual, List.forall_mem_singleton.mpr hlayer⟩)

/-- That keymap is accepted, and no call fails with it. -/
theorem accepted_never_aborts_layer : ∃ root, luaGrabKeyboard scriptedKeymap = .ok root ∧
    ∀ r, Visited root CodeInRange r → ∀ now, ∃ b r' l, resolve now r = .ok (b, r', l) := by
  have hgrab : (luaGrabKeyboard scriptedKeymap).map (fun _ => ()) = .ok () := by decide +kernel
  obtain ⟨root, hok, _⟩ := Steps.map_eq_ok hgrab
  exact ⟨root, hok, fun r hr => ((accepted_never_aborts scriptedKeymap_scripted hok).2.1 r hr).2.1⟩

end Sdiol
