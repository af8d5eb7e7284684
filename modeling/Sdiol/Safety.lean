import Sdiol.Moves

namespace Sdiol

/-!
# Runs that cannot fail

`Ready P s` is the typing invariant of the resolver: the root and the current keymap are
filled maps whose dual keys satisfy `P`, and `release_map` holds codes below `KEY_MAX` or
`RESET_KEYMAP`.  It holds of `resolver_init` on a filled keymap (`ready_init`), every call of
`resolve` keeps it (`Handled.ready`, `earlyRelease_ready`), and from it no branch that ends
the program is reached on key codes below `KEY_MAX`: the only failure left is the overflow of
the queue (`runPlain_total`, `runResolver_total`).
-/

/-! ### Usable actions -/

/-- Filled, with every dual key satisfying `P`. -/
def KeyAction.Usable (P : DualConfig → Prop) (ka : KeyAction) : Prop :=
  ka.Filled ∧ ka.AllDuals P

variable {P : DualConfig → Prop}

theorem KeyAction.Usable.entry {map : KeyCode → KeyAction} (h : (ktMap map).Usable P)
    (i : KeyCode) : (map i).Usable P := ⟨h.1 i, h.2 i⟩

theorem KeyAction.Usable.tap {tap hold : KeyAction} {dual : DualConfig}
    (h : (ktDual tap hold dual).Usable P) : tap.Usable P ∧ tap.isDual = false :=
  ⟨⟨h.1.2.1, h.2.2.1⟩, h.1.1.1⟩

theorem KeyAction.Usable.hold {tap hold : KeyAction} {dual : DualConfig}
    (h : (ktDual tap hold dual).Usable P) : hold.Usable P ∧ hold.isDual = false :=
  ⟨⟨h.1.2.2, h.2.2.2⟩, h.1.1.2.2⟩

theorem Keymap.root_usable {km : Keymap} (h : ∀ i, (km.entries i).AllDuals P) :
    km.root.Usable P := ⟨km.root_filled, km.root_allDuals h⟩

theorem allDuals_true (ka : KeyAction) : ka.AllDuals fun _ => True := by
  induction ka with
  | ktNone => trivial
  | ktRef ref _ => trivial
  | ktSimple c => trivial
  | ktMacro ch => trivial
  | ktDual tap hold dual ihTap ihHold => exact ⟨trivial, ihTap, ihHold⟩
  | ktMap map ih => exact ih

theorem Keymap.root_usable_true (km : Keymap) : km.root.Usable fun _ => True :=
  Keymap.root_usable fun i => allDuals_true (km.entries i)

/-! ### The typing invariant -/

/-- A code `release_map` may hold. -/
def ReleaseCode (code : UInt16) : Prop := code = resetKeymap ∨ code.toNat < keyMax

theorem releaseCode_zero : ReleaseCode 0 := .inr (show (0 : UInt16).toNat < keyMax by decide)

theorem releaseCode_codeOf (c : KeyCode) : ReleaseCode (codeOf c) :=
  .inr (by rw [codeOf_toNat]; exact c.isLt)

/-- The typing invariant of the resolver. -/
structure Ready (P : DualConfig → Prop) (s : KeyState) : Prop where
  root_map : s.rootKeymap.isMap = true
  root : s.rootKeymap.Usable P
  current_map : s.currentKeymap.isMap = true
  current : s.currentKeymap.Usable P
  codes : ∀ k, ReleaseCode (s.releaseMap k)

theorem ready_init {root : KeyAction} (hmap : root.isMap = true) (h : root.Usable P) :
    Ready P (KeyState.init root) :=
  ⟨hmap, h, hmap, h, fun _ => releaseCode_zero⟩

/-- The invariant speaks about the keymaps and `release_map` only. -/
theorem Ready.of_eq {s s' : KeyState} (h : Ready P s) (hroot : s'.rootKeymap = s.rootKeymap)
    (hcur : s'.currentKeymap = s.currentKeymap) (hmap : s'.releaseMap = s.releaseMap) :
    Ready P s' := by
  obtain ⟨h₁, h₂, h₃, h₄, h₅⟩ := h
  exact ⟨hroot ▸ h₁, hroot ▸ h₂, hcur ▸ h₃, hcur ▸ h₄, hmap ▸ h₅⟩

theorem Ready.update {s : KeyState} (h : Ready P s) {k : KeyCode} {code : UInt16}
    (hcode : ReleaseCode code) (j : KeyCode) :
    ReleaseCode (Function.update s.releaseMap k code j) := by
  by_cases hj : j = k
  · subst hj
    simpa using hcode
  · rw [Function.update_of_ne hj]
    exact h.codes j

/-- Every lookup in the current keymap finds a usable action. -/
theorem Ready.lookup {s : KeyState} (h : Ready P s) (k : KeyCode) :
    ∃ ka, keyActionGet s.currentKeymap k = .ok ka ∧ ka.Usable P := by
  have hmap := h.current_map
  have huse := h.current
  cases hcur : s.currentKeymap with
  | ktMap map =>
    rw [hcur] at huse
    exact ⟨map k, keyActionGet_ktMap map k, huse.entry k⟩
  | _ => simp [hcur, KeyAction.isMap] at hmap

theorem Ready.lookup_usable {s : KeyState} (h : Ready P s) {k : KeyCode} {ka : KeyAction}
    (hget : keyActionGet s.currentKeymap k = .ok ka) : ka.Usable P := by
  obtain ⟨ka', hget', huse⟩ := h.lookup k
  rw [hget] at hget'
  cases hget'
  exact huse

/-- The action a press settles on is usable and not a dual key. -/
theorem Chosen.usable {s : KeyState} {now : Timeval} {ev : InputEvent} {queued : List InputEvent}
    {k : KeyCode} {ka : KeyAction} {pre : List Effect} {t : LastTap}
    (h : Chosen s now ev queued k ka pre t) (hs : Ready P s) :
    ka.Usable P ∧ ka.isDual = false := by
  cases h with
  | plain hget hdual => exact ⟨hs.lookup_usable hget, hdual⟩
  | tap hget _ => exact (hs.lookup_usable hget).tap
  | hold hget _ => exact (hs.lookup_usable hget).hold

/-! ### The invariant is kept -/

theorem Acted.ready {s s' : KeyState} {ev : InputEvent} {k : KeyCode} {ka : KeyAction}
    {l : List Effect} (h : Acted s ev k ka s' l) (hs : Ready P s) (hka : ka.Usable P) :
    Ready P s' := by
  cases h with
  | simple c => exact { hs with codes := hs.update (releaseCode_codeOf c) }
  | chain ch => exact hs
  | layer map => exact ⟨hs.root_map, hs.root, rfl, hka, hs.update (.inl rfl)⟩

theorem Handled.ready {s s' : KeyState} {now : Timeval} {ev : InputEvent}
    {queued : List InputEvent} {b : Bool} {l : List Effect}
    (h : Handled s now ev queued b s' l) (hs : Ready P s) : Ready P s' := by
  cases h with
  | ignored _ => exact hs
  | passed _ => exact hs
  | repeated _ _ _ _ _ => exact hs
  | releasedLayer k _ _ _ =>
    exact ⟨hs.root_map, hs.root, hs.root_map, hs.root, hs.update releaseCode_zero⟩
  | releasedNothing k _ _ _ => exact { hs with codes := hs.update releaseCode_zero }
  | releasedCode k _ _ _ _ => exact { hs with codes := hs.update releaseCode_zero }
  | pressed _ _ hchosen hacted =>
    exact hacted.ready (hs.of_eq rfl rfl rfl) (hchosen.usable hs).1
  | waiting _ _ _ _ => exact hs.of_eq rfl rfl rfl

theorem earlyRelease_ready {s s' : KeyState} {ev : InputEvent} {l : List Effect}
    (h : earlyRelease s ev = some (s', l)) (hs : Ready P s) : Ready P s' := by
  obtain ⟨k, _, _, ⟨_, rfl, _⟩ | ⟨_, _, rfl, _⟩⟩ := earlyRelease_eq_some h
  · exact ⟨hs.root_map, hs.root, hs.root_map, hs.root, hs.codes⟩
  · exact hs

theorem plainResolve_ready {now : Timeval} {p p' : PlainResolver} {b : Bool} {l : List Effect}
    (h : plainResolve earlyRelease now p = .ok (b, p', l)) (hp : Ready P p.toKeyState) :
    Ready P p'.toKeyState := by
  have hs : Ready P { p.toKeyState with useResolvableTime := false } := hp.of_eq rfl rfl rfl
  rcases plainResolve_cases h with ⟨_, _, rfl, _⟩ | ⟨ev, rest, s', _, _, rfl, hh⟩ |
    ⟨ev, rest, newest, s₁, l₁, _, _, _, hh, ⟨_, rfl, _⟩ | ⟨s₂, l₂, hearly, rfl, _⟩⟩
  · exact hp
  · exact hh.ready hs
  · exact hh.ready hs
  · exact earlyRelease_ready hearly (hh.ready hs)

/-! ### No call fails -/

theorem doKeypress_total {s : KeyState} {ev : InputEvent} {k : KeyCode} {ka : KeyAction}
    (hcode : ev.code = codeOf k) (hka : ka.Usable P) (hdual : ka.isDual = false) :
    ∃ s' l, doKeypress s ev ka = .ok (s', l) := by
  cases ka with
  | ktNone => exact hka.1.elim
  | ktRef ref => exact hka.1.elim
  | ktDual tap hold dual => simp [KeyAction.isDual] at hdual
  | ktSimple c => exact ⟨_, _, by rw [doKeypress, hcode, keyIndex_codeOf]; rfl⟩
  | ktMacro ch => exact ⟨_, _, rfl⟩
  | ktMap map => exact ⟨_, _, by rw [doKeypress, hcode, keyIndex_codeOf]; rfl⟩

theorem resolvePress_total {s : KeyState} (hs : Ready P s) (now : Timeval) {ev : InputEvent}
    {k : KeyCode} (hcode : ev.code = codeOf k) (queued : List InputEvent) :
    ∃ b s' l, resolvePress s now ev queued = .ok (b, s', l) := by
  obtain ⟨ka, hget, huse⟩ := hs.lookup k
  have hact : ∀ (s : KeyState) (ka : KeyAction), ka.Usable P → ka.isDual = false →
      ∃ s' l, doKeypress s ev ka = .ok (s', l) := fun s ka => doKeypress_total hcode
  unfold resolvePress
  rw [hcode, keyIndex_codeOf]
  simp only [bind, Except.bind, hget]
  -- a filled keymap has neither `KT_NONE` nor `KT_REF`
  cases ka with
  | ktNone => exact huse.1.elim
  | ktRef ref => exact huse.1.elim
  | ktSimple c =>
    obtain ⟨s', l, h⟩ := hact { s with lastTap := maybeInvalidateLastTap s.lastTap (codeOf k) }
      _ huse rfl
    exact ⟨true, s', l, by simp only [h]⟩
  | ktMacro ch =>
    obtain ⟨s', l, h⟩ := hact { s with lastTap := maybeInvalidateLastTap s.lastTap (codeOf k) }
      _ huse rfl
    exact ⟨true, s', l, by simp only [h]⟩
  | ktMap map =>
    obtain ⟨s', l, h⟩ := hact { s with lastTap := maybeInvalidateLastTap s.lastTap (codeOf k) }
      _ huse rfl
    exact ⟨true, s', l, by simp only [h]⟩
  | ktDual tap hold dual =>
    simp only
    generalize checkWaveform _ now ev dual queued = w
    obtain ⟨w, t⟩ := w
    cases w with
    | tap =>
      obtain ⟨s', l, h⟩ := hact { s with lastTap := t } tap huse.tap.1 huse.tap.2
      exact ⟨true, s', _, by simp only [h]; rfl⟩
    | hold =>
      obtain ⟨s', l, h⟩ := hact { s with lastTap := t } hold huse.hold.1 huse.hold.2
      exact ⟨true, s', _, by simp only [h]; rfl⟩
    | noneYet => exact ⟨false, _, _, rfl⟩

theorem resolveRelease_total (s : KeyState) {ev : InputEvent} {k : KeyCode}
    (hcode : ev.code = codeOf k) : ∃ s' l, resolveRelease s ev = .ok (s', l) := by
  unfold resolveRelease
  rw [hcode, keyIndex_codeOf]
  simp only [bind, Except.bind]
  split
  · exact ⟨_, _, rfl⟩
  · split <;> exact ⟨_, _, rfl⟩

theorem resolveEvent_total {s : KeyState} (hs : Ready P s) (now : Timeval) {ev : InputEvent}
    (hev : CodeInRange ev) (queued : List InputEvent) :
    ∃ b s' l, resolveEvent s now ev queued = .ok (b, s', l) := by
  unfold resolveEvent
  by_cases hkey : ev.type = evKey
  · obtain ⟨k, hk⟩ := exists_codeOf (hev hkey)
    have hlow : ¬ ev.code.toNat > keyMax := by
      have hlt : k.val < keyMax := k.isLt
      rw [hk, codeOf_toNat]
      omega
    rw [if_pos hkey, if_neg hlow]
    split
    · obtain ⟨s', l, h⟩ := resolveRelease_total s hk
      exact ⟨true, s', l, by rw [h]; rfl⟩
    · split
      · exact resolvePress_total hs now hk queued
      · split
        · rw [hk, keyIndex_codeOf]
          simp only [bind, Except.bind]
          split <;> exact ⟨_, _, _, rfl⟩
        · exact ⟨_, _, _, rfl⟩
  · rw [if_neg hkey]
    split <;> exact ⟨_, _, _, rfl⟩

theorem resolveDedupInput_total (s : KeyState) {ev : InputEvent} (hev : CodeInRange ev) :
    ∃ pass s', resolveDedupInput s ev = .ok (pass, s') := by
  unfold resolveDedupInput
  split
  · exact ⟨_, _, rfl⟩
  · rename_i hkey
    obtain ⟨k, hk⟩ := exists_codeOf (hev (not_not.mp hkey))
    rw [hk, keyIndex_codeOf]
    simp only [bind, Except.bind]
    split
    · exact ⟨_, _, rfl⟩
    · split
      · split <;> exact ⟨_, _, rfl⟩
      · split <;> exact ⟨_, _, rfl⟩

/-- What the totality of a run rests on. -/
def RunReady (P : DualConfig → Prop) (p : PlainResolver) : Prop :=
  Ready P p.toKeyState ∧ ∀ ev ∈ p.queue, CodeInRange ev

/-- A call of `resolve` takes events from the queue and adds none. -/
theorem plainResolve_runReady {now : Timeval} {p p' : PlainResolver} {b : Bool} {l : List Effect}
    (h : plainResolve earlyRelease now p = .ok (b, p', l)) (hp : RunReady P p) :
    RunReady P p' := by
  refine ⟨plainResolve_ready h hp.1, fun ev hev => ?_⟩
  exact hp.2 ev (mem_of_plainResolve h hev)

/-- What the input filter drops or lets through keeps what a run rests on. -/
theorem RunReady.dedup {p : PlainResolver} {ev : InputEvent} {pass : Bool} {s : KeyState}
    (hp : RunReady P p) (h : resolveDedupInput p.toKeyState ev = .ok (pass, s)) :
    RunReady P ⟨s, p.queue⟩ := by
  obtain ⟨counts, rfl⟩ := resolveDedupInput_eq h
  exact ⟨hp.1.of_eq rfl rfl rfl, hp.2⟩

theorem RunReady.push {p : PlainResolver} {ev : InputEvent} (hp : RunReady P p)
    (hev : CodeInRange ev) : RunReady P ⟨p.toKeyState, p.queue ++ [ev]⟩ := by
  refine ⟨hp.1, fun e he => ?_⟩
  rcases List.mem_append.mp he with h | h
  · exact hp.2 e h
  · rw [List.mem_singleton.mp h]
    exact hev

theorem plainResolve_total (now : Timeval) {p : PlainResolver} (hp : RunReady P p) :
    ∃ b p' l, plainResolve earlyRelease now p = .ok (b, p', l) ∧ RunReady P p' := by
  have hok : ∃ b p' l, plainResolve earlyRelease now p = .ok (b, p', l) := by
    unfold plainResolve
    split
    · exact ⟨_, _, _, rfl⟩
    · rename_i ev rest heq
      have hev : CodeInRange ev := hp.2 ev (heq ▸ List.mem_cons_self)
      have hs₀ : Ready P { p.toKeyState with useResolvableTime := false } :=
        hp.1.of_eq rfl rfl rfl
      obtain ⟨b, s', l, h⟩ := resolveEvent_total hs₀ now hev rest
      simp only [h, bind, Except.bind]
      cases b with
      | true => exact ⟨_, _, _, rfl⟩
      | false =>
        simp only [Bool.false_eq_true, if_false]
        split <;> exact ⟨_, _, _, rfl⟩
  obtain ⟨b, p', l, h⟩ := hok
  exact ⟨b, p', l, h, plainResolve_runReady h hp⟩

theorem plainEvent_total {capacity : Option Nat} (clk : Nat → Timeval) {ev : InputEvent}
    (hev : CodeInRange ev) {p : PlainResolver} (hp : RunReady P p) :
    (∃ e, plainEvent earlyRelease capacity clk ev p = .error e ∧ e = .overflow) ∨
      ∃ p' l, plainEvent earlyRelease capacity clk ev p = .ok (p', l) ∧ RunReady P p' := by
  obtain ⟨pass, s, hdedup⟩ := resolveDedupInput_total p.toKeyState hev
  have hs := hp.dedup hdedup
  unfold plainEvent
  rw [hdedup]
  simp only [bind, Except.bind]
  cases pass with
  | false => exact .inr ⟨_, _, rfl, hs⟩
  | true =>
    simp only [if_true]
    split
    · exact .inl ⟨_, rfl, rfl⟩
    · obtain ⟨p', l, hloop, hp'⟩ := Steps.loop_progress (RunReady P)
        (fun now p hp => plainResolve_total now hp) ((p.queue ++ [ev]).length + 1) clk
        (hs.push hev)
      rw [hloop]
      exact .inr ⟨p', _, rfl, hp'⟩

/-- **No run of the plain resolver fails**, except that its queue may overflow. -/
theorem runPlain_total (capacity : Option Nat) {root : KeyAction} (hmap : root.isMap = true)
    (hroot : root.Usable P) {inputs : List Reading} (hin : ∀ i ∈ inputs, CodeInRange i.ev) :
    runPlain earlyRelease capacity root inputs = .error .overflow ∨
      ∃ p log, runPlain earlyRelease capacity root inputs = .ok (p, log) := by
  have hinit : RunReady P ⟨KeyState.init root, []⟩ := ⟨ready_init hmap hroot, by simp⟩
  rcases Steps.run_progress (RunReady P) (fun e => e = Abort.overflow)
      (fun i hi p hp => plainEvent_total i.clk (hin i hi) hp) hinit with
    ⟨e, he, rfl⟩ | ⟨p, log, h, _⟩
  · exact .inl he
  · exact .inr ⟨p, log, h⟩

/-- **No run of the resolver fails**, except that its queue may overflow. -/
theorem runResolver_total {root : KeyAction} (hmap : root.isMap = true)
    (hroot : root.Usable P) {inputs : List Reading} (hin : ∀ i ∈ inputs, CodeInRange i.ev) :
    runResolver root inputs = .error .overflow ∨
      ∃ r log, runResolver root inputs = .ok (r, log) := by
  have hplain := runResolver_plain root inputs
  cases h : runResolver root inputs with
  | ok x => exact .inr ⟨x.1, x.2, rfl⟩
  | error e =>
    rw [h] at hplain
    rcases runPlain_total (some urMax) hmap hroot hin with h' | ⟨p, log, h'⟩
    · rw [h'] at hplain
      cases hplain
      exact .inl rfl
    · rw [h'] at hplain
      exact absurd hplain (by simp [Except.map])

end Sdiol
