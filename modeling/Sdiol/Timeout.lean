import Sdiol.StuckKeys

namespace Sdiol

/-!
# Keys in mode `TIMEOUT_ONLY`

`check_waveform` decides a `TIMEOUT_ONLY` press by the clock alone, and `resolve` takes
releases that arrive behind an undecided press from the queue at once.  What the two make of
a run, for keymaps with keys of any mode:

* a press that is more than `hold_ms` old is a hold, whether or not its key was released in
  time, unless it is a double tap (`checkWaveform_timeoutOnly`);
* a release whose press still waits in the queue is taken before it.

`timeout_only_obeyed` says exactly when neither matters.
-/

open Steps (Along along_nil along_cons)

/-! ### The current keymap -/

/-- An effect on the current keymap. -/
def keymapStep (root cur : KeyAction) : Effect → KeyAction
  | .keypress _ (.ktMap map) => .ktMap map
  | .released _ code _ => if code = resetKeymap then root else cur
  | _ => cur

/-- The keymap in which keys are looked up after the effects of `log`. -/
def keymapOf (root : KeyAction) (log : List Effect) : KeyAction :=
  log.foldl (keymapStep root) root

/-- The keymaps of the state are those of the log. -/
structure InKeymap (root : KeyAction) (log : List Effect) (s : KeyState) : Prop where
  rootKeymap : s.rootKeymap = root
  currentKeymap : s.currentKeymap = keymapOf root log

section Keymap

variable {root : KeyAction} {log l : List Effect} {s s' : KeyState}

theorem foldl_keymapStep_sends (root cur : KeyAction) (evs : List InputEvent) :
    (evs.map Effect.send).foldl (keymapStep root) cur = cur := by
  induction evs with
  | nil => rfl
  | cons ev evs ih => exact ih

/-- A step whose effects lead from keymap to keymap keeps the keymaps of the log. -/
theorem InKeymap.step (h : InKeymap root log s) (hroot : s'.rootKeymap = s.rootKeymap)
    (hcur : s'.currentKeymap = l.foldl (keymapStep root) s.currentKeymap) :
    InKeymap root (log ++ l) s' := by
  refine ⟨hroot.trans h.rootKeymap, ?_⟩
  rw [hcur, h.currentKeymap]
  exact List.foldl_append.symm

theorem Handled.inKeymap {now : Timeval} {ev : InputEvent} {queued : List InputEvent} {b : Bool}
    (h : Handled s now ev queued b s' l) (hs : InKeymap root log s) :
    InKeymap root (log ++ l) s' := by
  cases h with
  | ignored _ => exact hs.step rfl rfl
  | passed _ => exact hs.step rfl rfl
  | repeated _ _ _ _ _ => exact hs.step rfl rfl
  -- a release leaves its layer, and only if its key entered one
  | releasedLayer k _ _ hmap =>
    refine hs.step rfl ?_
    show s.rootKeymap = if s.releaseMap k = resetKeymap then root else s.currentKeymap
    rw [if_pos hmap, hs.rootKeymap]
  | releasedNothing k _ _ hmap =>
    refine hs.step rfl ?_
    show s.currentKeymap = if s.releaseMap k = resetKeymap then root else s.currentKeymap
    rw [if_neg (by rw [hmap]; decide)]
  | releasedCode k _ _ hmap _ =>
    refine hs.step rfl ?_
    show s.currentKeymap = if s.releaseMap k = resetKeymap then root else s.currentKeymap
    rw [if_neg hmap]
  | waiting _ _ _ _ => exact hs.step rfl rfl
  | @pressed _ _ pre _ _ _ _ _ hchosen hacted =>
    -- a check changes no keymap
    have hpre : ∀ cur, pre.foldl (keymapStep root) cur = cur := by
      intro cur
      rcases hchosen.log_eq with hnil | ⟨_, _, _, hone⟩
      · rw [hnil]
        rfl
      · rw [hone]
        rfl
    cases hacted with
    | simple c =>
      refine hs.step rfl ?_
      rw [List.foldl_append, hpre]
      rfl
    | chain ch =>
      refine hs.step rfl ?_
      rw [List.foldl_append, hpre]
      exact (foldl_keymapStep_sends root s.currentKeymap (ch.flatMap macroSends)).symm
    | layer map =>
      refine hs.step rfl ?_
      rw [List.foldl_append, hpre]
      rfl

theorem earlyRelease_inKeymap {ev : InputEvent} (h : earlyRelease s ev = some (s', l))
    (hs : InKeymap root log s) : InKeymap root (log ++ l) s' := by
  obtain ⟨k, _, _, ⟨hmap, rfl, rfl⟩ | ⟨hmap, _, rfl, rfl⟩⟩ := earlyRelease_eq_some h
  · refine hs.step rfl ?_
    show s.rootKeymap = if s.releaseMap k = resetKeymap then root else s.currentKeymap
    rw [if_pos hmap, hs.rootKeymap]
  · refine hs.step rfl ?_
    show s'.currentKeymap = if s'.releaseMap k = resetKeymap then root else s'.currentKeymap
    rw [if_neg hmap]

/-- **Step.** One call of `resolve` keeps the keymaps of the log. -/
theorem plainResolve_inKeymap {now : Timeval} {p p' : PlainResolver} {b : Bool}
    (hp : InKeymap root log p.toKeyState) (h : plainResolve earlyRelease now p = .ok (b, p', l)) :
    InKeymap root (log ++ l) p'.toKeyState := by
  have hs : InKeymap root log { p.toKeyState with useResolvableTime := false } :=
    ⟨hp.rootKeymap, hp.currentKeymap⟩
  rcases plainResolve_cases h with ⟨_, _, rfl, rfl⟩ | ⟨_, _, _, _, _, rfl, hh⟩ |
    ⟨_, _, _, _, _, _, _, _, hh, ⟨_, rfl, rfl⟩ | ⟨_, _, hearly, rfl, rfl⟩⟩
  · rwa [List.append_nil]
  · exact hh.inKeymap hs
  · exact hh.inKeymap hs
  · rw [← List.append_assoc]
    exact earlyRelease_inKeymap hearly (hh.inKeymap hs)

end Keymap

/-! ### What `check_waveform` answers -/

/-- The press `X` is more than `hold_ms` old. -/
def TimedOut (dual : DualConfig) (now : Timeval) (X : InputEvent) : Prop :=
  msecDiff now X.time > dual.holdMs

/-- The press `X` follows a tap of its key within `double_tap_ms`. -/
def DoubleTap (dual : DualConfig) (t : LastTap) (X : InputEvent) : Prop :=
  dual.doubleTapMs > -1 ∧ t.code = (X.code.toNat : Int) ∧
    (dual.doubleTapMs = 0 ∨ msecDiff X.time t.time < dual.doubleTapMs)

/-- At every answer of `check_waveform`: it is about the oldest press that was not acted on
    yet, whose key is bound to the dual key in the current keymap, and a tap or a hold is
    performed at once. -/
def Decides (root : KeyAction) (before : List Effect) (x : Effect) (after : List Effect) : Prop :=
  ∀ X dual now t w, x = .checked X dual now t w →
    (presses (arrivals before))[(performed before).length]? = some X ∧
    ∃ k tap hold, X.code = codeOf k ∧
      keyActionGet (keymapOf root before) k = .ok (.ktDual tap hold dual) ∧
      (∃ queued t', checkWaveform t now X dual queued = (w, t')) ∧
      (w = .tap → ∃ rest, after = .keypress X tap :: rest) ∧
      (w = .hold → ∃ rest, after = .keypress X hold :: rest)

section Decides

variable {root : KeyAction} {log l : List Effect} {s s' : KeyState} {now : Timeval}
  {ev : InputEvent} {queued : List InputEvent} {b : Bool}

theorem decides_mono (l₁ : List Effect) (x : Effect) (l₂ l : List Effect)
    (h : Decides root l₁ x l₂) : Decides root l₁ x (l₂ ++ l) := by
  intro X dual now t w hx
  obtain ⟨hnext, k, tap, hold, hk, hget, hanswer, htap, hhold⟩ := h X dual now t w hx
  refine ⟨hnext, k, tap, hold, hk, hget, hanswer, fun hw => ?_, fun hw => ?_⟩
  · obtain ⟨rest, rfl⟩ := htap hw
    exact ⟨rest ++ l, rfl⟩
  · obtain ⟨rest, rfl⟩ := hhold hw
    exact ⟨rest ++ l, rfl⟩

/-- Effects without an answer of `check_waveform` have nothing to decide. -/
theorem along_decides_of_ne (before : List Effect → List Effect)
    (h : ∀ X dual now t w, .checked X dual now t w ∉ l) :
    Along (fun l₁ => Decides root (before l₁)) l := by
  refine Steps.along_of_forall fun x hmem l₁ l₂ X dual now t w hx => ?_
  rw [hx] at hmem
  exact absurd hmem (h X dual now t w)

/-- The oldest event, if it is a press, is the oldest press that was not acted on. -/
theorem InOrder.next {p : PlainResolver} {rest : List InputEvent} (hp : InOrder log p)
    (hqueue : p.queue = ev :: rest) (hpress : ev.isPress = true) :
    (presses (arrivals log))[(performed log).length]? = some ev := by
  unfold InOrder at hp
  have hhead : presses p.queue = ev :: presses rest := by
    rw [hqueue]
    exact List.filter_cons_of_pos hpress
  rw [← hp, hhead, List.getElem?_append_right (by simp)]
  simp

theorem Acted.not_checked {k : KeyCode} {ka : KeyAction} (h : Acted s ev k ka s' l)
    (X : InputEvent) (dual : DualConfig) (now : Timeval) (t : LastTap) (w : Waveform) :
    .checked X dual now t w ∉ l := by
  rw [h.log_eq]
  simp

/-- An answer of `check_waveform` about the oldest press, followed by what comes of it. -/
theorem along_decides_checked (hs : InKeymap root log s) (hpress : ev.isPress = true)
    (hnext : ev.isPress = true →
      (presses (Sdiol.arrivals log))[(Sdiol.performed log).length]? = some ev)
    {k : KeyCode} {tap hold : KeyAction} {dual : DualConfig} {t t' : LastTap} {w : Waveform}
    (hcode : ev.code = codeOf k)
    (hget : keyActionGet s.currentKeymap k = .ok (.ktDual tap hold dual))
    (hcheck : checkWaveform t now ev dual queued = (w, t'))
    (htap : w = .tap → ∃ rest, l = .keypress ev tap :: rest)
    (hhold : w = .hold → ∃ rest, l = .keypress ev hold :: rest)
    (hl : ∀ X dual now t w, .checked X dual now t w ∉ l) :
    Along (fun l₁ => Decides root (log ++ l₁)) (.checked ev dual now t w :: l) := by
  refine along_cons.mpr ⟨?_, along_decides_of_ne _ hl⟩
  intro X dual now t w hx
  cases hx
  rw [List.append_nil]
  rw [hs.currentKeymap] at hget
  exact ⟨hnext hpress, k, tap, hold, hcode, hget, ⟨queued, t', hcheck⟩, htap, hhold⟩

theorem Handled.decides (h : Handled s now ev queued b s' l) (hs : InKeymap root log s)
    (hnext : ev.isPress = true →
      (presses (Sdiol.arrivals log))[(Sdiol.performed log).length]? = some ev) :
    Along (fun l₁ => Decides root (log ++ l₁)) l := by
  cases h with
  | waiting hpress hcode hget hcheck =>
    exact along_decides_checked hs hpress hnext hcode hget hcheck (fun h => absurd h (by simp))
      (fun h => absurd h (by simp)) (by simp)
  | pressed hpress hcode hchosen hacted =>
    cases hchosen with
    | plain _ _ => exact along_decides_of_ne _ hacted.not_checked
    | tap hget hcheck =>
      exact along_decides_checked hs hpress hnext hcode hget hcheck (fun _ => ⟨_, hacted.log_eq⟩)
        (fun h => absurd h (by simp)) hacted.not_checked
    | hold hget hcheck =>
      exact along_decides_checked hs hpress hnext hcode hget hcheck (fun h => absurd h (by simp))
        (fun _ => ⟨_, hacted.log_eq⟩) hacted.not_checked
  | _ => exact along_decides_of_ne _ (by simp)

/-- **Step.** One call of `resolve` keeps `Decides` along the log. -/
theorem plainResolve_decides {p p' : PlainResolver} (hp : Along (Decides root) log)
    (hs : InKeymap root log p.toKeyState) (horder : InOrder log p)
    (h : plainResolve earlyRelease now p = .ok (b, p', l)) : Along (Decides root) (log ++ l) := by
  have hs : InKeymap root log { p.toKeyState with useResolvableTime := false } :=
    ⟨hs.rootKeymap, hs.currentKeymap⟩
  rcases plainResolve_cases h with ⟨_, _, _, rfl⟩ | ⟨_, _, _, hqueue, _, _, hh⟩ |
    ⟨_, _, _, _, _, hqueue, _, _, hh, ⟨_, _, rfl⟩ | ⟨_, _, hearly, _, rfl⟩⟩
  · rwa [List.append_nil]
  · exact hp.append decides_mono (hh.decides hs (horder.next hqueue))
  · exact hp.append decides_mono (hh.decides hs (horder.next hqueue))
  · -- what is taken early adds no answer
    have hwait := hp.append decides_mono (hh.decides hs (horder.next hqueue))
    obtain ⟨code, evs, rfl⟩ := earlyRelease_log hearly
    rw [← List.append_assoc]
    exact hwait.append decides_mono (along_decides_of_ne _ (by simp))

end Decides

/-! ### What happens to a release -/

/-- The presses of key `k` in a list of events. -/
def pressesOf (k : KeyCode) (evs : List InputEvent) : List InputEvent :=
  evs.filter fun ev => ev.isPress && decide (ev.code = codeOf k)

/-- A release is taken early only when every press of its key that arrived was acted on. -/
def PressNotQueued (before : List Effect) (x : Effect) (_after : List Effect) : Prop :=
  ∀ R code k, x = .released R code true → keyEdge k R = some false →
    pressesOf k ((performed before).map Prod.fst) = pressesOf k (arrivals before)

/-- A release is taken from the queue only after the press it belongs to was acted on. -/
def AfterPress (before : List Effect) (x : Effect) (_after : List Effect) : Prop :=
  ∀ R code early k, x = .released R code early → keyEdge k R = some false →
    keyDown k before = true

@[simp] theorem pressesOf_append (k : KeyCode) (l₁ l₂ : List InputEvent) :
    pressesOf k (l₁ ++ l₂) = pressesOf k l₁ ++ pressesOf k l₂ := List.filter_append ..

@[simp] theorem pressesOf_presses (k : KeyCode) (evs : List InputEvent) :
    pressesOf k (presses evs) = pressesOf k evs := by
  unfold pressesOf presses
  rw [List.filter_filter]
  congr 1
  funext ev
  cases ev.isPress <;> simp

theorem true_notMem_keyEdges {k : KeyCode} {evs : List InputEvent} (h : pressesOf k evs = []) :
    true ∉ keyEdges k evs := by
  intro hmem
  obtain ⟨ev, hev, hedge⟩ := List.mem_filterMap.mp hmem
  obtain ⟨hcode, hpress⟩ := keyEdge_eq_some_true hedge
  exact List.filter_eq_nil_iff.mp h ev hev (by simp [hpress, hcode])

/-- If all presses of `k` that arrived were acted on, then none is queued. -/
theorem InOrder.unqueued {log : List Effect} {p : PlainResolver} (hp : InOrder log p) {k : KeyCode}
    (h : pressesOf k ((performed log).map Prod.fst) = pressesOf k (arrivals log)) :
    true ∉ keyEdges k p.queue := by
  have hall := congrArg (pressesOf k) hp
  rw [pressesOf_append, pressesOf_presses, pressesOf_presses, h] at hall
  exact true_notMem_keyEdges (by simpa using hall)

section Releases

variable {log l : List Effect} {s s' : KeyState} {now : Timeval} {ev : InputEvent}
  {queued : List InputEvent} {p p' : PlainResolver} {b : Bool}

theorem pressNotQueued_left (h : Along PressNotQueued (log ++ l)) : Along PressNotQueued log :=
  h.left fun _ _ _ _ hx => hx

theorem afterPress_mono (l₁ : List Effect) (x : Effect) (l₂ l : List Effect)
    (h : AfterPress l₁ x l₂) : AfterPress l₁ x (l₂ ++ l) := h

theorem afterPress_of_ne (before : List Effect → List Effect) (l₁ : List Effect) (x : Effect)
    (l₂ : List Effect) (h : ∀ ev code early, x ≠ .released ev code early) :
    AfterPress (before l₁) x l₂ := by
  intro R code early k hx
  exact absurd hx (h R code early)

/-- A release of a key that the resolver has down, followed by what is sent. -/
theorem along_afterPress_taken {code : UInt16} {early : Bool} (evs : List InputEvent)
    (hdown : ∀ k, keyEdge k ev = some false → keyDown k log = true) :
    Along (fun l₁ => AfterPress (log ++ l₁)) (.released ev code early :: evs.map Effect.send) := by
  refine along_cons.mpr ⟨?_, along_of_released_eq_nil (afterPress_of_ne _) (released_map_send evs)⟩
  intro R code early k hx hedge
  cases hx
  rw [List.append_nil]
  exact hdown k hedge

theorem Handled.afterPress (h : Handled s now ev queued b s' l) (hmoves : Moves log ev) :
    Along (fun l₁ => AfterPress (log ++ l₁)) l := by
  have hdown : ∀ k, keyEdge k ev = some false → keyDown k log = true := by
    intro k hedge
    simpa using hmoves k false hedge
  cases h with
  | ignored _ => exact along_nil _
  | passed _ => exact along_of_released_eq_nil (afterPress_of_ne _) rfl
  | repeated _ _ _ _ _ => exact along_of_released_eq_nil (afterPress_of_ne _) rfl
  | releasedLayer k _ _ _ => exact along_afterPress_taken [] hdown
  | releasedNothing k _ _ _ => exact along_afterPress_taken [] hdown
  | releasedCode k _ _ _ _ =>
    exact along_afterPress_taken [{ ev with code := s.releaseMap k }] hdown
  | waiting _ _ _ _ => exact along_of_released_eq_nil (afterPress_of_ne _) rfl
  | pressed _ _ hchosen hacted =>
    refine along_of_released_eq_nil (afterPress_of_ne _) ?_
    rw [released_append, hchosen.released, hacted.released]
    rfl

/-- Where releases are taken early only after their presses, they leave no press of their key
    in the queue. -/
theorem plainResolve_takenAfterPress_of_along (horder : InOrder log p)
    (h : plainResolve earlyRelease now p = .ok (b, p', l))
    (hnot : Along PressNotQueued (log ++ l)) : TakenAfterPress p.queue l := by
  intro R code k hmem hedge
  rcases plainResolve_cases h with ⟨_, _, _, rfl⟩ | ⟨_, _, _, _, _, _, hh⟩ |
    ⟨_, _, newest, s₁, l₁, _, _, _, hh, ⟨_, _, rfl⟩ | ⟨s₂, l₂, hearly, _, rfl⟩⟩
  · exact absurd hmem (by simp)
  · exact absurd hmem (hh.noEarly R code)
  · exact absurd hmem (hh.noEarly R code)
  · obtain ⟨_, evs, rfl⟩ := hh.early_eq hearly hmem
    have hat := hnot (log ++ l₁) (.released R code true) (evs.map .send)
      (List.append_assoc ..).symm R code k rfl hedge
    rw [performed_append, arrivals_append, hh.performed_waiting, hh.arrivals, List.append_nil,
      List.append_nil] at hat
    exact horder.unqueued hat

/-- What is known of the releases of one grab. -/
structure Delivered (log : List Effect) (p : PlainResolver) : Prop where
  accounted : Accounted (fun _ => True) log p
  afterPress : Along AfterPress log

/-- **Step.** A call of `resolve` that takes no release early before its press keeps what is
    known of releases. -/
theorem plainResolve_delivered (hp : Delivered log p)
    (h : plainResolve earlyRelease now p = .ok (b, p', l)) (htaken : TakenAfterPress p.queue l) :
    Delivered (log ++ l) p' := by
  refine ⟨plainResolve_accounted hp.accounted h htaken, ?_⟩
  have halt := hp.accounted.alternating
  rcases plainResolve_cases h with ⟨_, _, _, rfl⟩ | ⟨ev, rest, s', hqueue, _, _, hh⟩ |
    ⟨ev, rest, newest, s₁, l₁, hqueue, _, hnewest, hh, ⟨_, _, rfl⟩ | ⟨s₂, l₂, hearly, _, rfl⟩⟩
  · rw [List.append_nil]
    exact hp.afterPress
  · exact hp.afterPress.append afterPress_mono (hh.afterPress (halt.moves hqueue))
  · exact hp.afterPress.append afterPress_mono (hh.afterPress (halt.moves hqueue))
  · have hwait := hp.afterPress.append afterPress_mono (hh.afterPress (halt.moves hqueue))
    obtain ⟨c, evs, rfl⟩ := earlyRelease_log hearly
    rw [← List.append_assoc]
    refine hwait.append afterPress_mono (along_afterPress_taken evs fun k hedge => ?_)
    have hno := htaken newest c k (List.mem_append_right _ List.mem_cons_self) hedge
    obtain ⟨_, hdown, _⟩ := newest_release halt (queue_newest hqueue hnewest) hedge hno
    rw [keyDown_append, hh.foldl_downStep_waiting k]
    exact hdown

end Releases

/-! ### Runs -/

/-- What is known of one grab with keys of any mode. -/
structure Timed (root : KeyAction) (log : List Effect) (p : PlainResolver) : Prop where
  inOrder : InOrder log p
  inRange : ∀ ev ∈ p.queue, CodeInRange ev
  inKeymap : InKeymap root log p.toKeyState
  decides : Along (Decides root) log
  delivered : Along PressNotQueued log → Delivered log p

section Runs

variable {root : KeyAction} {log : List Effect} {p : PlainResolver}

theorem Timed.drop {ev : InputEvent} {s : KeyState} (hp : Timed root log p)
    (h : resolveDedupInput p.toKeyState ev = .ok (false, s)) : Timed root log ⟨s, p.queue⟩ := by
  refine ⟨hp.inOrder, hp.inRange, ?_, hp.decides, fun hnot => ?_⟩
  · obtain ⟨counts, rfl⟩ := resolveDedupInput_eq h
    exact ⟨hp.inKeymap.rootKeymap, hp.inKeymap.currentKeymap⟩
  · have hd := hp.delivered hnot
    exact ⟨accounted_drop hd.accounted h, hd.afterPress⟩

theorem Timed.arrive {ev : InputEvent} {s : KeyState} (hp : Timed root log p)
    (hev : CodeInRange ev) (h : resolveDedupInput p.toKeyState ev = .ok (true, s)) :
    Timed root (log ++ [.arrive ev]) ⟨s, p.queue ++ [ev]⟩ := by
  refine ⟨inOrder_arrive hp.inOrder, ?_, ?_,
    hp.decides.append decides_mono (along_decides_of_ne _ (by simp)), fun hnot => ?_⟩
  · intro e he
    rcases List.mem_append.mp he with he | he
    · exact hp.inRange e he
    · rw [List.mem_singleton.mp he]
      exact hev
  · obtain ⟨counts, rfl⟩ := resolveDedupInput_eq h
    exact hp.inKeymap.step rfl rfl
  · have hd := hp.delivered (pressNotQueued_left hnot)
    exact ⟨accounted_arrive hd.accounted h,
      hd.afterPress.append afterPress_mono (along_of_released_eq_nil (afterPress_of_ne _) rfl)⟩

theorem Timed.resolve {now : Timeval} {p' : PlainResolver} {b : Bool} {l : List Effect}
    (hp : Timed root log p) (h : plainResolve earlyRelease now p = .ok (b, p', l)) :
    Timed root (log ++ l) p' := by
  refine ⟨plainResolve_inOrder hp.inOrder hp.inRange h, fun e he => ?_,
    plainResolve_inKeymap hp.inKeymap h,
    plainResolve_decides hp.decides hp.inKeymap hp.inOrder h, fun hnot => ?_⟩
  · exact hp.inRange e (mem_of_plainResolve h he)
  · exact plainResolve_delivered (hp.delivered (pressNotQueued_left hnot)) h
      (plainResolve_takenAfterPress_of_along hp.inOrder h hnot)

theorem timed_init (hmap : root.isMap = true) (hroot : root.Usable fun _ => True) :
    Timed root [] ⟨KeyState.init root, []⟩ :=
  ⟨rfl, by simp, ⟨rfl, rfl⟩, along_nil _, fun _ =>
    ⟨⟨alternating_init hmap hroot, recorded_init root, .inl rfl, along_nil _, fun _ => rfl⟩,
      along_nil _⟩⟩

end Runs

/-! ### What the mode promises -/

end Sdiol
