import Sdiol.Plain
import Sdiol.SendDedup

namespace Sdiol

/-!
# What one call of `resolve` can do

Every property of runs rests on a case analysis of `resolve`.  It is made here once:

* `Deduped` lists what the input filter can do with an event;
* `Handled` lists what handling the oldest event can do, `resolveEvent_handled` says that
  nothing else happens;
* `earlyRelease_eq_some` is the same for the newest event;
* `plainResolve_cases` puts the two together for a whole call.

`runPlain_inv` is the induction over runs: an invariant of the effects so far and the state
has to survive an event that the input filter drops, an event that is queued (of which `Good`
may be assumed, if all inputs satisfy it), and a call of `resolve`.  `runPlain_settled` adds
what is known because the last call of `resolve` for each event answered `false`.
-/

/-! ### The input filter -/

/-- What `resolve_dedup_input` does, in cases: whether the event passes, and the counts. -/
inductive Deduped (counts : KeyCode → Int) (ev : InputEvent) :
    Bool → (KeyCode → Int) → Prop
  /-- no press or release of a key -/
  | passed (hedge : ∀ k, keyEdge k ev = none) : Deduped counts ev true counts
  /-- the release of a key that no keyboard holds -/
  | stray (k : KeyCode) (hrel : ev.isRelease = true) (hcode : ev.code = codeOf k)
      (hzero : counts k = 0) : Deduped counts ev false counts
  | released (k : KeyCode) (hrel : ev.isRelease = true) (hcode : ev.code = codeOf k)
      (hheld : counts k ≠ 0) :
      Deduped counts ev (decide (counts k - 1 = 0)) (Function.update counts k (counts k - 1))
  | pressed (k : KeyCode) (hpress : ev.isPress = true) (hcode : ev.code = codeOf k) :
      Deduped counts ev (decide (counts k = 0)) (Function.update counts k (counts k + 1))

theorem resolveDedupInput_deduped {s s' : KeyState} {ev : InputEvent} {pass : Bool}
    (h : resolveDedupInput s ev = .ok (pass, s')) :
    ∃ counts, Deduped s.inputCounts ev pass counts ∧ s' = { s with inputCounts := counts } := by
  unfold resolveDedupInput at h
  by_cases hkey : ev.type = evKey
  swap
  · rw [if_pos hkey] at h
    cases h
    exact ⟨_, .passed fun k => keyEdge_of_not_key hkey, rfl⟩
  rw [if_neg (not_not.mpr hkey)] at h
  by_cases hhigh : ev.code.toNat > keyMax
  · rw [if_pos hhigh] at h
    cases h
    -- no `KeyCode` is that high
    refine ⟨_, .passed fun k => keyEdge_of_code_ne fun hcode => ?_, rfl⟩
    have hlt : k.val < keyMax := k.isLt
    rw [hcode, codeOf_toNat] at hhigh
    omega
  rw [if_neg hhigh] at h
  by_cases h0 : ev.value = 0
  · have hrel : ev.isRelease = true := InputEvent.isRelease_iff.mpr ⟨hkey, h0⟩
    rw [if_pos h0] at h
    obtain ⟨k, hk, h⟩ := Steps.bind_eq_ok.mp h
    have hcode := keyIndex_ok.mp hk
    split at h
    · rename_i hzero
      cases h
      exact ⟨_, .stray k hrel hcode hzero, rfl⟩
    · rename_i hheld
      cases h
      exact ⟨_, .released k hrel hcode hheld, rfl⟩
  rw [if_neg h0] at h
  by_cases h1 : ev.value = 1
  · have hpress : ev.isPress = true := InputEvent.isPress_iff.mpr ⟨hkey, h1⟩
    rw [if_pos h1] at h
    obtain ⟨k, hk, h⟩ := Steps.bind_eq_ok.mp h
    cases h
    exact ⟨_, .pressed k hpress (keyIndex_ok.mp hk), rfl⟩
  · rw [if_neg h1] at h
    cases h
    -- neither a press nor a release
    refine ⟨_, .passed fun k => ?_, rfl⟩
    simp [keyEdge, InputEvent.isPress, InputEvent.isRelease, h0, h1]

/-- The filter changes the counts only. -/
theorem resolveDedupInput_eq {s s' : KeyState} {ev : InputEvent} {pass : Bool}
    (h : resolveDedupInput s ev = .ok (pass, s')) :
    ∃ counts, s' = { s with inputCounts := counts } := by
  obtain ⟨counts, _, heq⟩ := resolveDedupInput_deduped h
  exact ⟨counts, heq⟩

/-! ### Presses -/

/-- What `do_keypress` does for a press of `k` with an action it accepts. -/
inductive Acted (s : KeyState) (ev : InputEvent) (k : KeyCode) :
    KeyAction → KeyState → List Effect → Prop
  | simple (c : KeyCode) : Acted s ev k (.ktSimple c)
      { s with releaseMap := Function.update s.releaseMap k (codeOf c) }
      [.keypress ev (.ktSimple c), .send { ev with code := codeOf c }]
  | chain (ch : List MacroEvent) : Acted s ev k (.ktMacro ch) s
      (.keypress ev (.ktMacro ch) :: (ch.flatMap macroSends).map .send)
  | layer (map : KeyCode → KeyAction) : Acted s ev k (.ktMap map)
      { s with currentKeymap := .ktMap map
               releaseMap := Function.update s.releaseMap k resetKeymap }
      [.keypress ev (.ktMap map)]

/-- The action `resolve_press` settles on for a press of `k`, what it logs before performing
    it, and what becomes of the last tap. -/
inductive Chosen (s : KeyState) (now : Timeval) (ev : InputEvent) (queued : List InputEvent)
    (k : KeyCode) : KeyAction → List Effect → LastTap → Prop
  | plain {ka : KeyAction} (hget : keyActionGet s.currentKeymap k = .ok ka)
      (hdual : ka.isDual = false) :
      Chosen s now ev queued k ka [] (maybeInvalidateLastTap s.lastTap ev.code)
  | tap {tap hold : KeyAction} {dual : DualConfig} {t : LastTap}
      (hget : keyActionGet s.currentKeymap k = .ok (.ktDual tap hold dual))
      (hcheck : checkWaveform (maybeInvalidateLastTap s.lastTap ev.code) now ev dual queued
        = (.tap, t)) :
      Chosen s now ev queued k tap
        [.checked ev dual now (maybeInvalidateLastTap s.lastTap ev.code) .tap] t
  | hold {tap hold : KeyAction} {dual : DualConfig} {t : LastTap}
      (hget : keyActionGet s.currentKeymap k = .ok (.ktDual tap hold dual))
      (hcheck : checkWaveform (maybeInvalidateLastTap s.lastTap ev.code) now ev dual queued
        = (.hold, t)) :
      Chosen s now ev queued k hold
        [.checked ev dual now (maybeInvalidateLastTap s.lastTap ev.code) .hold] t

/-- What handling the oldest event `ev` can do. -/
inductive Handled (s : KeyState) (now : Timeval) (ev : InputEvent) (queued : List InputEvent) :
    Bool → KeyState → List Effect → Prop
  /-- a code too high, an invalid value, or the repeat of a key with nothing to repeat -/
  | ignored (h : ∀ k, ev.code = codeOf k → ev.isPress = false ∧ ev.isRelease = false) :
      Handled s now ev queued true s []
  /-- not a key event -/
  | passed (hkey : ev.type ≠ evKey) : Handled s now ev queued true s [.send ev]
  /-- a repeat, under the code the press was mapped to -/
  | repeated (k : KeyCode) (hvalue : ev.value = 2) (hcode : ev.code = codeOf k)
      (hmap : s.releaseMap k ≠ resetKeymap) (hzero : s.releaseMap k ≠ 0) :
      Handled s now ev queued true s [.send { ev with code := s.releaseMap k }]
  /-- the release of a layer key -/
  | releasedLayer (k : KeyCode) (hrel : ev.isRelease = true) (hcode : ev.code = codeOf k)
      (hmap : s.releaseMap k = resetKeymap) :
      Handled s now ev queued true
        { s with releaseMap := Function.update s.releaseMap k 0
                 currentKeymap := s.rootKeymap }
        [.released ev (s.releaseMap k) false]
  /-- the release of a key with no entry in `release_map` -/
  | releasedNothing (k : KeyCode) (hrel : ev.isRelease = true) (hcode : ev.code = codeOf k)
      (hmap : s.releaseMap k = 0) :
      Handled s now ev queued true { s with releaseMap := Function.update s.releaseMap k 0 }
        [.released ev (s.releaseMap k) false]
  /-- the release of a key that holds an output code -/
  | releasedCode (k : KeyCode) (hrel : ev.isRelease = true) (hcode : ev.code = codeOf k)
      (hmap : s.releaseMap k ≠ resetKeymap) (hzero : s.releaseMap k ≠ 0) :
      Handled s now ev queued true { s with releaseMap := Function.update s.releaseMap k 0 }
        [.released ev (s.releaseMap k) false, .send { ev with code := s.releaseMap k }]
  /-- a press whose action is performed -/
  | pressed {k : KeyCode} {ka : KeyAction} {pre l : List Effect} {t : LastTap} {s' : KeyState}
      (hpress : ev.isPress = true) (hcode : ev.code = codeOf k)
      (hchosen : Chosen s now ev queued k ka pre t)
      (hacted : Acted { s with lastTap := t } ev k ka s' l) :
      Handled s now ev queued true s' (pre ++ l)
  /-- the press of a dual key that cannot be decided yet -/
  | waiting {k : KeyCode} {tap hold : KeyAction} {dual : DualConfig} {t : LastTap}
      (hpress : ev.isPress = true) (hcode : ev.code = codeOf k)
      (hget : keyActionGet s.currentKeymap k = .ok (.ktDual tap hold dual))
      (hcheck : checkWaveform (maybeInvalidateLastTap s.lastTap ev.code) now ev dual queued
        = (.noneYet, t)) :
      Handled s now ev queued false
        { s with lastTap := t, resolvableTime := msecAfter ev.time dual.holdMs,
                 useResolvableTime := true }
        [.checked ev dual now (maybeInvalidateLastTap s.lastTap ev.code) .noneYet]

/-- A press that is acted on was not left open by `check_waveform`. -/
theorem Chosen.decided {s : KeyState} {now : Timeval} {ev : InputEvent} {queued : List InputEvent}
    {k : KeyCode} {ka tap hold : KeyAction} {dual : DualConfig} {pre : List Effect} {t : LastTap}
    (h : Chosen s now ev queued k ka pre t)
    (hget : keyActionGet s.currentKeymap k = .ok (.ktDual tap hold dual)) :
    (checkWaveform (maybeInvalidateLastTap s.lastTap ev.code) now ev dual queued).1 ≠ .noneYet := by
  cases h with
  | plain hget' hdual =>
    cases hget.symm.trans hget'
    exact absurd hdual (by simp [KeyAction.isDual])
  | tap hget' hcheck =>
    cases hget.symm.trans hget'
    rw [hcheck]
    simp
  | hold hget' hcheck =>
    cases hget.symm.trans hget'
    rw [hcheck]
    simp

/-- A press of a key that `resolve` resolves is acted on. -/
theorem Handled.acted {s s' : KeyState} {now : Timeval} {ev : InputEvent}
    {queued : List InputEvent} {l : List Effect} (h : Handled s now ev queued true s' l)
    (hpress : ev.isPress = true) {k : KeyCode} (hcode : ev.code = codeOf k) :
    ∃ ka pre t l', l = pre ++ l' ∧ Chosen s now ev queued k ka pre t ∧
      Acted { s with lastTap := t } ev k ka s' l' := by
  obtain ⟨hkey, hvalue⟩ := InputEvent.isPress_iff.mp hpress
  have hrelease : ev.isRelease ≠ true := by
    simp [InputEvent.isRelease, hvalue]
  cases h with
  | ignored hidle => exact absurd hpress (by simp [(hidle k hcode).1])
  | passed hne => exact absurd hkey hne
  | repeated _ htwo _ _ _ => exact absurd (hvalue.symm.trans htwo) (by decide)
  | releasedLayer _ hrel _ _ => exact absurd hrel hrelease
  | releasedNothing _ hrel _ _ => exact absurd hrel hrelease
  | releasedCode _ hrel _ _ _ => exact absurd hrel hrelease
  | pressed _ hcode' hchosen hacted =>
    obtain rfl := codeOf_injective (hcode'.symm.trans hcode)
    exact ⟨_, _, _, _, rfl, hchosen, hacted⟩

theorem doKeypress_acted {s s' : KeyState} {ev : InputEvent} {k : KeyCode} {ka : KeyAction}
    {l : List Effect} (hcode : ev.code = codeOf k) (h : doKeypress s ev ka = .ok (s', l)) :
    Acted s ev k ka s' l := by
  cases ka with
  | ktNone => exact absurd h (by simp [doKeypress])
  | ktRef ref => exact absurd h (by simp [doKeypress])
  | ktDual tap hold dual => exact absurd h (by simp [doKeypress])
  | ktSimple c =>
    rw [doKeypress, hcode, keyIndex_codeOf] at h
    cases h
    exact .simple c
  | ktMacro ch =>
    rw [doKeypress] at h
    cases h
    exact .chain ch
  | ktMap map =>
    rw [doKeypress, hcode, keyIndex_codeOf] at h
    cases h
    exact .layer map

theorem resolvePress_handled {s s' : KeyState} {now : Timeval} {ev : InputEvent}
    {queued : List InputEvent} {b : Bool} {l : List Effect} (hpress : ev.isPress = true)
    (h : resolvePress s now ev queued = .ok (b, s', l)) : Handled s now ev queued b s' l := by
  unfold resolvePress at h
  obtain ⟨k, hk, h⟩ := Steps.bind_eq_ok.mp h
  obtain ⟨ka, hget, h⟩ := Steps.bind_eq_ok.mp h
  have hcode := keyIndex_ok.mp hk
  -- a press that needs no decision is performed at once
  have hplain : ∀ (hdual : ka.isDual = false) (x : KeyState × List Effect),
      doKeypress { s with lastTap := maybeInvalidateLastTap s.lastTap ev.code } ev ka = .ok x →
      Handled s now ev queued true x.1 x.2 := by
    intro hdual x hx
    exact .pressed (s := s) hpress hcode (.plain hget hdual) (doKeypress_acted hcode hx)
  cases ka with
  | ktNone => exact absurd h (by simp)
  | ktRef ref => exact absurd h (by simp)
  | ktSimple c =>
    obtain ⟨x, hx, h⟩ := Steps.bind_eq_ok.mp h
    cases h
    exact hplain rfl x hx
  | ktMacro ch =>
    obtain ⟨x, hx, h⟩ := Steps.bind_eq_ok.mp h
    cases h
    exact hplain rfl x hx
  | ktMap map =>
    obtain ⟨x, hx, h⟩ := Steps.bind_eq_ok.mp h
    cases h
    exact hplain rfl x hx
  | ktDual tap hold dual =>
    cases hcheck : checkWaveform (maybeInvalidateLastTap s.lastTap ev.code) now ev dual queued with
    | mk w t =>
      simp only [hcheck] at h
      cases w with
      | tap =>
        obtain ⟨x, hx, h⟩ := Steps.bind_eq_ok.mp h
        cases h
        exact .pressed (s := s) hpress hcode (.tap (s := s) hget hcheck) (doKeypress_acted hcode hx)
      | hold =>
        obtain ⟨x, hx, h⟩ := Steps.bind_eq_ok.mp h
        cases h
        exact .pressed (s := s) hpress hcode (.hold (s := s) hget hcheck)
          (doKeypress_acted hcode hx)
      | noneYet =>
        cases h
        exact .waiting hpress hcode hget hcheck

theorem resolveRelease_handled {s s' : KeyState} {now : Timeval} {ev : InputEvent}
    {queued : List InputEvent} {l : List Effect} (hrel : ev.isRelease = true)
    (h : resolveRelease s ev = .ok (s', l)) : Handled s now ev queued true s' l := by
  unfold resolveRelease at h
  obtain ⟨k, hk, h⟩ := Steps.bind_eq_ok.mp h
  have hcode := keyIndex_ok.mp hk
  simp only at h
  split at h
  · rename_i hmap
    cases h
    exact .releasedLayer k hrel hcode hmap
  · rename_i hmap
    split at h
    · rename_i hzero
      cases h
      exact .releasedNothing k hrel hcode hzero
    · rename_i hzero
      cases h
      exact .releasedCode k hrel hcode hmap hzero

/-- **The oldest event.** Handling it does one of the things `Handled` lists. -/
theorem resolveEvent_handled {s s' : KeyState} {now : Timeval} {ev : InputEvent}
    {queued : List InputEvent} {b : Bool} {l : List Effect}
    (h : resolveEvent s now ev queued = .ok (b, s', l)) : Handled s now ev queued b s' l := by
  unfold resolveEvent at h
  by_cases hkey : ev.type = evKey
  · rw [if_pos hkey] at h
    by_cases hhigh : ev.code.toNat > keyMax
    · -- too high to be the code of any key
      rw [if_pos hhigh] at h
      cases h
      refine .ignored fun k hk => ?_
      have hlt : k.val < keyMax := k.isLt
      rw [hk, codeOf_toNat] at hhigh
      omega
    · rw [if_neg hhigh] at h
      by_cases h0 : ev.value = 0
      · -- a release
        rw [if_pos h0] at h
        obtain ⟨x, hx, h⟩ := Steps.bind_eq_ok.mp h
        cases h
        exact resolveRelease_handled (InputEvent.isRelease_iff.mpr ⟨hkey, h0⟩) hx
      · rw [if_neg h0] at h
        by_cases h1 : ev.value = 1
        · -- a press
          rw [if_pos h1] at h
          exact resolvePress_handled (InputEvent.isPress_iff.mpr ⟨hkey, h1⟩) h
        · rw [if_neg h1] at h
          have hidle : ev.isPress = false ∧ ev.isRelease = false := by
            simp [InputEvent.isPress, InputEvent.isRelease, h0, h1]
          by_cases h2 : ev.value = 2
          · -- a repeat, which is sent only if `release_map` has a code for the key
            rw [if_pos h2] at h
            obtain ⟨k, hk, h⟩ := Steps.bind_eq_ok.mp h
            simp only at h
            split at h
            · rename_i hmap
              cases h
              exact .repeated k h2 (keyIndex_ok.mp hk) hmap.2 hmap.1
            · cases h
              exact .ignored fun _ _ => hidle
          · rw [if_neg h2] at h
            cases h
            exact .ignored fun _ _ => hidle
  · have hl : (b, s', l) = (true, s, [Effect.send ev]) := by
      rw [if_neg hkey] at h
      split at h <;> (cases h; rfl)
    cases hl
    exact .passed hkey

/-! ### The newest event -/

/-- **The newest event.** If it is taken from the queue early, it has value 0 and a code
    below `KEY_MAX`, and either it resets the keymap or it is sent under the code
    `release_map` holds, which is not a modifier. -/
theorem earlyRelease_eq_some {s s' : KeyState} {ev : InputEvent} {l : List Effect}
    (h : earlyRelease s ev = some (s', l)) :
    ∃ k, ev.code = codeOf k ∧ ev.value = 0 ∧
      ((s.releaseMap k = resetKeymap ∧ s' = { s with currentKeymap := s.rootKeymap } ∧
          l = [.released ev (s.releaseMap k) true]) ∨
        (s.releaseMap k ≠ resetKeymap ∧ s.releaseMap k ∉ modifierKeys ∧ s' = s ∧
          l = [.released ev (s.releaseMap k) true, .send { ev with code := s.releaseMap k },
            .send synEvent])) := by
  unfold earlyRelease at h
  split at h
  · exact absurd h (by simp)
  · rename_i k hk
    split at h
    · rename_i hvalue
      refine ⟨k, asKey_eq_some.mp hk, hvalue, ?_⟩
      simp only at h
      split at h
      · -- the release of a layer key, of which nothing is sent
        rename_i hmap
        cases h
        exact .inl ⟨hmap, rfl, rfl⟩
      · rename_i hmap
        split at h
        · exact absurd h (by simp)
        · rename_i hmod
          cases h
          exact .inr ⟨hmap, hmod, rfl, rfl⟩
    · exact absurd h (by simp)

/-! ### A whole call -/

/-- **One call of `resolve`.** It finds an empty queue; or handles the oldest event and pops
    it; or leaves the oldest event waiting and then either leaves the newest one alone or
    removes it. -/
theorem plainResolve_cases {early : EarlyBranch} {now : Timeval} {p p' : PlainResolver} {b : Bool}
    {l : List Effect} (h : plainResolve early now p = .ok (b, p', l)) :
    (p.queue = [] ∧ b = false ∧ p' = p ∧ l = []) ∨
    (∃ ev rest s', p.queue = ev :: rest ∧ b = true ∧ p' = ⟨s', rest⟩ ∧
      Handled { p.toKeyState with useResolvableTime := false } now ev rest true s' l) ∨
    (∃ ev rest newest s₁ l₁, p.queue = ev :: rest ∧ b = false ∧
      newest = (ev :: rest).getLast (List.cons_ne_nil _ _) ∧
      Handled { p.toKeyState with useResolvableTime := false } now ev rest false s₁ l₁ ∧
      ((early s₁ newest = none ∧ p' = ⟨s₁, p.queue⟩ ∧ l = l₁) ∨
        ∃ s₂ l₂, early s₁ newest = some (s₂, l₂) ∧ p' = ⟨s₂, p.queue.dropLast⟩ ∧
          l = l₁ ++ l₂)) := by
  unfold plainResolve at h
  split at h
  · rename_i hq
    cases h
    exact .inl ⟨hq, rfl, rfl, rfl⟩
  · -- the call that handles the oldest event answers whether it is resolved
    rename_i ev rest hq
    obtain ⟨⟨resolved, s₁, l₁⟩, hres, h⟩ := Steps.bind_eq_ok.mp h
    have hhandled := resolveEvent_handled hres
    simp only at h
    cases resolved with
    | true =>
      cases h
      exact .inr (.inl ⟨ev, rest, s₁, hq, rfl, rfl, hhandled⟩)
    | false =>
      refine .inr (.inr ⟨ev, rest, _, s₁, l₁, hq, ?_, rfl, hhandled, ?_⟩)
      · simp only [Bool.false_eq_true, if_false] at h
        split at h <;> (cases h; rfl)
      · simp only [Bool.false_eq_true, if_false] at h
        rw [hq]
        split at h
        · rename_i s₂ l₂ hearly
          cases h
          exact .inr ⟨s₂, l₂, hearly, rfl, rfl⟩
        · rename_i hearly
          cases h
          exact .inl ⟨hearly, rfl, rfl⟩

/-- A call that resolves the oldest event shortens the queue. -/
theorem plainResolve_length {early : EarlyBranch} {now : Timeval} {p p' : PlainResolver}
    {l : List Effect} (h : plainResolve early now p = .ok (true, p', l)) :
    p'.queue.length < p.queue.length := by
  rcases plainResolve_cases h with ⟨_, hb, _⟩ | ⟨ev, rest, s', hq, _, rfl, _⟩ |
    ⟨_, _, _, _, _, _, hb, _⟩
  · exact absurd hb (by simp)
  · rw [hq]
    exact Nat.lt_succ_self _
  · exact absurd hb (by simp)

/-! ### Events and runs -/

/-- What an event does before `resolve` is called: the input filter drops it, or it is
    appended to the queue. -/
theorem plainEvent_cases {early : EarlyBranch} {capacity : Option Nat} {clk : Nat → Timeval}
    {ev : InputEvent} {p p' : PlainResolver} {l : List Effect}
    (h : plainEvent early capacity clk ev p = .ok (p', l)) :
    ∃ pass s, resolveDedupInput p.toKeyState ev = .ok (pass, s) ∧
      ((pass = false ∧ p' = ⟨s, p.queue⟩ ∧ l = []) ∨
        ∃ l', pass = true ∧ l = .arrive ev :: l' ∧
          Steps.loop (plainResolve early) ((p.queue ++ [ev]).length + 1) clk
            ⟨s, p.queue ++ [ev]⟩ = .ok (p', l')) := by
  unfold plainEvent at h
  obtain ⟨⟨pass, s⟩, hdedup, h⟩ := Steps.bind_eq_ok.mp h
  refine ⟨pass, s, hdedup, ?_⟩
  simp only at h
  cases pass with
  | false =>
    cases h
    exact .inl ⟨rfl, rfl, rfl⟩
  | true =>
    simp only [if_true] at h
    split at h
    · exact absurd h (by simp)
    · obtain ⟨⟨p₁, l₁⟩, hloop, h⟩ := Steps.bind_eq_ok.mp h
      cases h
      exact .inr ⟨l₁, rfl, rfl, hloop⟩

section Invariants

variable {early : EarlyBranch} (Inv : List Effect → PlainResolver → Prop)
  (Good : InputEvent → Prop)
  (hdrop : ∀ log p ev s, Inv log p → resolveDedupInput p.toKeyState ev = .ok (false, s) →
    Inv log ⟨s, p.queue⟩)
  (harrive : ∀ log p ev s, Inv log p → Good ev →
    resolveDedupInput p.toKeyState ev = .ok (true, s) →
    Inv (log ++ [.arrive ev]) ⟨s, p.queue ++ [ev]⟩)
  (hresolve : ∀ now log p b p' l, Inv log p → plainResolve early now p = .ok (b, p', l) →
    Inv (log ++ l) p')

include hdrop harrive hresolve

theorem plainEvent_inv (log : List Effect) {capacity : Option Nat} {clk : Nat → Timeval}
    {ev : InputEvent} {p p' : PlainResolver} {l : List Effect} (hp : Inv log p)
    (hev : Good ev) (h : plainEvent early capacity clk ev p = .ok (p', l)) : Inv (log ++ l) p' := by
  obtain ⟨pass, s, hdedup, hcase⟩ := plainEvent_cases h
  rcases hcase with ⟨rfl, rfl, rfl⟩ | ⟨l', rfl, rfl, hloop⟩
  · rw [List.append_nil]
    exact hdrop log p ev s hp hdedup
  · have hstart := harrive log p ev s hp hev hdedup
    have hend := Steps.loop_inv Inv
      (fun now b log p p' l hinv hstep => hresolve now log p b p' l hinv hstep) _ hstart hloop
    rwa [List.append_assoc] at hend

/-- **Run invariants.** An invariant of the effects so far and the state that survives each
    of the three kinds of step holds after a run. -/
theorem runPlain_inv {capacity : Option Nat} {root : KeyAction} {inputs : List Reading}
    {p : PlainResolver} {log : List Effect} (hgood : ∀ i ∈ inputs, Good i.ev)
    (hinit : Inv [] ⟨KeyState.init root, []⟩)
    (h : runPlain early capacity root inputs = .ok (p, log)) : Inv log p :=
  Steps.run_inv Inv
    (fun i hi _ _ _ _ hp hstep =>
      plainEvent_inv Inv Good hdrop harrive hresolve _ hp (hgood i hi) hstep) hinit h

/-- **Settled.** What a call of `resolve` that answers `false` leaves behind, given the
    invariant, is there after every event, if an event that the filter drops does not spoil
    it. -/
theorem runPlain_settled (Settled : List Effect → PlainResolver → Prop)
    (hkeep : ∀ log p ev s, Settled log p → resolveDedupInput p.toKeyState ev = .ok (false, s) →
      Settled log ⟨s, p.queue⟩)
    (hsettle : ∀ now log p p' l, Inv log p → plainResolve early now p = .ok (false, p', l) →
      Settled (log ++ l) p')
    {capacity : Option Nat} {root : KeyAction} {inputs : List Reading}
    {p : PlainResolver} {log : List Effect} (hgood : ∀ i ∈ inputs, Good i.ev)
    (hinit : Inv [] ⟨KeyState.init root, []⟩) (hempty : Settled [] ⟨KeyState.init root, []⟩)
    (h : runPlain early capacity root inputs = .ok (p, log)) : Settled log p := by
  have hboth : Inv log p ∧ Settled log p := by
    refine Steps.run_inv (fun log p => Inv log p ∧ Settled log p) ?_ ⟨hinit, hempty⟩ h
    rintro i hi log p p' l ⟨hp, hq⟩ hstep
    refine ⟨plainEvent_inv Inv Good hdrop harrive hresolve _ hp (hgood i hi) hstep, ?_⟩
    obtain ⟨pass, s, hdedup, hcase⟩ := plainEvent_cases hstep
    rcases hcase with ⟨rfl, rfl, rfl⟩ | ⟨l', rfl, rfl, hloop⟩
    · -- the event is dropped
      rw [List.append_nil]
      exact hkeep log p i.ev s hq hdedup
    · -- the last call of the loop is the one that answers `false`
      obtain ⟨now, p₀, l₀, l₁, rfl, hinv, hlast⟩ := Steps.loop_exit Inv
        (fun p : PlainResolver => p.queue.length)
        (fun now b log p p' l hinv hstep => hresolve now log p b p' l hinv hstep)
        (fun _ _ _ _ hstep => plainResolve_length hstep) _
        (harrive log p i.ev s hp (hgood i hi) hdedup) (Nat.lt_succ_self _) hloop
      have hdone := hsettle now _ p₀ p' l₁ hinv hlast
      rwa [List.append_assoc, List.append_assoc] at hdone
  exact hboth.2

end Invariants

end Sdiol
