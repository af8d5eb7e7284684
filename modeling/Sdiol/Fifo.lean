import Sdiol.Ledger
import Sdiol.Lib.Thinning

namespace Sdiol

/-!
# Early releases and the order of events

The resolver is compared with one that leaves releases in the queue until they reach its head.
The comparison has two halves:

* taking the release of a key that holds an output code early changes nothing: the resolver
  performs the same actions as `layerOnly`, which only takes the releases of layer keys early
  (`runPlain_layerOnly`);
* if no release of a layer key is taken early, `layerOnly` is the plain first-in-first-out
  resolver (`runPlain_fifo`).

The first half is a simulation.  The queue of the resolver is that of `layerOnly` without some
releases (`Thinned`), each of which stands before every press of its key that is still queued
and belongs to a key whose entry in `release_map` is not `RESET_KEYMAP` (`Droppable`), so that
`check_waveform` does not see the difference and `resolve_release` leaves the keymap alone.
-/

open Steps (Along)
open Thinning (Thinned)

/-! ### The resolvers compared -/

/-- Take only the releases of layer keys early. -/
def layerOnly : EarlyBranch := fun s ev =>
  match asKey ev.code with
  | none => none
  | some k =>
    if ev.value = 0 ∧ s.releaseMap k = resetKeymap then
      some ({ s with currentKeymap := s.rootKeymap }, [.released ev (s.releaseMap k) true])
    else none

/-- Leave every event in the queue until it is the oldest. -/
def fifo : EarlyBranch := fun _ _ => none

/-- No release of a layer key was taken early. -/
def NoEarlyLayer (log : List Effect) : Prop := ∀ ev, .released ev resetKeymap true ∉ log

/-- The two resolvers did the same with the presses, and if the first took no layer release
    early, the second took nothing early. -/
def SameActions (l l' : List Effect) : Prop :=
  performed l' = performed l ∧ (NoEarlyLayer l → NoEarly l')

theorem SameActions.append {l₁ l₂ l₁' l₂' : List Effect} (h₁ : SameActions l₁ l₁')
    (h₂ : SameActions l₂ l₂') : SameActions (l₁ ++ l₂) (l₁' ++ l₂') := by
  refine ⟨?_, fun hno ev code hmem => ?_⟩
  · rw [performed_append, performed_append, h₁.1, h₂.1]
  · have hno₁ : NoEarlyLayer l₁ := fun e he => hno e (List.mem_append_left _ he)
    have hno₂ : NoEarlyLayer l₂ := fun e he => hno e (List.mem_append_right _ he)
    rcases List.mem_append.mp hmem with hmem | hmem
    · exact h₁.2 hno₁ ev code hmem
    · exact h₂.2 hno₂ ev code hmem

/-! ### Queues that differ by releases -/

/-- An event that may be missing from the queue of the resolver: it has value 0 and, if it is
    the release of a key, then the entry of that key is not `RESET_KEYMAP` and no press of the
    key stands before it. -/
structure Droppable (map : KeyCode → UInt16) (before : List InputEvent) (ev : InputEvent) :
    Prop where
  value : ev.value = 0
  key : ∃ k, ev.code = codeOf k
  mapped : ∀ k, keyEdge k ev = some false → map k ≠ resetKeymap
  unpressed : ∀ k, keyEdge k ev = some false → ∀ e ∈ before, keyEdge k e ≠ some true

/-- What resolving `ev` does to the entries, as far as other events depend on it. -/
structure Follows (ev : InputEvent) (map map' : KeyCode → UInt16) : Prop where
  other : ∀ k, keyEdge k ev = none → map' k = map k
  released : ∀ k, keyEdge k ev = some false → map' k ≠ resetKeymap

/-- What may be missing behind `ev` may still be missing when `ev` has been resolved. -/
theorem Droppable.pop {ev x : InputEvent} {map map' : KeyCode → UInt16} {l : List InputEvent}
    (h : Droppable map (ev :: l) x) (hev : Follows ev map map') : Droppable map' l x := by
  refine ⟨h.value, h.key, fun k hk => ?_, fun k hk e he => ?_⟩
  · cases hedge : keyEdge k ev with
    | none =>
      rw [hev.other k hedge]
      exact h.mapped k hk
    | some e =>
      cases e with
      | true => exact absurd hedge (h.unpressed k hk ev List.mem_cons_self)
      | false => exact hev.released k hedge
  · exact h.unpressed k hk e (List.mem_cons_of_mem ev he)

theorem pop_thinned {ev : InputEvent} {map map' : KeyCode → UInt16} {full thin : List InputEvent}
    (h : Thinned (Droppable map) [ev] full thin) (hev : Follows ev map map') :
    Thinned (Droppable map') [] full thin :=
  h.mono fun _ _ hx => hx.pop hev

/-- The loop of `check_waveform` passes over a release of a key that was not pressed behind the
    event it is asked about. -/
theorem scanWaveform_cons_droppable {map : KeyCode → UInt16} {mode : DualMode} {ev x : InputEvent}
    {k₀ : KeyCode} (hev : keyEdge k₀ ev = some true) {seen : List InputEvent}
    (hx : Droppable map seen x) (hseen : ev ∈ seen) {K : KeyCode → Bool}
    (hK : ∀ k, K k = true → ∃ e ∈ seen, keyEdge k e = some true) (t : LastTap)
    (rest : List InputEvent) :
    scanWaveform mode ev K t (x :: rest) = scanWaveform mode ev K t rest := by
  -- it is of neither the key that is asked about nor one that was pressed behind it
  have hunpressed : ∀ k, x.isRelease = true → x.code = codeOf k →
      ∀ e ∈ seen, keyEdge k e ≠ some true := by
    intro k hrel hk
    refine hx.unpressed k ?_
    rw [keyEdge_release hrel, if_pos hk]
  have hpress := isPress_of_value_zero hx.value
  obtain ⟨f, hstep, hf⟩ := scanWaveform_step mode ev K x
  rw [hf]
  cases hstep with
  | skip _ _ _ => rfl
  | main hrel hcode =>
    have hmain := hcode.trans (keyEdge_eq_some_true hev).1
    exact absurd hev (hunpressed k₀ hrel hmain ev hseen)
  | rollover _ hp => exact absurd (hp.symm.trans hpress) (by simp)
  | collect _ _ hp _ => exact absurd (hp.symm.trans hpress) (by simp)
  | released k hrel _ hk hdown =>
    obtain ⟨e, he, hedge⟩ := hK k hdown
    exact absurd hedge (hunpressed k hrel hk e he)

/-- The loop of `check_waveform` does not notice what is missing: a key that `keys_pressed`
    has collected was pressed among the events seen so far. -/
theorem scanWaveform_thinned {map : KeyCode → UInt16} (mode : DualMode) {ev : InputEvent}
    {k₀ : KeyCode} (hev : keyEdge k₀ ev = some true) {seen full thin : List InputEvent}
    (h : Thinned (Droppable map) seen full thin) (hseen : ev ∈ seen) {K : KeyCode → Bool}
    (hK : ∀ k, K k = true → ∃ e ∈ seen, keyEdge k e = some true) (t : LastTap) :
    scanWaveform mode ev K t full = scanWaveform mode ev K t thin := by
  induction h generalizing K t with
  | nil seen => rfl
  | @keep seen full thin x _ ih =>
    have hseen' : ev ∈ seen ++ [x] := List.mem_append_left _ hseen
    have hK' : ∀ k, K k = true → ∃ e ∈ seen ++ [x], keyEdge k e = some true := by
      intro k hk
      obtain ⟨e, he, hedge⟩ := hK k hk
      exact ⟨e, List.mem_append_left _ he, hedge⟩
    obtain ⟨f, hstep, hf⟩ := scanWaveform_step mode ev K x
    rw [hf, hf]
    cases hstep with
    | skip _ _ _ => exact ih hseen' hK' t
    -- `x` itself is the press that `keys_pressed` now has
    | collect k _ hpress hk =>
      refine ih hseen' (fun j hj => ?_) _
      by_cases hjk : j = k
      · subst hjk
        refine ⟨x, List.mem_append_right _ (List.mem_singleton_self x), ?_⟩
        rw [keyEdge_press hpress, if_pos hk]
      · rw [Function.update_of_ne hjk] at hj
        exact hK' j hj
    | main _ _ => rfl
    | rollover _ _ => rfl
    | released _ _ _ _ _ => rfl
  -- the release that is missing changes nothing in the loop
  | @skip seen full thin x hx _ ih =>
    rw [scanWaveform_cons_droppable hev hx hseen hK]
    refine ih (List.mem_append_left _ hseen) (fun k hk => ?_) t
    obtain ⟨e, he, hedge⟩ := hK k hk
    exact ⟨e, List.mem_append_left _ he, hedge⟩

theorem checkWaveform_thinned {map : KeyCode → UInt16} (t : LastTap) (now : Timeval)
    {ev : InputEvent} (dual : DualConfig) {k₀ : KeyCode} (hev : keyEdge k₀ ev = some true)
    {full thin : List InputEvent} (h : Thinned (Droppable map) [ev] full thin) :
    checkWaveform t now ev dual full = checkWaveform t now ev dual thin := by
  have hscan := scanWaveform_thinned dual.mode hev h (List.mem_singleton_self ev)
    (K := fun _ => false) (fun k hk => absurd hk Bool.false_ne_true) t
  unfold checkWaveform
  rw [hscan]

/-! ### States that differ by entries of keys that are up -/

/-- The states agree up to the entries of `release_map`, and in these on `RESET_KEYMAP`. -/
structure Alike (s s' : KeyState) : Prop where
  current : s'.currentKeymap = s.currentKeymap
  root : s'.rootKeymap = s.rootKeymap
  lastTap : s'.lastTap = s.lastTap
  counts : s'.inputCounts = s.inputCounts
  layers : ∀ k, s'.releaseMap k = resetKeymap ↔ s.releaseMap k = resetKeymap

/-- `resolve` begins by clearing `use_resolvable_time`. -/
theorem Alike.clear {s s' : KeyState} (h : Alike s s') :
    Alike { s with useResolvableTime := false } { s' with useResolvableTime := false } :=
  ⟨h.current, h.root, h.lastTap, h.counts, h.layers⟩

/-- The same entry for the same key. -/
theorem layers_update {map map' : KeyCode → UInt16}
    (h : ∀ k, map' k = resetKeymap ↔ map k = resetKeymap) (j : KeyCode) (code : UInt16)
    (k : KeyCode) : Function.update map' j code k = resetKeymap ↔
      Function.update map j code k = resetKeymap := by
  by_cases hk : k = j
  · subst hk
    rw [Function.update_self, Function.update_self]
  · rw [Function.update_of_ne hk, Function.update_of_ne hk]
    exact h k

theorem zero_ne_resetKeymap : (0 : UInt16) ≠ resetKeymap := by decide

/-- A release sets the entry of its key to 0. -/
theorem follows_release {ev : InputEvent} {map : KeyCode → UInt16} {k : KeyCode}
    (hk : ev.code = codeOf k) (hrel : ev.isRelease = true) :
    Follows ev map (Function.update map k 0) := by
  refine ⟨fun j hj => Function.update_of_ne ?_ _ _, fun j hj => ?_⟩
  · rintro rfl
    rw [keyEdge_release hrel, if_pos hk] at hj
    exact absurd hj (by simp)
  · obtain rfl := codeOf_injective (hk.symm.trans (keyEdge_eq_some_false hj).1)
    rw [Function.update_self]
    exact zero_ne_resetKeymap

/-- An event that moves no key and writes no entry. -/
theorem follows_of_edge {ev : InputEvent} {map : KeyCode → UInt16}
    (h : ∀ k, keyEdge k ev ≠ some false) : Follows ev map map :=
  ⟨fun _ _ => rfl, fun k hk => absurd hk (h k)⟩

/-- A press writes the entry of its key only. -/
theorem follows_press {ev : InputEvent} {map : KeyCode → UInt16} {k : KeyCode} (code : UInt16)
    (hk : ev.code = codeOf k) (hpress : ev.isPress = true) :
    Follows ev map (Function.update map k code) := by
  refine ⟨fun j hj => Function.update_of_ne ?_ _ _, fun j hj => ?_⟩
  · rintro rfl
    rw [keyEdge_press hpress, if_pos hk] at hj
    exact absurd hj (by simp)
  · rw [keyEdge_press hpress] at hj
    split at hj <;> exact absurd hj (by simp)

section Alike

variable {s s' s₁ : KeyState} {now : Timeval} {ev : InputEvent} {l : List Effect} {k : KeyCode}

/-- What `resolve_release` does, apart from what it sends. -/
theorem resolveRelease_eq (s : KeyState) (hk : ev.code = codeOf k) :
    ∃ l, resolveRelease s ev = .ok
        ({ s with releaseMap := Function.update s.releaseMap k 0
                  currentKeymap := if s.releaseMap k = resetKeymap then s.rootKeymap
                    else s.currentKeymap }, l) ∧ performed l = [] := by
  unfold resolveRelease
  rw [hk, keyIndex_codeOf]
  by_cases hreset : s.releaseMap k = resetKeymap
  · refine ⟨[.released ev (s.releaseMap k) false], ?_, rfl⟩
    simp only [bind, Except.bind, if_pos hreset]
  · by_cases hzero : s.releaseMap k = 0
    · refine ⟨[.released ev (s.releaseMap k) false], ?_, rfl⟩
      simp only [bind, Except.bind, if_neg hreset, if_pos hzero]
    · refine ⟨[.released ev (s.releaseMap k) false, .send { ev with code := s.releaseMap k }],
        ?_, rfl⟩
      simp only [bind, Except.bind, if_neg hreset, if_neg hzero]

theorem resolveRelease_alike (h : Alike s s') (hk : ev.code = codeOf k)
    (hrel : ev.isRelease = true) (hok : resolveRelease s ev = .ok (s₁, l)) :
    ∃ s₁' l', resolveRelease s' ev = .ok (s₁', l') ∧ Alike s₁ s₁' ∧
      Follows ev s'.releaseMap s₁'.releaseMap ∧ performed l' = performed l := by
  obtain ⟨l₀, hs, hl₀⟩ := resolveRelease_eq s hk
  obtain ⟨l', hs', hl'⟩ := resolveRelease_eq s' hk
  cases hok.symm.trans hs
  refine ⟨_, l', hs', ⟨?_, h.root, h.lastTap, h.counts, layers_update h.layers k 0⟩,
    follows_release hk hrel, by rw [hl', hl₀]⟩
  simp only [h.layers k, h.root, h.current]

theorem doKeypress_alike {ka : KeyAction} (h : Alike s s') (hk : ev.code = codeOf k)
    (hpress : ev.isPress = true) (hok : doKeypress s ev ka = .ok (s₁, l)) :
    ∃ s₁', doKeypress s' ev ka = .ok (s₁', l) ∧ Alike s₁ s₁' ∧
      Follows ev s'.releaseMap s₁'.releaseMap := by
  -- a press is no release, so that it never drops an event of the other queue
  have hno : ∀ j, keyEdge j ev ≠ some false := by
    intro j hj
    rw [keyEdge_press hpress] at hj
    split at hj <;> exact absurd hj (by simp)
  cases ka with
  | ktNone => exact absurd hok (by simp [doKeypress])
  | ktRef ref => exact absurd hok (by simp [doKeypress])
  | ktDual tap hold dual => exact absurd hok (by simp [doKeypress])
  | ktSimple c =>
    rw [doKeypress, hk, keyIndex_codeOf] at hok ⊢
    cases hok
    exact ⟨_, rfl, ⟨h.current, h.root, h.lastTap, h.counts, layers_update h.layers k _⟩,
      follows_press _ hk hpress⟩
  | ktMacro ch =>
    rw [doKeypress] at hok ⊢
    cases hok
    exact ⟨s', rfl, h, follows_of_edge hno⟩
  | ktMap map =>
    rw [doKeypress, hk, keyIndex_codeOf] at hok ⊢
    cases hok
    exact ⟨_, rfl, ⟨rfl, h.root, h.lastTap, h.counts, layers_update h.layers k _⟩,
      follows_press _ hk hpress⟩

/-- `resolve_press` with the same queue up to releases that may be missing. -/
theorem resolvePress_alike (h : Alike s s') {queued queued' : List InputEvent} {b : Bool}
    (hpress : ev.isPress = true)
    (hthin : Thinned (Droppable s'.releaseMap) [ev] queued' queued)
    (hok : resolvePress s now ev queued = .ok (b, s₁, l)) :
    ∃ s₁', resolvePress s' now ev queued' = .ok (b, s₁', l) ∧ Alike s₁ s₁' ∧
      Follows ev s'.releaseMap s₁'.releaseMap := by
  unfold resolvePress at hok ⊢
  obtain ⟨k, hk, hok⟩ := Steps.bind_eq_ok.mp hok
  obtain ⟨ka, hget, hok⟩ := Steps.bind_eq_ok.mp hok
  rw [keyIndex_ok] at hk
  have hedge : keyEdge k ev = some true := by rw [keyEdge_press hpress, if_pos hk]
  have htap : ∀ t, Alike { s with lastTap := t } { s' with lastTap := t } := fun t =>
    ⟨h.current, h.root, rfl, h.counts, h.layers⟩
  -- whatever is decided is performed by both alike
  have hact : ∀ t ka x, doKeypress { s with lastTap := t } ev ka = .ok x →
      ∃ s₂', doKeypress { s' with lastTap := t } ev ka = .ok (s₂', x.2) ∧ Alike x.1 s₂' ∧
        Follows ev s'.releaseMap s₂'.releaseMap := fun t ka x hx =>
    doKeypress_alike (htap t) hk hpress hx
  have hget' : keyActionGet s'.currentKeymap k = .ok ka := by
    rw [h.current]
    exact hget
  rw [hk, keyIndex_codeOf, h.lastTap]
  simp only [hk] at hok
  simp only [bind, Except.bind, hget']
  cases ka with
  | ktNone => exact absurd hok (by simp)
  | ktRef ref => exact absurd hok (by simp)
  | ktDual tap hold dual =>
    have hcheck := checkWaveform_thinned (maybeInvalidateLastTap s.lastTap (codeOf k)) now dual
      hedge hthin
    simp only [hcheck] at hok ⊢
    generalize checkWaveform (maybeInvalidateLastTap s.lastTap (codeOf k)) now ev dual queued = w
      at hok ⊢
    obtain ⟨w, t⟩ := w
    cases w with
    | tap =>
      obtain ⟨x, hx, hok⟩ := Steps.bind_eq_ok.mp hok
      obtain ⟨s₂', hx', halike, hfollows⟩ := hact t tap x hx
      cases hok
      exact ⟨s₂', by simp only [hx'], halike, hfollows⟩
    | hold =>
      obtain ⟨x, hx, hok⟩ := Steps.bind_eq_ok.mp hok
      obtain ⟨s₂', hx', halike, hfollows⟩ := hact t hold x hx
      cases hok
      exact ⟨s₂', by simp only [hx'], halike, hfollows⟩
    | noneYet =>
      cases hok
      refine ⟨_, rfl, ⟨h.current, h.root, rfl, h.counts, h.layers⟩,
        follows_of_edge fun j hj => ?_⟩
      rw [keyEdge_press hpress] at hj
      split at hj <;> exact absurd hj (by simp)
  | _ =>
    simp only at hok ⊢
    obtain ⟨x, hx, hok⟩ := Steps.bind_eq_ok.mp hok
    obtain ⟨s₂', hx', halike, hfollows⟩ := hact _ _ x hx
    cases hok
    exact ⟨s₂', by simp only [hx'], halike, hfollows⟩

/-- **The oldest event of both.** -/
theorem resolveEvent_alike (h : Alike s s') {queued queued' : List InputEvent} {b : Bool}
    (hthin : Thinned (Droppable s'.releaseMap) [ev] queued' queued)
    (hok : resolveEvent s now ev queued = .ok (b, s₁, l)) :
    ∃ s₁' l', resolveEvent s' now ev queued' = .ok (b, s₁', l') ∧ Alike s₁ s₁' ∧
      Follows ev s'.releaseMap s₁'.releaseMap ∧ performed l' = performed l := by
  have hfollows : ev.isRelease = false → Follows ev s'.releaseMap s'.releaseMap := by
    intro hrel
    refine follows_of_edge fun k hk => ?_
    rw [(keyEdge_eq_some_false hk).2] at hrel
    exact absurd hrel (by simp)
  unfold resolveEvent at hok ⊢
  by_cases hkey : ev.type = evKey
  · rw [if_pos hkey] at hok ⊢
    by_cases hhigh : ev.code.toNat > keyMax
    · rw [if_pos hhigh] at hok ⊢
      -- no `KeyCode` is that high
      cases hok
      refine ⟨s', [], rfl, h, follows_of_edge fun k hk => ?_, rfl⟩
      have hlt : k.val < keyMax := k.isLt
      rw [(keyEdge_eq_some_false hk).1, codeOf_toNat] at hhigh
      omega
    · rw [if_neg hhigh] at hok ⊢
      by_cases h0 : ev.value = 0
      · rw [if_pos h0] at hok ⊢
        have hrel : ev.isRelease = true := InputEvent.isRelease_iff.mpr ⟨hkey, h0⟩
        obtain ⟨x, hx, hok⟩ := Steps.bind_eq_ok.mp hok
        cases hok
        obtain ⟨k, hk⟩ : ∃ k, ev.code = codeOf k := by
          unfold resolveRelease at hx
          obtain ⟨k, hk, _⟩ := Steps.bind_eq_ok.mp hx
          exact ⟨k, keyIndex_ok.mp hk⟩
        -- a release, which may send different codes but performs no action
        obtain ⟨s₁', l', hs', halike, hfol, hperf⟩ := resolveRelease_alike h hk hrel hx
        exact ⟨s₁', l', by rw [hs']; rfl, halike, hfol, hperf⟩
      · rw [if_neg h0] at hok ⊢
        have hrel : ev.isRelease = false := by simp [InputEvent.isRelease, h0]
        by_cases h1 : ev.value = 1
        · rw [if_pos h1] at hok ⊢
          obtain ⟨s₁', hs', halike, hfol⟩ :=
            resolvePress_alike h (InputEvent.isPress_iff.mpr ⟨hkey, h1⟩) hthin hok
          exact ⟨s₁', l, hs', halike, hfol, rfl⟩
        · rw [if_neg h1] at hok ⊢
          by_cases h2 : ev.value = 2
          · -- a repeat, which may be sent by one of the two only
            rw [if_pos h2] at hok ⊢
            obtain ⟨k, hk, hok⟩ := Steps.bind_eq_ok.mp hok
            rw [hk]
            have hl : b = true ∧ s₁ = s ∧ performed l = [] := by
              simp only at hok
              split at hok <;> (cases hok; exact ⟨rfl, rfl, rfl⟩)
            obtain ⟨rfl, rfl, hl⟩ := hl
            simp only [bind, Except.bind]
            split
            · exact ⟨s', _, rfl, h, hfollows hrel, hl.symm⟩
            · exact ⟨s', _, rfl, h, hfollows hrel, hl.symm⟩
          · rw [if_neg h2] at hok ⊢
            cases hok
            exact ⟨s', [], rfl, h, hfollows hrel, rfl⟩
  · rw [if_neg hkey] at hok ⊢
    have hrel : ev.isRelease = false := by simp [InputEvent.isRelease, hkey]
    split at hok <;> (cases hok; exact ⟨s', [.send ev], by simp, h, hfollows hrel, rfl⟩)

variable (now) in
/-- **An event that is missing** from the queue of the resolver is passed over by the other. -/
theorem resolveEvent_droppable (queued : List InputEvent) (h : Alike s s')
    {seen : List InputEvent}
    (hev : Droppable s'.releaseMap seen ev) :
    ∃ s₁' l', resolveEvent s' now ev queued = .ok (true, s₁', l') ∧ Alike s s₁' ∧
      Follows ev s'.releaseMap s₁'.releaseMap ∧ performed l' = [] := by
  obtain ⟨k, hk⟩ := hev.key
  unfold resolveEvent
  by_cases hkey : ev.type = evKey
  · have hlow : ¬ ev.code.toNat > keyMax := by
      have hlt : k.val < keyMax := k.isLt
      rw [hk, codeOf_toNat]
      omega
    have hrel : ev.isRelease = true := InputEvent.isRelease_iff.mpr ⟨hkey, hev.value⟩
    -- the entry of its key is no layer, so that the keymaps stay the same
    have hentry : s'.releaseMap k ≠ resetKeymap :=
      hev.mapped k (by rw [keyEdge_release hrel, if_pos hk])
    obtain ⟨l', hs', hl'⟩ := resolveRelease_eq s' hk
    rw [if_pos hkey, if_neg hlow, if_pos hev.value, hs', if_neg hentry]
    refine ⟨_, l', rfl, ⟨h.current, h.root, h.lastTap, h.counts, fun j => ?_⟩,
      follows_release hk hrel, hl'⟩
    by_cases hj : j = k
    · subst hj
      simp only [Function.update_self]
      exact ⟨fun hz => absurd hz zero_ne_resetKeymap, fun hr => absurd ((h.layers j).mpr hr) hentry⟩
    · simp only [Function.update_of_ne hj]
      exact h.layers j
  · rw [if_neg hkey]
    have hno : ∀ j, keyEdge j ev ≠ some false := by
      intro j hj
      rw [keyEdge_of_not_key hkey] at hj
      exact absurd hj (by simp)
    refine ⟨s', [.send ev], by simp, h, follows_of_edge hno, rfl⟩

end Alike

/-! ### The newest event of both -/

/-- A key press is not taken from the end of the queue. -/
theorem early_of_press (s : KeyState) {ev : InputEvent} (hpress : ev.isPress = true) :
    earlyRelease s ev = none ∧ layerOnly s ev = none := by
  have hvalue : ev.value ≠ 0 := by
    rw [(InputEvent.isPress_iff.mp hpress).2]
    decide
  unfold earlyRelease layerOnly
  cases asKey ev.code with
  | none => exact ⟨rfl, rfl⟩
  | some k => exact ⟨if_neg hvalue, if_neg fun h => hvalue h.1⟩

/-- **Newest event.** Both leave it alone, or both return to the root keymap, or the resolver
    alone takes a release whose entry is not `RESET_KEYMAP`. -/
theorem early_alike {s s' : KeyState} (h : Alike s s') (ev : InputEvent) :
    (earlyRelease s ev = none ∧ layerOnly s' ev = none) ∨
    (∃ s₁ s₁' l l', earlyRelease s ev = some (s₁, l) ∧ layerOnly s' ev = some (s₁', l') ∧
      Alike s₁ s₁' ∧ s₁'.releaseMap = s'.releaseMap ∧ performed l = [] ∧ performed l' = [] ∧
      .released ev resetKeymap true ∈ l) ∨
    (∃ k l, earlyRelease s ev = some (s, l) ∧ layerOnly s' ev = none ∧ performed l = [] ∧
      ev.code = codeOf k ∧ ev.value = 0 ∧ s'.releaseMap k ≠ resetKeymap) := by
  cases hkey : asKey ev.code with
  | none => exact .inl ⟨by rw [earlyRelease, hkey], by rw [layerOnly, hkey]⟩
  | some k =>
    by_cases hvalue : ev.value = 0
    · -- the entries of both are `RESET_KEYMAP` for the same keys
      by_cases hreset : s.releaseMap k = resetKeymap
      · refine .inr (.inl ⟨{ s with currentKeymap := s.rootKeymap },
          { s' with currentKeymap := s'.rootKeymap }, [.released ev (s.releaseMap k) true],
          [.released ev (s'.releaseMap k) true], ?_, ?_,
          ⟨h.root, h.root, h.lastTap, h.counts, h.layers⟩, rfl, rfl, rfl, ?_⟩)
        · simp only [earlyRelease, hkey, if_pos hvalue, if_pos hreset]
        · simp only [layerOnly, hkey, if_pos (And.intro hvalue ((h.layers k).mpr hreset))]
        · rw [hreset]
          exact List.mem_singleton_self _
      · have hreset' : s'.releaseMap k ≠ resetKeymap := fun hr => hreset ((h.layers k).mp hr)
        have hlayer : layerOnly s' ev = none := by
          simp only [layerOnly, hkey, if_neg fun h : ev.value = 0 ∧ _ => hreset' h.2]
        -- a modifier is not released early
        by_cases hmod : s.releaseMap k ∈ modifierKeys
        · refine .inl ⟨?_, hlayer⟩
          simp only [earlyRelease, hkey, if_pos hvalue, if_neg hreset, if_pos hmod]
        · refine .inr (.inr ⟨k, [.released ev (s.releaseMap k) true,
            .send { ev with code := s.releaseMap k }, .send synEvent], ?_, hlayer, rfl,
            asKey_eq_some.mp hkey, hvalue, hreset'⟩)
          simp only [earlyRelease, hkey, if_pos hvalue, if_neg hreset, if_neg hmod]
    · refine .inl ⟨?_, ?_⟩
      · simp only [earlyRelease, hkey, if_neg hvalue]
      · simp only [layerOnly, hkey, if_neg fun h : ev.value = 0 ∧ _ => hvalue h.1]

/-! ### The loop `while(resolve(r));` of both -/

section Loop

variable {early : EarlyBranch} {now : Timeval} {s s₁ : KeyState} {ev x : InputEvent}
  {rest : List InputEvent} {l : List Effect}

variable (early) in
theorem plainResolve_resolved
    (h : resolveEvent { s with useResolvableTime := false } now ev rest = .ok (true, s₁, l)) :
    plainResolve early now ⟨s, ev :: rest⟩ = .ok (true, ⟨s₁, rest⟩, l) := by
  simp only [plainResolve, h, bind, Except.bind, if_true]

variable (early) in
theorem plainResolve_waiting
    (h : resolveEvent { s with useResolvableTime := false } now ev (rest ++ [x])
      = .ok (false, s₁, l)) :
    plainResolve early now ⟨s, ev :: (rest ++ [x])⟩ = match early s₁ x with
      | some (s₂, l₂) => .ok (false, ⟨s₂, ev :: rest⟩, l ++ l₂)
      | none => .ok (false, ⟨s₁, ev :: (rest ++ [x])⟩, l) := by
  have hlast : (ev :: (rest ++ [x])).getLast (List.cons_ne_nil _ _) = x := by simp
  have hdrop : (ev :: (rest ++ [x])).dropLast = ev :: rest := by
    rw [← List.cons_append, List.dropLast_concat]
  cases hearly : early s₁ x with
  | none =>
    simp only [plainResolve, h, bind, Except.bind, Bool.false_eq_true, if_false, hlast, hearly]
  | some y =>
    simp only [plainResolve, h, bind, Except.bind, Bool.false_eq_true, if_false, hlast, hdrop,
      hearly]

variable (early) in
theorem plainResolve_single
    (h : resolveEvent { s with useResolvableTime := false } now ev [] = .ok (false, s₁, l))
    (hearly : early s₁ ev = none) :
    plainResolve early now ⟨s, [ev]⟩ = .ok (false, ⟨s₁, [ev]⟩, l) := by
  simp only [plainResolve, h, bind, Except.bind, Bool.false_eq_true, if_false,
    List.getLast_singleton, hearly]

/-- A loop that succeeds has handled the oldest event. -/
theorem resolveEvent_of_loop {fuel : Nat} {clk : Nat → Timeval} {q : PlainResolver}
    (h : Steps.loop (plainResolve early) (fuel + 1) clk ⟨s, ev :: rest⟩ = .ok (q, l)) :
    ∃ b s₁ l₁, resolveEvent { s with useResolvableTime := false } (clk 0) ev rest
      = .ok (b, s₁, l₁) := by
  have hstep : ∃ x, plainResolve early (clk 0) ⟨s, ev :: rest⟩ = .ok x := by
    rcases Steps.loop_succ_ok.mp h with h | ⟨p, l₁, l₂, h, _, _⟩
    · exact ⟨_, h⟩
    · exact ⟨_, h⟩
  obtain ⟨x, hx⟩ := hstep
  obtain ⟨⟨b, s₁, l₁⟩, hres, _⟩ := Steps.bind_eq_ok.mp hx
  exact ⟨b, s₁, l₁, hres⟩

/-- On an empty queue the loop ends. -/
theorem loop_empty {fuel : Nat} (hfuel : 0 < fuel) (clk : Nat → Timeval) (s : KeyState) :
    Steps.loop (plainResolve early) fuel clk ⟨s, []⟩ = .ok (⟨s, []⟩, []) := by
  obtain ⟨n, rfl⟩ := Nat.exists_eq_succ_of_ne_zero hfuel.ne'
  exact Steps.loop_succ_ok.mpr (.inl rfl)

/-- A step that answers `true` and what follows it. -/
theorem loop_of_resolved {fuel : Nat} {p p' q : PlainResolver} {l l₁ : List Effect}
    {clk : Nat → Timeval} (hstep : plainResolve early (clk 0) p = .ok (true, p', l₁))
    (h : Steps.loop (plainResolve early) (fuel + 1) clk p = .ok (q, l)) :
    ∃ l₂, Steps.loop (plainResolve early) fuel (fun i => clk (i + 1)) p' = .ok (q, l₂) ∧
      l = l₁ ++ l₂ := by
  rcases Steps.loop_succ_ok.mp h with h | ⟨p₂, l₁', l₂, h₁, h₂, rfl⟩
  · exact absurd (hstep.symm.trans h) (by simp)
  · cases hstep.symm.trans h₁
    exact ⟨l₂, h₂, rfl⟩

/-- A step that answers `false` is the last. -/
theorem loop_of_waiting {fuel : Nat} {p p' q : PlainResolver} {l l₁ : List Effect}
    {clk : Nat → Timeval} (hstep : plainResolve early (clk 0) p = .ok (false, p', l₁))
    (h : Steps.loop (plainResolve early) (fuel + 1) clk p = .ok (q, l)) : q = p' ∧ l = l₁ := by
  rcases Steps.loop_succ_ok.mp h with h | ⟨p₂, l₁', l₂, h₁, h₂, rfl⟩
  · cases hstep.symm.trans h
    exact ⟨rfl, rfl⟩
  · exact absurd (hstep.symm.trans h₁) (by simp)

end Loop

/-- The queues differ by releases that may be missing. -/
structure Behind (p r : PlainResolver) : Prop where
  alike : Alike p.toKeyState r.toKeyState
  queues : Thinned (Droppable r.releaseMap) [] r.queue p.queue

/-- A release that the resolver takes early may be missing behind the waiting event: no event
    of its key is queued before it. -/
theorem droppable_newest {log : List Effect} {s s₁ : KeyState} {map : KeyCode → UInt16}
    {now : Timeval} {ev x : InputEvent} {full thin : List InputEvent} {l : List Effect}
    {k : KeyCode} (halt : Alternating RolloverMode log ⟨s, ev :: (thin ++ [x])⟩)
    (hh : Handled { s with useResolvableTime := false } now ev (thin ++ [x]) false s₁ l)
    (hqueue : Thinned (Droppable map) [] (ev :: (full ++ [x])) (ev :: (thin ++ [x])))
    (hk : x.code = codeOf k) (hvalue : x.value = 0) (hentry : map k ≠ resetKeymap)
    {l₁ l₂ : List InputEvent} (hsplit : ev :: (full ++ [x]) = l₁ ++ x :: l₂) :
    Droppable map l₁ x := by
  refine ⟨hvalue, ⟨k, hk⟩, fun j hj => ?_, fun j hj e he hpress => ?_⟩
  · obtain rfl := codeOf_injective (hk.symm.trans (keyEdge_eq_some_false hj).1)
    exact hentry
  · have hlast : x = (ev :: (thin ++ [x])).getLast (List.cons_ne_nil _ _) := by simp
    have hs : Ready RolloverMode { s with useResolvableTime := false } :=
      halt.ready.of_eq rfl rfl rfl
    obtain ⟨hnone, _, _⟩ :=
      newest_release halt (queue_newest rfl hlast) hj (hh.unqueued hs hlast hj)
    have hdrop : (ev :: (thin ++ [x])).dropLast = ev :: thin := by
      rw [← List.cons_append, List.dropLast_concat]
    simp only [hdrop] at hnone
    -- a press in the longer queue is in the shorter one
    have hmem : e ∈ ev :: (full ++ [x]) := by
      rw [hsplit]
      exact List.mem_append_left _ he
    have hthin := (hqueue.mem_or_dropped (P := fun e => e.value = 0) (fun _ _ hd => hd.value) e
      hmem).resolve_right fun h0 => by
        have hp := (keyEdge_eq_some_true hpress).2
        rw [isPress_of_value_zero h0] at hp
        exact absurd hp (by simp)
    rw [← List.cons_append] at hthin
    rcases List.mem_append.mp hthin with hthin | hthin
    · have : true ∈ keyEdges j (ev :: thin) := List.mem_filterMap.mpr ⟨e, hthin, hpress⟩
      rw [hnone] at this
      exact absurd this (by simp)
    · rw [List.mem_singleton.mp hthin, hj] at hpress
      exact absurd hpress (by simp)

/-- **The last call** of `resolve`, which leaves the oldest event waiting. -/
theorem waiting_behind {log : List Effect} {s s' s₁ s₁' : KeyState} {now : Timeval}
    {ev x : InputEvent} {full thin : List InputEvent} {l l' : List Effect}
    (halt : Alternating RolloverMode log ⟨s, ev :: (thin ++ [x])⟩)
    (hqueue : Thinned (Droppable s'.releaseMap) [ev] full thin) (halike : Alike s₁ s₁')
    (hres : resolveEvent { s with useResolvableTime := false } now ev (thin ++ [x])
      = .ok (false, s₁, l))
    (hres' : resolveEvent { s' with useResolvableTime := false } now ev (full ++ [x])
      = .ok (false, s₁', l'))
    (hperf : performed l' = performed l) :
    ∃ p r l₁ l₁', plainResolve earlyRelease now ⟨s, ev :: (thin ++ [x])⟩ = .ok (false, p, l₁) ∧
      plainResolve layerOnly now ⟨s', ev :: (full ++ [x])⟩ = .ok (false, r, l₁') ∧
      Behind p r ∧ SameActions l₁ l₁' := by
  have hh' := resolveEvent_handled hres'
  have hmap : s₁'.releaseMap = s'.releaseMap := hh'.waiting_eq.1
  rw [← hmap] at hqueue
  have hkept : Thinned (Droppable s₁'.releaseMap) [] (ev :: (full ++ [x])) (ev :: (thin ++ [x])) :=
    .keep ev (hqueue.push x)
  rcases early_alike halike x with ⟨hearly, hlayer⟩ |
    ⟨s₂, s₂', l₂, l₂', hearly, hlayer, halike₂, hmap₂, hperf₂, hperf₂', hmem⟩ |
    ⟨k, l₂, hearly, hlayer, hperf₂, hk, hvalue, hentry⟩
  · -- both leave the newest event alone
    refine ⟨⟨s₁, ev :: (thin ++ [x])⟩, ⟨s₁', ev :: (full ++ [x])⟩, l, l', ?_, ?_,
      ⟨halike, hkept⟩, hperf, fun _ => hh'.noEarly⟩
    · rw [plainResolve_waiting _ hres, hearly]
    · rw [plainResolve_waiting _ hres', hlayer]
  · -- both return to the root keymap
    refine ⟨⟨s₂, ev :: thin⟩, ⟨s₂', ev :: full⟩, l ++ l₂, l' ++ l₂', ?_, ?_, ⟨halike₂, ?_⟩, ?_,
      fun hno => absurd (List.mem_append_right l hmem) (hno x)⟩
    · rw [plainResolve_waiting _ hres, hearly]
    · rw [plainResolve_waiting _ hres', hlayer]
    · rw [hmap₂]
      exact .keep ev hqueue
    · rw [performed_append, performed_append, hperf, hperf₂, hperf₂']
  · -- the resolver alone takes the release
    refine ⟨⟨s₁, ev :: thin⟩, ⟨s₁', ev :: (full ++ [x])⟩, l ++ l₂, l', ?_, ?_, ⟨halike, ?_⟩, ?_,
      fun _ => hh'.noEarly⟩
    · rw [plainResolve_waiting _ hres, hearly]
    · rw [plainResolve_waiting _ hres', hlayer]
    · have hlong : Thinned (Droppable s₁'.releaseMap) [] (ev :: (full ++ [x]))
          ((ev :: thin) ++ [x]) := hkept
      exact hlong.drop_last fun l₁ l₂ hsplit =>
        droppable_newest halt (resolveEvent_handled hres) hkept hk hvalue hentry hsplit
    · rw [performed_append, hperf, hperf₂, List.append_nil]

/-- The loop on an event that is alone in both queues. -/
theorem loop_single_behind {now : Timeval} {x : InputEvent} {fuel fuel' : Nat} {s s' : KeyState}
    {p : PlainResolver} {l : List Effect} (halike : Alike s s')
    (hloop : Steps.loop (plainResolve earlyRelease) (fuel + 2) (fun _ => now) ⟨s, [x]⟩
      = .ok (p, l)) :
    ∃ r l', Steps.loop (plainResolve layerOnly) (fuel' + 2) (fun _ => now) ⟨s', [x]⟩
        = .ok (r, l') ∧ Behind p r ∧ SameActions l l' := by
  have hempty : Thinned (Droppable s'.releaseMap) [x] [] [] := .nil _
  obtain ⟨b, s₁, l₁, hres⟩ := resolveEvent_of_loop hloop
  obtain ⟨s₁', l₁', hres', halike₁, _, hperf⟩ := resolveEvent_alike halike.clear hempty hres
  have hh' := resolveEvent_handled hres'
  cases b with
  | true =>
    have hstep := plainResolve_resolved earlyRelease hres
    have hstep' := plainResolve_resolved layerOnly hres'
    obtain ⟨l₂, hrest, rfl⟩ := loop_of_resolved hstep hloop
    rw [loop_empty (Nat.succ_pos fuel)] at hrest
    cases hrest
    refine ⟨⟨s₁', []⟩, l₁', Steps.loop_succ_ok.mpr (.inr ⟨_, l₁', [], hstep',
      loop_empty (Nat.succ_pos fuel') _ _, (List.append_nil _).symm⟩), ⟨halike₁, .nil _⟩, ?_⟩
    rw [List.append_nil]
    exact ⟨hperf, fun _ => hh'.noEarly⟩
  | false =>
    -- the event itself waits, so it is a press
    have hpress : x.isPress = true := by
      cases resolveEvent_handled hres with
      | waiting hpress _ _ _ => exact hpress
    have hstep := plainResolve_single earlyRelease hres (early_of_press s₁ hpress).1
    have hstep' := plainResolve_single layerOnly hres' (early_of_press s₁' hpress).2
    obtain ⟨rfl, rfl⟩ := loop_of_waiting hstep hloop
    exact ⟨_, l₁', Steps.loop_succ_ok.mpr (.inl hstep'), ⟨halike₁, .keep x (.nil _)⟩, hperf,
      fun _ => hh'.noEarly⟩

/-- **The loop.** On queues that end with the event that has just arrived, `while(resolve(r));`
    performs the same actions.  The induction is on the longer queue: its oldest event is
    missing from the shorter one, or both handle it. -/
theorem loop_behind (now : Timeval) (x : InputEvent) (full : List InputEvent) :
    ∀ (fuel fuel' : Nat) {log : List Effect} {s s' : KeyState} {thin : List InputEvent}
      {p : PlainResolver} {l : List Effect},
      Alike s s' → Thinned (Droppable s'.releaseMap) [] full thin →
      Alternating RolloverMode log ⟨s, thin ++ [x]⟩ →
      thin.length + 1 < fuel → full.length + 1 < fuel' →
      Steps.loop (plainResolve earlyRelease) fuel (fun _ => now) ⟨s, thin ++ [x]⟩ = .ok (p, l) →
      ∃ r l', Steps.loop (plainResolve layerOnly) fuel' (fun _ => now) ⟨s', full ++ [x]⟩
          = .ok (r, l') ∧ Behind p r ∧ SameActions l l' := by
  induction full with
  | nil =>
    intro fuel fuel' log s s' thin p l halike hthin halt hfuel hfuel' hloop
    cases hthin with
    | nil _ =>
      simp only [List.length_nil] at hfuel hfuel'
      obtain ⟨n, rfl⟩ : ∃ n, fuel = n + 2 := ⟨fuel - 2, by omega⟩
      obtain ⟨n', rfl⟩ : ∃ n', fuel' = n' + 2 := ⟨fuel' - 2, by omega⟩
      exact loop_single_behind halike hloop
  | cons y full ih =>
    intro fuel fuel' log s s' thin p l halike hthin halt hfuel hfuel' hloop
    obtain ⟨n', rfl⟩ : ∃ n', fuel' = n' + 1 := ⟨fuel' - 1, by omega⟩
    have hs := halike.clear
    cases hthin with
    | skip hy hthin =>
      -- only the longer queue has `y`
      obtain ⟨s₁', l₁', hres', halike₁, hfollows, hperf⟩ := resolveEvent_droppable
        now (full ++ [x]) hs hy
      have halike₂ : Alike s s₁' :=
        ⟨halike₁.current, halike₁.root, halike₁.lastTap, halike₁.counts, halike₁.layers⟩
      obtain ⟨r, l', hloop', hbehind, hsame⟩ := ih fuel n' halike₂
        (pop_thinned hthin hfollows) halt hfuel (by simp at hfuel'; omega) hloop
      refine ⟨r, l₁' ++ l', Steps.loop_succ_ok.mpr (.inr ⟨_, l₁', l',
        plainResolve_resolved _ hres', hloop', rfl⟩), hbehind, ?_⟩
      have hnothing : SameActions [] l₁' :=
        ⟨hperf, fun _ => (resolveEvent_handled hres').noEarly⟩
      exact hnothing.append hsame
    | @keep _ _ thin _ hthin =>
      obtain ⟨n, rfl⟩ : ∃ n, fuel = n + 1 := ⟨fuel - 1, by omega⟩
      obtain ⟨b, s₁, l₁, hres⟩ := resolveEvent_of_loop hloop
      obtain ⟨s₁', l₁', hres', halike₁, hfollows, hperf⟩ :=
        resolveEvent_alike hs (hthin.push x) hres
      cases b with
      | true =>
        have hstep := plainResolve_resolved earlyRelease hres
        obtain ⟨l₂, hrest, rfl⟩ := loop_of_resolved hstep hloop
        have halt₁ := plainResolve_alternating halt hstep
          (plainResolve_takenAfterPress halt.ready hstep)
        obtain ⟨r, l₂', hloop', hbehind, hsame⟩ := ih n n' halike₁
          (pop_thinned hthin hfollows) halt₁ (by simp at hfuel; omega)
          (by simp at hfuel'; omega) hrest
        refine ⟨r, l₁' ++ l₂', Steps.loop_succ_ok.mpr (.inr ⟨_, l₁', l₂',
          plainResolve_resolved _ hres', hloop', rfl⟩), hbehind, ?_⟩
        have hfirst : SameActions l₁ l₁' :=
          ⟨hperf, fun _ => (resolveEvent_handled hres').noEarly⟩
        exact hfirst.append hsame
      | false =>
        obtain ⟨p', r, l₂, l₂', hstep, hstep', hbehind, hsame⟩ :=
          waiting_behind halt hthin halike₁ hres hres' hperf
        obtain ⟨rfl, rfl⟩ := loop_of_waiting hstep hloop
        exact ⟨r, l₂', Steps.loop_succ_ok.mpr (.inl hstep'), hbehind, hsame⟩

/-! ### Events and runs of both -/

/-- The clock stands still while the event is processed. -/
def Reading.Instant (i : Reading) : Prop := ∀ j, i.clk j = i.clk 0

/-- The input filter looks at the input counts only. -/
theorem resolveDedupInput_congr {s s₁ : KeyState} {ev : InputEvent} {pass : Bool}
    (h : resolveDedupInput s ev = .ok (pass, s₁)) {s' : KeyState}
    (hcounts : s'.inputCounts = s.inputCounts) :
    ∃ counts, s₁ = { s with inputCounts := counts } ∧
      resolveDedupInput s' ev = .ok (pass, { s' with inputCounts := counts }) := by
  -- the same branches are taken for both states
  unfold resolveDedupInput at h ⊢
  rw [hcounts]
  by_cases hkey : ev.type ≠ evKey
  · rw [if_pos hkey] at h ⊢
    cases h
    exact ⟨s.inputCounts, rfl, by rw [← hcounts]⟩
  · rw [if_neg hkey] at h ⊢
    by_cases hhigh : ev.code.toNat > keyMax
    · rw [if_pos hhigh] at h ⊢
      cases h
      exact ⟨s.inputCounts, rfl, by rw [← hcounts]⟩
    · rw [if_neg hhigh] at h ⊢
      by_cases h0 : ev.value = 0
      · rw [if_pos h0] at h ⊢
        obtain ⟨k, hk, h⟩ := Steps.bind_eq_ok.mp h
        simp only [hk, bind, Except.bind]
        by_cases hzero : s.inputCounts k = 0
        · rw [if_pos hzero] at h ⊢
          cases h
          exact ⟨s.inputCounts, rfl, by rw [← hcounts]⟩
        · rw [if_neg hzero] at h ⊢
          cases h
          exact ⟨_, rfl, rfl⟩
      · rw [if_neg h0] at h ⊢
        by_cases h1 : ev.value = 1
        · rw [if_pos h1] at h ⊢
          obtain ⟨k, hk, h⟩ := Steps.bind_eq_ok.mp h
          simp only [hk, bind, Except.bind]
          cases h
          exact ⟨_, rfl, rfl⟩
        · rw [if_neg h1] at h ⊢
          cases h
          exact ⟨s.inputCounts, rfl, by rw [← hcounts]⟩

section Event

variable {early : EarlyBranch} {capacity : Option Nat} {clk : Nat → Timeval} {ev : InputEvent}
  {p p' : PlainResolver} {s : KeyState} {l : List Effect}

theorem plainEvent_dropped (hdedup : resolveDedupInput p.toKeyState ev = .ok (false, s)) :
    plainEvent early capacity clk ev p = .ok (⟨s, p.queue⟩, []) := by
  simp [plainEvent, hdedup, bind, Except.bind]

theorem plainEvent_queued (hdedup : resolveDedupInput p.toKeyState ev = .ok (true, s))
    (hloop : Steps.loop (plainResolve early) ((p.queue ++ [ev]).length + 1) clk
      ⟨s, p.queue ++ [ev]⟩ = .ok (p', l)) :
    plainEvent early none clk ev p = .ok (p', .arrive ev :: l) := by
  simp only [plainEvent, hdedup, hloop, bind, Except.bind, reduceCtorEq, if_false, if_true]

end Event

/-- **One event.** -/
theorem plainEvent_behind {log l : List Effect} {p p₁ r : PlainResolver} {i : Reading}
    {capacity : Option Nat} (hclk : i.Instant) (halt : Alternating RolloverMode log p)
    (hb : Behind p r)
    (hok : plainEvent earlyRelease capacity i.clk i.ev p = .ok (p₁, l)) :
    ∃ r₁ l', plainEvent layerOnly none i.clk i.ev r = .ok (r₁, l') ∧ Behind p₁ r₁ ∧
      SameActions l l' := by
  obtain ⟨pass, s, hdedup, hcase⟩ := plainEvent_cases hok
  obtain ⟨counts, rfl, hdedup'⟩ := resolveDedupInput_congr hdedup hb.alike.counts
  have halike : Alike { p.toKeyState with inputCounts := counts }
      { r.toKeyState with inputCounts := counts } :=
    ⟨hb.alike.current, hb.alike.root, hb.alike.lastTap, rfl, hb.alike.layers⟩
  rcases hcase with ⟨rfl, rfl, rfl⟩ | ⟨l₁, rfl, rfl, hloop⟩
  · -- the event is dropped by both
    refine ⟨⟨{ r.toKeyState with inputCounts := counts }, r.queue⟩, [], ?_, ⟨halike, hb.queues⟩,
      rfl, fun _ _ _ hmem => absurd hmem (by simp)⟩
    exact plainEvent_dropped hdedup'
  · -- the event is queued by both, and both run their loops at the same time
    have hnow : i.clk = fun _ => i.clk 0 := funext hclk
    rw [hnow] at hloop
    obtain ⟨r₁, l₁', hloop', hbehind, hsame⟩ := loop_behind (i.clk 0) i.ev r.queue _ _ halike
      hb.queues (alternating_arrive halt hdedup) (by simp) (Nat.lt_succ_self _) hloop
    have hfuel : (r.queue ++ [i.ev]).length = r.queue.length + 1 := by simp
    rw [← hnow, ← hfuel] at hloop'
    have harrive : SameActions [.arrive i.ev] [.arrive i.ev] :=
      ⟨rfl, fun _ _ _ hmem => absurd hmem (by simp)⟩
    exact ⟨r₁, .arrive i.ev :: l₁', plainEvent_queued hdedup' hloop', hbehind,
      harrive.append hsame⟩

/-- **Early releases are invisible.** Taking the release of a key that holds an output code
    early does not change the actions performed. -/
theorem runPlain_layerOnly {capacity : Option Nat} {root : KeyAction} (hmap : root.isMap = true)
    (hroot : root.Usable RolloverMode) {inputs : List Reading}
    (hclk : ∀ i ∈ inputs, i.Instant) {p : PlainResolver} {log : List Effect}
    (h : runPlain earlyRelease capacity root inputs = .ok (p, log)) :
    ∃ r log', runPlain layerOnly none root inputs = .ok (r, log') ∧ SameActions log log' := by
  have hstart : Behind ⟨KeyState.init root, []⟩ ⟨KeyState.init root, []⟩ :=
    ⟨⟨rfl, rfl, rfl, rfl, fun _ => Iff.rfl⟩, .nil _⟩
  -- what one event preserves: the invariant of the resolver, and how the other is behind
  have hmatch : ∀ i ∈ inputs, ∀ log p p₁ l r, Alternating RolloverMode log p ∧ Behind p r →
      plainEvent earlyRelease capacity i.clk i.ev p = .ok (p₁, l) →
      ∃ r₁ l', plainEvent layerOnly none i.clk i.ev r = .ok (r₁, l') ∧
        (Alternating RolloverMode (log ++ l) p₁ ∧ Behind p₁ r₁) ∧ SameActions l l' := by
    rintro i hi log p p₁ l r ⟨halt, hb⟩ hstep
    obtain ⟨r₁, l', hstep', hb', hsame⟩ := plainEvent_behind (hclk i hi) halt hb hstep
    refine ⟨r₁, l', hstep', ⟨?_, hb'⟩, hsame⟩
    exact plainEvent_inv (Alternating RolloverMode) (fun _ => True)
      (fun _ _ _ _ hp hd => alternating_drop hp hd)
      (fun _ _ _ _ hp _ ha => alternating_arrive hp ha)
      (fun _ _ _ _ _ _ hp hs =>
        plainResolve_alternating hp hs (plainResolve_takenAfterPress hp.ready hs))
      log halt trivial hstep
  have hboth : Alternating RolloverMode [] ⟨KeyState.init root, []⟩ ∧
      Behind ⟨KeyState.init root, []⟩ ⟨KeyState.init root, []⟩ :=
    ⟨alternating_init hmap hroot, hstart⟩
  obtain ⟨r, log', hrun, _, hsame⟩ := Steps.run_sim
    (fun log p r => Alternating RolloverMode log p ∧ Behind p r) SameActions
    ⟨rfl, fun _ _ _ hmem => absurd hmem (by simp)⟩ (fun _ _ _ _ h₁ h₂ => h₁.append h₂) hmatch
    hboth h
  exact ⟨r, log', hrun, hsame⟩

/-! ### Without early releases -/

/-- A call that takes nothing early is one of the plain first-in-first-out resolver. -/
theorem plainResolve_fifo {now : Timeval} {p p' : PlainResolver} {b : Bool} {l : List Effect}
    (h : plainResolve layerOnly now p = .ok (b, p', l)) (hno : NoEarly l) :
    plainResolve fifo now p = .ok (b, p', l) := by
  obtain ⟨s, queue⟩ := p
  cases queue with
  | nil => exact h
  | cons ev rest =>
    obtain ⟨⟨b₁, s₁, l₁⟩, hres, h⟩ := Steps.bind_eq_ok.mp h
    simp only [plainResolve, hres, bind, Except.bind]
    simp only at h
    cases b₁ with
    | true => exact h
    | false =>
      simp only [Bool.false_eq_true, if_false] at h ⊢
      split at h
      · -- something was taken early
        rename_i s₂ l₂ hearly
        cases h
        have hmem : ∃ e code, Effect.released e code true ∈ l₂ := by
          unfold layerOnly at hearly
          split at hearly
          · exact absurd hearly (by simp)
          · split at hearly
            · cases hearly
              exact ⟨_, _, List.mem_singleton_self _⟩
            · exact absurd hearly (by simp)
        obtain ⟨e, code, hmem⟩ := hmem
        exact absurd (List.mem_append_right l₁ hmem) (hno e code)
      · exact h

theorem runPlain_fifo {root : KeyAction} {inputs : List Reading} {p : PlainResolver}
    {log : List Effect} (h : runPlain layerOnly none root inputs = .ok (p, log))
    (hno : NoEarly log) : runPlain fifo none root inputs = .ok (p, log) := by
  have hforall : ∀ l : List Effect,
      (∀ x ∈ l, ∀ ev code, x ≠ .released ev code true) → NoEarly l := by
    intro l hl ev code hmem
    exact hl _ hmem ev code rfl
  refine Steps.run_congr _ (fun x => ∀ ev code, x ≠ .released ev code true) ?_ h ?_
  · intro i p p' l hstep hl
    obtain ⟨pass, s, hdedup, hcase⟩ := plainEvent_cases hstep
    rcases hcase with ⟨rfl, rfl, rfl⟩ | ⟨l₁, rfl, rfl, hloop⟩
    · exact plainEvent_dropped hdedup
    · have hloop' := Steps.loop_congr (plainResolve fifo)
        (fun x => ∀ ev code, x ≠ .released ev code true)
        (fun _ _ _ _ _ hs hl => plainResolve_fifo hs (hforall _ hl)) hloop
        (fun x hx => hl x (List.mem_cons_of_mem _ hx))
      exact plainEvent_queued hdedup hloop'
  · rintro x hx ev code rfl
    exact hno ev code hx

/-- The codes of the keys that were released early. -/
def earlyCodes (log : List Effect) : List UInt16 :=
  log.filterMap fun
    | .released _ code true => some code
    | _ => none

theorem mem_earlyCodes {log : List Effect} {ev : InputEvent} {code : UInt16}
    (h : .released ev code true ∈ log) : code ∈ earlyCodes log :=
  List.mem_filterMap.mpr ⟨_, h, rfl⟩

/-- **Early release does not change what pending keys mean, unless it releases a layer key.**
    For every keymap without `TIMEOUT_ONLY` keys and all events with codes below `KEY_MAX`,
    each with a clock reading, that do not overflow the queue: the resolver performs the same
    actions for the same presses in the same order as the one that takes only the releases of
    layer keys early; and if it took no release of a layer key early, as the plain
    first-in-first-out resolver. -/
theorem early_release_fifo (km : Keymap) (hmode : km.root.NoTimeoutOnly) (inputs : List Reading)
    (hin : ∀ i ∈ inputs, CodeInRange i.ev) (hclk : ∀ i ∈ inputs, i.Instant) :
    runResolver km.root inputs = .error .overflow ∨
    ∃ r log, runResolver km.root inputs = .ok (r, log) ∧
      (∃ p log', runPlain layerOnly none km.root inputs = .ok (p, log') ∧
        performed log' = performed log) ∧
      (NoEarlyLayer log → ∃ p log', runPlain fifo none km.root inputs = .ok (p, log') ∧
        performed log' = performed log) := by
  have hroot : km.root.Usable RolloverMode := ⟨km.root_filled, hmode⟩
  rcases runResolver_total rfl hroot hin with h | ⟨r, log, h⟩
  · exact .inl h
  · obtain ⟨p, log', hrun, hsame, hearly⟩ :=
      runPlain_layerOnly rfl hroot hclk (runPlain_of_runResolver h)
    exact .inr ⟨r, log, h, ⟨p, log', hrun, hsame⟩, fun hno =>
      ⟨p, log', runPlain_fifo hrun (hearly hno), hsame⟩⟩

/-- A key released behind an undecided one: its early release does not matter. -/
theorem early_release_fifo_behind :
    let inputs := [keyAt 0 30 1, keyAt 10 45 1, keyAt 20 30 0, keyAt 30 45 0]
    ∃ r log p log', runResolver (shiftOn45 .tapOnRollover).root inputs = .ok (r, log) ∧
      runPlain fifo none (shiftOn45 .tapOnRollover).root inputs = .ok (p, log') ∧
      performed log' = performed log ∧ (released log).length = 2 := by
  intro inputs
  have hmode : (shiftOn45 .tapOnRollover).root.NoTimeoutOnly := shiftOn45_allDuals (by decide)
  have hclk : ∀ i ∈ inputs, i.Instant := by
    intro i hi
    rcases (by simpa [inputs] using hi : i = keyAt 0 30 1 ∨ i = keyAt 10 45 1 ∨ i = keyAt 20 30 0 ∨
      i = keyAt 30 45 0) with rfl | rfl | rfl | rfl <;> exact fun _ => rfl
  have hrun : (runResolver (shiftOn45 .tapOnRollover).root inputs).map
      (fun x => ((released x.2).length, earlyCodes x.2)) = .ok (2, [30]) := by
    decide +kernel
  obtain ⟨⟨r, log⟩, hok, hshape⟩ := Steps.map_eq_ok hrun
  obtain ⟨hlen, hearly⟩ := Prod.mk.inj hshape
  have hno : NoEarlyLayer log := by
    intro ev hmem
    have hin : resetKeymap ∈ [(30 : UInt16)] := by
      rw [← hearly]
      exact mem_earlyCodes hmem
    exact absurd hin (by decide)
  rcases early_release_fifo (shiftOn45 .tapOnRollover) hmode inputs (by decide) hclk with
    h | ⟨r', log', h, _, hfifo⟩
  · exact absurd (h.symm.trans hok) (by simp)
  · cases h.symm.trans hok
    obtain ⟨p, log', hrun', hperf⟩ := hfifo hno
    exact ⟨r, log, p, log', h, hrun', hperf, hlen⟩

/-- Key 38 is held for a layer in which 30 types 48 and 45 is a dual key. -/
def layerOn38 : Keymap :=
  .ofTable [(38, .ktMap (tableMap [(30, .ktSimple 48),
    (45, .ktDual (.ktSimple 45) (.ktSimple 42) ⟨.tapOnRollover, 200, 300⟩)]))] (by
    intro b hb
    obtain rfl := List.mem_singleton.mp hb
    refine tableMap_forall trivial fun b hb => ?_
    rcases List.mem_pair.mp hb with rfl | rfl
    · trivial
    · have htimes : (1 : Int) ≤ 200 ∧ (-1 : Int) ≤ 300 := by decide
      exact ⟨⟨rfl, rfl, rfl⟩, htimes, trivial, trivial⟩)

theorem layerOn38_noTimeoutOnly : layerOn38.root.NoTimeoutOnly := by
  refine Keymap.root_allDuals _ (tableMap_forall trivial fun b hb => ?_)
  obtain rfl := List.mem_singleton.mp hb
  refine tableMap_forall trivial fun b hb => ?_
  rcases List.mem_pair.mp hb with rfl | rfl
  · trivial
  · exact ⟨by decide, trivial, trivial⟩

/-- The layer is left while 45 and 30, pressed in it, are still pending: 30 is then looked up
    in the root keymap, where it types 30.  First in, first out it would type 48. -/
theorem early_layer_release :
    let inputs := [keyAt 0 38 1, keyAt 10 45 1, keyAt 20 30 1, keyAt 30 38 0, keyAt 40 45 0]
    layerOn38.root.NoTimeoutOnly ∧ (∀ i ∈ inputs, CodeInRange i.ev) ∧
    (runResolver layerOn38.root inputs).map (fun x => (performed x.2).map fun a => a.2.code)
      = .ok [none, some 45, some 30] ∧
    (runPlain fifo none layerOn38.root inputs).map (fun x => (performed x.2).map fun a => a.2.code)
      = .ok [none, some 45, some 48] := by
  refine ⟨layerOn38_noTimeoutOnly, by decide, ?_, ?_⟩
  · decide +kernel
  · decide +kernel

end Sdiol
