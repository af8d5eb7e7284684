import Sdiol.PressOrder

namespace Sdiol

/-!
# What an undecided dual key says about the queue

`ScanStep` lists what one iteration of the loop of `check_waveform` can do, and
`scanWaveform_step` says that nothing else happens; everything that is known about the loop
rests on it.

`check_waveform` answers `NONE_YET` before the timeout only if it read the whole queue and
found no press and later release of the same key (`scanWaveform_noneYet`).  This is the
comment of `resolve`'s early release branch made precise: outside `TIMEOUT_ONLY`, a release
that is queued behind an undecided key belongs to a press that is no longer in the queue.
-/

/-! ### One iteration of the loop -/

/-- What the loop of `check_waveform` does with the event `e`, when it has collected
    `keysPressed`: how it goes on with the rest of the queue, or what it answers. -/
inductive ScanStep (mode : DualMode) (ev : InputEvent) (keysPressed : KeyCode → Bool)
    (e : InputEvent) : (LastTap → List InputEvent → Waveform × LastTap) → Prop
  /-- no release of the main key or of a key that was collected, and no press that counts -/
  | skip (hmain : ¬ (e.isRelease = true ∧ e.code = ev.code))
      (hpress : e.isPress = true → asKey e.code = none ∧ mode ≠ .holdOnRollover)
      (hup : ∀ k, e.isRelease = true → e.code = codeOf k → keysPressed k = false) :
      ScanStep mode ev keysPressed e (scanWaveform mode ev keysPressed)
  /-- the release of the main key -/
  | main (hrel : e.isRelease = true) (hcode : e.code = ev.code) :
      ScanStep mode ev keysPressed e fun _ _ => (.tap, trackLastTap e)
  /-- a press, in `HOLD_ON_ROLLOVER` -/
  | rollover (hmode : mode = .holdOnRollover) (hpress : e.isPress = true) :
      ScanStep mode ev keysPressed e fun t _ => (.hold, invalidateLastTap t)
  /-- a press that is collected -/
  | collect (k : KeyCode) (hmode : mode ≠ .holdOnRollover) (hpress : e.isPress = true)
      (hk : e.code = codeOf k) :
      ScanStep mode ev keysPressed e fun t rest =>
        scanWaveform mode ev (Function.update keysPressed k true) (invalidateLastTap t) rest
  /-- the release of another key, which was collected -/
  | released (k : KeyCode) (hrel : e.isRelease = true) (hcode : e.code ≠ ev.code)
      (hk : e.code = codeOf k) (hdown : keysPressed k = true) :
      ScanStep mode ev keysPressed e fun t _ => (.hold, invalidateLastTap t)

/-- **One iteration.** -/
theorem scanWaveform_step (mode : DualMode) (ev : InputEvent) (keysPressed : KeyCode → Bool)
    (e : InputEvent) :
    ∃ f, ScanStep mode ev keysPressed e f ∧
      ∀ t rest, scanWaveform mode ev keysPressed t (e :: rest) = f t rest := by
  by_cases htype : e.type = evKey
  swap
  · -- not a key event
    refine ⟨_, .skip (fun h => ?_) (fun h => ?_) (fun k h _ => ?_), fun t rest => ?_⟩
    · exact htype (InputEvent.isRelease_iff.mp h.1).1
    · exact absurd (InputEvent.isPress_iff.mp h).1 htype
    · exact absurd (InputEvent.isRelease_iff.mp h).1 htype
    · rw [scanWaveform, if_pos htype]
  have hkey : ¬ e.type ≠ evKey := not_not.mpr htype
  by_cases hmain : e.value = 0 ∧ e.code = ev.code
  · refine ⟨_, .main (InputEvent.isRelease_iff.mpr ⟨htype, hmain.1⟩) hmain.2, fun t rest => ?_⟩
    rw [scanWaveform, if_neg hkey, if_pos hmain]
  have hnotMain : ¬ (e.isRelease = true ∧ e.code = ev.code) :=
    fun h => hmain ⟨(InputEvent.isRelease_iff.mp h.1).2, h.2⟩
  by_cases hroll : mode = .holdOnRollover ∧ e.type = evKey ∧ e.value = 1
  · refine ⟨_, .rollover hroll.1 (InputEvent.isPress_iff.mpr hroll.2), fun t rest => ?_⟩
    rw [scanWaveform, if_neg hkey, if_neg hmain, if_pos hroll]
  have hmode : e.isPress = true → mode ≠ .holdOnRollover :=
    fun h heq => hroll ⟨heq, InputEvent.isPress_iff.mp h⟩
  cases hk : asKey e.code with
  | none =>
    -- a code above every key's
    refine ⟨_, .skip hnotMain (fun h => ⟨hk, hmode h⟩) (fun k _ hcode => ?_), fun t rest => ?_⟩
    · rw [hcode, asKey_codeOf] at hk
      exact absurd hk (by simp)
    · rw [scanWaveform, if_neg hkey, if_neg hmain, if_neg hroll, hk]
  | some k =>
    have hcode := asKey_eq_some.mp hk
    by_cases hone : e.value = 1
    · have hpress : e.isPress = true := InputEvent.isPress_iff.mpr ⟨htype, hone⟩
      refine ⟨_, .collect k (hmode hpress) hpress hcode, fun t rest => ?_⟩
      rw [scanWaveform, if_neg hkey, if_neg hmain, if_neg hroll, hk]
      exact if_pos hone
    by_cases hrel : e.value = 0 ∧ keysPressed k = true
    · have hother : e.code ≠ ev.code := fun h => hmain ⟨hrel.1, h⟩
      refine ⟨_, .released k (InputEvent.isRelease_iff.mpr ⟨htype, hrel.1⟩) hother hcode hrel.2,
        fun t rest => ?_⟩
      rw [scanWaveform, if_neg hkey, if_neg hmain, if_neg hroll, hk]
      exact (if_neg hone).trans (if_pos hrel)
    · refine ⟨_, .skip hnotMain (fun h => ?_) (fun j h hj => ?_), fun t rest => ?_⟩
      · exact absurd (InputEvent.isPress_iff.mp h).2 hone
      · -- a key that was not collected
        obtain rfl := codeOf_injective (hcode.symm.trans hj)
        by_contra hdown
        exact hrel ⟨(InputEvent.isRelease_iff.mp h).2, by simpa using hdown⟩
      · rw [scanWaveform, if_neg hkey, if_neg hmain, if_neg hroll, hk]
        exact (if_neg hone).trans (if_neg hrel)

/-! ### An undecided scan -/

/-- **Scan.** If the loop runs to the end of the queue, then no release in it is of the main
    key, of a key recorded as pressed, or of a key pressed before it in the queue. -/
theorem scanWaveform_noneYet {mode : DualMode} {ev : InputEvent} {keysPressed : KeyCode → Bool}
    {t t' : LastTap} {queued : List InputEvent}
    (h : scanWaveform mode ev keysPressed t queued = (.noneYet, t'))
    {l₁ l₂ : List InputEvent} {rel : InputEvent} (hsplit : queued = l₁ ++ rel :: l₂)
    (hrel : rel.isRelease = true) {k : KeyCode} (hk : rel.code = codeOf k) :
    ev.code ≠ codeOf k ∧ keysPressed k = false ∧
      ∀ e ∈ l₁, e.isPress = true → e.code ≠ codeOf k := by
  induction queued generalizing keysPressed t l₁ with
  | nil => simp at hsplit
  | cons e rest ih =>
    obtain ⟨f, hstep, hf⟩ := scanWaveform_step mode ev keysPressed e
    rw [hf] at h
    -- the first element is the release itself, or the split point lies in the rest
    cases l₁ with
    | nil =>
      obtain ⟨rfl, rfl⟩ := List.cons.inj hsplit
      cases hstep with
      | skip hmain _ hup =>
        refine ⟨fun heq => hmain ⟨hrel, hk.trans heq.symm⟩, hup k hrel hk, by simp⟩
      | collect _ _ hpress _ =>
        rw [isPress_of_isRelease hrel] at hpress
        exact absurd hpress (by simp)
      | _ => exact absurd h (by simp)
    | cons e' l₁ =>
      obtain ⟨rfl, hrest⟩ := List.cons.inj hsplit
      cases hstep with
      | skip _ hpress _ =>
        obtain ⟨hmain, hup, hbefore⟩ := ih h hrest
        refine ⟨hmain, hup, List.forall_mem_cons.mpr ⟨fun hp hcode => ?_, hbefore⟩⟩
        have hnone := (hpress hp).1
        rw [hcode, asKey_codeOf] at hnone
        exact absurd hnone (by simp)
      | collect j _ _ hj =>
        obtain ⟨hmain, hup, hbefore⟩ := ih h hrest
        have hne : k ≠ j := by
          rintro rfl
          rw [Function.update_self] at hup
          exact absurd hup (by simp)
        rw [Function.update_of_ne hne] at hup
        refine ⟨hmain, hup, List.forall_mem_cons.mpr ⟨fun _ hcode => ?_, hbefore⟩⟩
        exact hne (codeOf_injective (hcode.symm.trans hj))
      | _ => exact absurd h (by simp)

/-- Outside `TIMEOUT_ONLY` an undecided answer comes from the scan. -/
theorem checkWaveform_noneYet {t t' : LastTap} {now : Timeval} {ev : InputEvent}
    {dual : DualConfig} {queued : List InputEvent} (hmode : dual.mode ≠ .timeoutOnly)
    (h : checkWaveform t now ev dual queued = (.noneYet, t')) :
    scanWaveform dual.mode ev (fun _ => false) t queued = (.noneYet, t') := by
  unfold checkWaveform at h
  split at h
  · split at h <;> exact absurd h (by simp)
  · exact h

/-- The mode in which the timeout alone decides is excluded. -/
def RolloverMode (dual : DualConfig) : Prop := dual.mode ≠ .timeoutOnly

/-- **An undecided head.** Outside `TIMEOUT_ONLY`, if the oldest event is left waiting, then
    a release in the queue belongs to no press in the queue before it, the oldest event
    included. -/
theorem Handled.no_press_before {s s' : KeyState} {now : Timeval} {ev : InputEvent}
    {queued : List InputEvent} {l : List Effect} (h : Handled s now ev queued false s' l)
    (hs : Ready RolloverMode s) {l₁ l₂ : List InputEvent} {rel : InputEvent}
    (hsplit : queued = l₁ ++ rel :: l₂) (hrel : rel.isRelease = true) {k : KeyCode}
    (hk : rel.code = codeOf k) : ∀ e ∈ ev :: l₁, e.isPress = true → e.code ≠ codeOf k := by
  cases h with
  | waiting hpress hcode hget hcheck =>
    have hmode := (hs.lookup_usable hget).2.1
    obtain ⟨hmain, _, hbefore⟩ :=
      scanWaveform_noneYet (checkWaveform_noneYet hmode hcheck) hsplit hrel hk
    intro e he hpress'
    rcases List.mem_cons.mp he with rfl | he
    · exact hmain
    · exact hbefore e he hpress'

end Sdiol
