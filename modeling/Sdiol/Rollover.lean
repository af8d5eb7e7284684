import Sdiol.Waveform
import Sdiol.Lib.Race

namespace Sdiol

open Race

/-!
# Tap or hold before the timeout

While a dual key is younger than `hold_ms`, `check_waveform` decides by the events queued
behind its press, in one pass that collects the keys pressed on the way.  What it decides is
which of two patterns completes first: the release of the key itself (`MainRelease`, a tap) or
what the key's mode takes for a hold (`HoldSign`).
-/

/-- The release of the key pressed by `ev`. -/
def MainRelease (ev : InputEvent) (_ : List InputEvent) (e : InputEvent) : Prop :=
  e.isRelease = true ∧ e.code = ev.code

/-- What makes the key pressed by `ev` a hold before its timeout: in `TAP_ON_ROLLOVER` the
    release of another key that was pressed after it, in `HOLD_ON_ROLLOVER` any press. -/
def HoldSign : DualMode → InputEvent → List InputEvent → InputEvent → Prop
  | .tapOnRollover, ev, before, e =>
      e.isRelease = true ∧ e.code ≠ ev.code ∧ e.code.toNat < keyMax ∧
        ∃ p ∈ before, p.isPress = true ∧ p.code = e.code
  | .holdOnRollover, _, _, e => e.isPress = true
  | .timeoutOnly, _, _, _ => False

/-- The answer that goes with the pattern that completes first. -/
def AnswerOf (P Q : List InputEvent → InputEvent → Prop) (queued : List InputEvent) :
    Waveform → Prop
  | .tap => Precedes P Q queued
  | .hold => Precedes Q P queued
  | .noneYet => Never P queued ∧ Never Q queued

theorem MainRelease.not_holdSign {mode : DualMode} {ev e : InputEvent}
    {before : List InputEvent} (h : MainRelease ev before e) : ¬ HoldSign mode ev before e := by
  cases mode with
  | tapOnRollover => exact fun hhold => hhold.2.1 h.2
  | holdOnRollover =>
    intro hpress
    have hvalue := (InputEvent.isRelease_iff.mp h.1).2
    rw [(InputEvent.isPress_iff.mp hpress).2] at hvalue
    exact absurd hvalue (by decide)
  | timeoutOnly => exact id

section AnswerOf

variable {P Q : List InputEvent → InputEvent → Prop} {e : InputEvent} {rest : List InputEvent}
  {w : Waveform}

/-- An event that completes neither pattern leaves the answer to the rest. -/
theorem AnswerOf.cons (hP : ¬ P [] e) (hQ : ¬ Q [] e)
    (h : AnswerOf (fun before => P (e :: before)) (fun before => Q (e :: before)) rest w) :
    AnswerOf P Q (e :: rest) w := by
  cases w with
  | tap => exact precedes_cons.mpr (.inr ⟨hQ, h⟩)
  | hold => exact precedes_cons.mpr (.inr ⟨hP, h⟩)
  | noneYet => exact ⟨never_cons.mpr ⟨hP, h.1⟩, never_cons.mpr ⟨hQ, h.2⟩⟩

/-- Patterns that exclude each other have one answer. -/
theorem AnswerOf.unique (hdisj : ∀ before x, P before x → ¬ Q before x) {w' : Waveform}
    (h : AnswerOf P Q rest w) (h' : AnswerOf P Q rest w') : w = w' := by
  cases w <;> cases w' <;> try rfl
  case tap.hold => exact absurd h' (Precedes.asymm hdisj h)
  case hold.tap => exact absurd h (Precedes.asymm hdisj h')
  case tap.noneYet => exact absurd h'.1 (Precedes.not_never h)
  case noneYet.tap => exact absurd h.1 (Precedes.not_never h')
  case hold.noneYet => exact absurd h'.2 (Precedes.not_never h)
  case noneYet.hold => exact absurd h.2 (Precedes.not_never h')

end AnswerOf

/-! ### The scan -/

/-- **Scan, `HOLD_ON_ROLLOVER`.** Any press ends the loop, so `keys_pressed` stays empty. -/
theorem scanWaveform_holdOnRollover {ev : InputEvent} {t : LastTap} {queued : List InputEvent} :
    AnswerOf (MainRelease ev) (HoldSign .holdOnRollover ev) queued
      (scanWaveform .holdOnRollover ev (fun _ => false) t queued).1 := by
  induction queued with
  | nil => exact ⟨never_nil, never_nil⟩
  | cons e rest ih =>
    obtain ⟨f, hstep, hf⟩ := scanWaveform_step .holdOnRollover ev (fun _ => false) e
    rw [hf]
    cases hstep with
    | skip hmain hpress _ => exact AnswerOf.cons hmain (fun hp => (hpress hp).2 rfl) ih
    | main hrel hcode => exact precedes_cons.mpr (.inl ⟨hrel, hcode⟩)
    | rollover _ hpress => exact precedes_cons.mpr (.inl hpress)
    | collect _ hmode _ _ => exact absurd rfl hmode
    | released _ _ _ _ hdown => exact absurd hdown (by simp)

/-- What `keys_pressed` holds when the events `seen` have been read. -/
def Collected (seen : List InputEvent) (keysPressed : KeyCode → Bool) : Prop :=
  ∀ k, keysPressed k = true ↔ ∃ p ∈ seen, p.isPress = true ∧ p.code = codeOf k

section Collected

variable {seen : List InputEvent} {keysPressed : KeyCode → Bool} {e : InputEvent}

theorem collected_nil : Collected [] (fun _ => false) := by
  intro k
  simp

theorem Collected.append (h : Collected seen keysPressed) {keysPressed' : KeyCode → Bool}
    (he : ∀ k, keysPressed' k = true ↔
      keysPressed k = true ∨ e.isPress = true ∧ e.code = codeOf k) :
    Collected (seen ++ [e]) keysPressed' := by
  intro k
  rw [he k, h k]
  constructor
  · rintro (⟨p, hp, hpress⟩ | hpress)
    · exact ⟨p, List.mem_append_left _ hp, hpress⟩
    · exact ⟨e, by simp, hpress⟩
  · rintro ⟨p, hp, hpress⟩
    rcases List.mem_append.mp hp with hp | hp
    · exact .inl ⟨p, hp, hpress⟩
    · rw [List.mem_singleton] at hp
      subst hp
      exact .inr hpress

/-- An event that presses no key is not collected. -/
theorem Collected.skip (h : Collected seen keysPressed)
    (he : ∀ k, e.isPress = true → e.code ≠ codeOf k) : Collected (seen ++ [e]) keysPressed := by
  refine h.append fun k => ⟨.inl, ?_⟩
  rintro (hk | ⟨hpress, hcode⟩)
  · exact hk
  · exact absurd hcode (he k hpress)

/-- A press is collected. -/
theorem Collected.press (h : Collected seen keysPressed) (he : e.isPress = true)
    {k : KeyCode} (hk : e.code = codeOf k) :
    Collected (seen ++ [e]) (Function.update keysPressed k true) := by
  refine h.append fun j => ?_
  rw [hk, codeOf_inj]
  by_cases hj : j = k
  · subst hj
    simp [he]
  · simp [Function.update_of_ne hj, Ne.symm hj]

end Collected

/-- **Scan, `TAP_ON_ROLLOVER`.** The loop answers by the pattern that completes first behind
    the events it has read. -/
theorem scanWaveform_tapOnRollover {ev : InputEvent} {keysPressed : KeyCode → Bool}
    {t : LastTap} {seen queued : List InputEvent} (h : Collected seen keysPressed) :
    AnswerOf (fun before => MainRelease ev (seen ++ before))
      (fun before => HoldSign .tapOnRollover ev (seen ++ before)) queued
      (scanWaveform .tapOnRollover ev keysPressed t queued).1 := by
  induction queued generalizing keysPressed t seen with
  | nil => exact ⟨never_nil, never_nil⟩
  | cons e rest ih =>
    -- if `e` completes nothing, the rest is read with `e` among the events seen
    have hnext : ∀ {keysPressed' : KeyCode → Bool} {t' : LastTap},
        Collected (seen ++ [e]) keysPressed' → ¬ MainRelease ev (seen ++ []) e →
        ¬ HoldSign .tapOnRollover ev (seen ++ []) e →
        AnswerOf (fun before => MainRelease ev (seen ++ before))
          (fun before => HoldSign .tapOnRollover ev (seen ++ before)) (e :: rest)
          (scanWaveform .tapOnRollover ev keysPressed' t' rest).1 := by
      intro keysPressed' t' hc hmain hhold
      have hrest := ih (t := t') hc
      simp only [List.append_assoc, List.singleton_append] at hrest
      exact hrest.cons hmain hhold
    obtain ⟨f, hstep, hf⟩ := scanWaveform_step .tapOnRollover ev keysPressed e
    rw [hf]
    cases hstep with
    | skip hmain hpress hup =>
      have hcollected : Collected (seen ++ [e]) keysPressed := by
        refine h.skip fun k hp hcode => ?_
        have hnone := (hpress hp).1
        rw [hcode, asKey_codeOf] at hnone
        exact absurd hnone (by simp)
      refine hnext hcollected hmain ?_
      -- the press of a key that is released would have been collected
      rintro ⟨hrel, -, hlt, p, hp, hpp, hpe⟩
      obtain ⟨k, hk⟩ := exists_codeOf hlt
      have hdown := (h k).mpr ⟨p, by simpa using hp, hpp, hpe.trans hk⟩
      rw [hup k hrel hk] at hdown
      exact absurd hdown (by simp)
    | main hrel hcode => exact precedes_cons.mpr (.inl ⟨hrel, hcode⟩)
    | rollover hmode _ => exact absurd hmode (by simp)
    | collect k _ hpress hk =>
      refine hnext (h.press hpress hk) (fun hm => ?_) fun hhold => ?_
      · rw [isPress_of_isRelease hm.1] at hpress
        exact absurd hpress (by simp)
      · rw [isPress_of_isRelease hhold.1] at hpress
        exact absurd hpress (by simp)
    | released k hrel hcode hk hdown =>
      -- another key was pressed and released
      obtain ⟨p, hp, hpp, hpk⟩ := (h k).mp hdown
      have hlt : e.code.toNat < keyMax := by
        rw [hk, codeOf_toNat]
        exact k.isLt
      have hseen : p ∈ seen ++ [] := by simpa using hp
      exact precedes_cons.mpr (.inl ⟨hrel, hcode, hlt, p, hseen, hpp, hpk.trans hk.symm⟩)

/-- **Scan.** Outside `TIMEOUT_ONLY` the loop answers by the pattern that completes first. -/
theorem scanWaveform_answers {mode : DualMode} (hmode : mode ≠ .timeoutOnly) (ev : InputEvent)
    (t : LastTap) (queued : List InputEvent) :
    AnswerOf (MainRelease ev) (HoldSign mode ev) queued
      (scanWaveform mode ev (fun _ => false) t queued).1 := by
  cases mode with
  | tapOnRollover => exact scanWaveform_tapOnRollover collected_nil
  | holdOnRollover => exact scanWaveform_holdOnRollover
  | timeoutOnly => exact absurd rfl hmode

/-- The loop reads the key events only. -/
theorem scanWaveform_filter {mode : DualMode} {ev : InputEvent} {keysPressed : KeyCode → Bool}
    {t : LastTap} {queued : List InputEvent} :
    scanWaveform mode ev keysPressed t (queued.filter fun e => e.type == evKey) =
      scanWaveform mode ev keysPressed t queued := by
  induction queued generalizing keysPressed t with
  | nil => rfl
  | cons e rest ih =>
    by_cases htype : e.type = evKey
    · rw [List.filter_cons_of_pos (by simp [htype]), scanWaveform, scanWaveform]
      simp only [ih]
    · rw [List.filter_cons_of_neg (by simp [htype]), ih, scanWaveform, if_pos htype]

/-- Once the loop has an answer, it does not read on. -/
theorem scanWaveform_append {mode : DualMode} {ev : InputEvent} {keysPressed : KeyCode → Bool}
    {t : LastTap} {queued more : List InputEvent}
    (h : (scanWaveform mode ev keysPressed t queued).1 ≠ .noneYet) :
    scanWaveform mode ev keysPressed t (queued ++ more) =
      scanWaveform mode ev keysPressed t queued := by
  induction queued generalizing keysPressed t with
  | nil => exact absurd rfl h
  | cons e rest ih =>
    obtain ⟨f, hstep, hf⟩ := scanWaveform_step mode ev keysPressed e
    rw [hf] at h
    rw [List.cons_append, hf, hf]
    cases hstep with
    | skip _ _ _ => exact ih h
    | collect _ _ _ _ => exact ih h
    | main _ _ => rfl
    | rollover _ _ => rfl
    | released _ _ _ _ _ => rfl

/-! ### The decision -/

theorem checkWaveform_of_not_timedOut {t : LastTap} {now : Timeval} {ev : InputEvent}
    {dual : DualConfig} {queued : List InputEvent} (hmode : dual.mode ≠ .timeoutOnly)
    (hnow : msecDiff now ev.time ≤ dual.holdMs) :
    checkWaveform t now ev dual queued =
      scanWaveform dual.mode ev (fun _ => false) t queued := by
  rw [checkWaveform, if_neg (not_lt.mpr hnow), if_neg hmode]

/-- **Tap or hold before the timeout.** While the press `ev` of a dual key is not older than
    `hold_ms`, the answer is a tap exactly when its release is queued before a sign of a hold,
    a hold exactly when such a sign is queued before its release, and open exactly when the
    queue holds neither.  Events that are not key events do not matter, and nothing queued
    later changes an answer. -/
theorem checkWaveform_decision {t : LastTap} {now : Timeval} {ev : InputEvent}
    {dual : DualConfig} {queued : List InputEvent} (hmode : dual.mode ≠ .timeoutOnly)
    (hnow : msecDiff now ev.time ≤ dual.holdMs) :
    ((checkWaveform t now ev dual queued).1 = .tap ↔
        Precedes (MainRelease ev) (HoldSign dual.mode ev) queued) ∧
    ((checkWaveform t now ev dual queued).1 = .hold ↔
        Precedes (HoldSign dual.mode ev) (MainRelease ev) queued) ∧
    ((checkWaveform t now ev dual queued).1 = .noneYet ↔
        Never (MainRelease ev) queued ∧ Never (HoldSign dual.mode ev) queued) ∧
    checkWaveform t now ev dual (queued.filter fun e => e.type == evKey) =
      checkWaveform t now ev dual queued ∧
    ∀ more, (checkWaveform t now ev dual queued).1 ≠ .noneYet →
      checkWaveform t now ev dual (queued ++ more) = checkWaveform t now ev dual queued := by
  have hanswer : AnswerOf (MainRelease ev) (HoldSign dual.mode ev) queued
      (checkWaveform t now ev dual queued).1 := by
    rw [checkWaveform_of_not_timedOut hmode hnow]
    exact scanWaveform_answers hmode _ _ _
  -- the queue determines the answer, so that both directions follow
  have hiff : ∀ w, (checkWaveform t now ev dual queued).1 = w ↔
      AnswerOf (MainRelease ev) (HoldSign dual.mode ev) queued w := by
    intro w
    constructor
    · rintro rfl
      exact hanswer
    · exact fun hw => hanswer.unique (fun _ _ => MainRelease.not_holdSign) hw
  refine ⟨hiff .tap, hiff .hold, hiff .noneYet, ?_, fun more h => ?_⟩
  · rw [checkWaveform_of_not_timedOut hmode hnow, checkWaveform_of_not_timedOut hmode hnow]
    exact scanWaveform_filter
  · rw [checkWaveform_of_not_timedOut hmode hnow] at h
    rw [checkWaveform_of_not_timedOut hmode hnow, checkWaveform_of_not_timedOut hmode hnow]
    exact scanWaveform_append h

/-- A rollover 100 ms after the press of a `TAP_ON_ROLLOVER` key: another key is pressed, and
    the key is released before the other one. -/
theorem checkWaveform_decision_tap :
    (checkWaveform ⟨-1, Timeval.zero⟩ (keyAt 100 45 0).ev.time (keyAt 0 45 1).ev
        ⟨.tapOnRollover, 200, 300⟩
        [(keyAt 40 30 1).ev, (keyAt 90 45 0).ev, (keyAt 95 30 0).ev]).1 = .tap :=
  (checkWaveform_decision (by decide) (by decide)).1.mpr
    ⟨[(keyAt 40 30 1).ev], (keyAt 90 45 0).ev, [(keyAt 95 30 0).ev], rfl, by
      constructor <;> decide, by
      refine never_cons.mpr ⟨fun h => ?_, never_nil⟩
      exact absurd h.1 (by decide)⟩

end Sdiol
