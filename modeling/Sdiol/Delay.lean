import Sdiol.Rollover
import Sdiol.Timeout
import Sdiol.NoAbort

namespace Sdiol

/-!
# A tap that is looked at late

`check_waveform` asks the clock first and reads the queue only if the press is not older than
`hold_ms`.  The timestamps of a press and its release say whether the key was tapped; the
clock says when the program got to look at them.  `short_tap_taken` says which clock readings
take a short tap for a tap, whatever else the queue and the state hold.
-/

open Race

/-- `X`, the press of a dual key, is the oldest event, and its release `R` is queued no more
    than `hold_ms` after it, with no press in between. -/
structure ShortTap (r : Resolver) (X R : InputEvent) (tap hold : KeyAction)
    (dual : DualConfig) : Prop where
  ready : Ready (fun _ => True) r.toKeyState
  press : X.isPress = true
  bound : ∃ k, X.code = codeOf k ∧ keyActionGet r.currentKeymap k = .ok (.ktDual tap hold dual)
  mode : dual.mode ≠ .timeoutOnly
  release : R.isRelease = true ∧ R.code = X.code
  short : msecDiff R.time X.time ≤ dual.holdMs
  queued : ∃ l₁ l₂, r.queue = X :: (l₁ ++ R :: l₂) ∧ ∀ e ∈ l₁, e.isPress = false

/-- With the clock at `now`, `resolve` decides the press `X` as `w` and performs `ka` for
    it. -/
def Takes (now : Timeval) (r : Resolver) (X : InputEvent) (w : Waveform) (ka : KeyAction) :
    Prop :=
  ∃ r' dual last l, resolve now r
    = .ok (true, r', .checked X dual now last w :: .keypress X ka :: l)

/-! ### What the queue says -/

/-- Without a press in front of it, the release completes first. -/
theorem precedes_release {mode : DualMode} {X R : InputEvent} {l₁ l₂ : List InputEvent}
    (hR : R.isRelease = true ∧ R.code = X.code) (hl₁ : ∀ e ∈ l₁, e.isPress = false) :
    Precedes (MainRelease X) (HoldSign mode X) (l₁ ++ R :: l₂) := by
  refine ⟨l₁, R, l₂, rfl, hR, ?_⟩
  rintro m₁ e m₂ rfl hsign
  cases mode with
  | tapOnRollover =>
    obtain ⟨_, _, _, p, hp, hpress, _⟩ := hsign
    have hfalse := hl₁ p (List.mem_append_left _ hp)
    rw [hpress] at hfalse
    exact absurd hfalse (by simp)
  | holdOnRollover =>
    have hfalse := hl₁ e (by simp)
    rw [show e.isPress = true from hsign] at hfalse
    exact absurd hfalse (by simp)
  | timeoutOnly => exact hsign

/-- Once the press is older than `hold_ms`, the queue is not read. -/
theorem checkWaveform_timedOut {now : Timeval} {X : InputEvent} {dual : DualConfig}
    (hlate : TimedOut dual now X) (t : LastTap) (queued : List InputEvent) :
    (DoubleTap dual t X → checkWaveform t now X dual queued = (.tap, invalidateLastTap t)) ∧
    (¬ DoubleTap dual t X → checkWaveform t now X dual queued = (.hold, invalidateLastTap t)) := by
  unfold TimedOut at hlate
  refine ⟨fun hdouble => ?_, fun hdouble => ?_⟩
  · rw [checkWaveform, if_pos hlate]
    exact if_pos hdouble
  · rw [checkWaveform, if_pos hlate]
    exact if_neg hdouble

/-- `maybe_invalidate_last_tap` forgets no tap of the key itself. -/
theorem doubleTap_maybeInvalidate {dual : DualConfig} {t : LastTap} {X : InputEvent} :
    DoubleTap dual (maybeInvalidateLastTap t X.code) X ↔ DoubleTap dual t X := by
  unfold maybeInvalidateLastTap
  split
  · rename_i hne
    constructor
    · rintro ⟨_, hcode, _⟩
      have hneg : (-1 : Int) = (X.code.toNat : Int) := hcode
      omega
    · rintro ⟨_, hcode, _⟩
      exact absurd hcode.symm hne
  · exact Iff.rfl

/-! ### What `resolve` does -/

/-- A call that resolves the oldest event `X`, on the ring. -/
theorem resolve_resolved {now : Timeval} {r : Resolver} {X : InputEvent} {rest : List InputEvent}
    {s : KeyState} {l : List Effect} (hqueue : r.queue = X :: rest)
    (h : resolveEvent { r.toKeyState with useResolvableTime := false } now X rest
      = .ok (true, s, l)) :
    ∃ r', resolve now r = .ok (true, r', l) := by
  have hlen : r.urLen ≠ 0 := by
    rw [← Resolver.length_queue, hqueue]
    simp
  rw [Resolver.queue_cons hlen] at hqueue
  obtain ⟨rfl, rfl⟩ := List.cons.inj hqueue
  unfold resolve
  rw [if_neg hlen]
  simp only [h, bind, Except.bind, if_true]
  exact ⟨_, rfl⟩

/-- **Step.** The press of a dual key that `check_waveform` decides is performed at once, as
    decided. -/
theorem takes_of_check {now : Timeval} {r : Resolver} {X : InputEvent} {rest : List InputEvent}
    {k : KeyCode} {tap hold : KeyAction} {dual : DualConfig} {w : Waveform} {t : LastTap}
    (hready : Ready (fun _ => True) r.toKeyState) (hqueue : r.queue = X :: rest)
    (hpress : X.isPress = true) (hcode : X.code = codeOf k)
    (hget : keyActionGet r.currentKeymap k = .ok (.ktDual tap hold dual))
    (hcheck : checkWaveform (maybeInvalidateLastTap r.lastTap X.code) now X dual rest = (w, t)) :
    (w = .tap → Takes now r X .tap tap) ∧ (w = .hold → Takes now r X .hold hold) := by
  obtain ⟨htype, hvalue⟩ := InputEvent.isPress_iff.mp hpress
  have husable := hready.lookup_usable hget
  have hlow : ¬ X.code.toNat > keyMax := by
    rw [hcode, codeOf_toNat]
    exact not_lt.mpr k.isLt.le
  have hevent : resolveEvent { r.toKeyState with useResolvableTime := false } now X rest
      = resolvePress { r.toKeyState with useResolvableTime := false } now X rest := by
    unfold resolveEvent
    rw [if_pos htype, if_neg hlow, if_neg (by rw [hvalue]; decide), if_pos hvalue]
  -- the action that goes with the answer is performed in the state after the check
  have hact : ∀ (w : Waveform) (ka : KeyAction), ka.Usable (fun _ => True) → ka.isDual = false →
      (∀ s' l, doKeypress { r.toKeyState with useResolvableTime := false, lastTap := t } X ka
          = .ok (s', l) →
        resolvePress { r.toKeyState with useResolvableTime := false } now X rest = .ok (true, s',
          .checked X dual now (maybeInvalidateLastTap r.lastTap X.code) w :: l)) →
      Takes now r X w ka := by
    intro w ka huse hdual hperform
    obtain ⟨s', l, hdo⟩ := doKeypress_total
      (s := { r.toKeyState with useResolvableTime := false, lastTap := t }) hcode huse hdual
    have hpressed := hperform s' l hdo
    rw [← hevent, (doKeypress_acted hcode hdo).log_eq] at hpressed
    obtain ⟨r', hres⟩ := resolve_resolved hqueue hpressed
    exact ⟨r', dual, _, _, hres⟩
  constructor
  · rintro rfl
    refine hact .tap tap husable.tap.1 husable.tap.2 fun s' l hdo => ?_
    unfold resolvePress
    rw [hcode, keyIndex_codeOf]
    rw [hcode] at hcheck
    simp only [bind, Except.bind, hget, hcheck, hdo]
  · rintro rfl
    refine hact .hold hold husable.hold.1 husable.hold.2 fun s' l hdo => ?_
    unfold resolvePress
    rw [hcode, keyIndex_codeOf]
    rw [hcode] at hcheck
    simp only [bind, Except.bind, hget, hcheck, hdo]

/-- A press is decided one way for each reading of the clock. -/
theorem Takes.unique {now : Timeval} {r : Resolver} {X : InputEvent} {w w' : Waveform}
    {ka ka' : KeyAction} (h : Takes now r X w ka) (h' : Takes now r X w' ka') : w = w' := by
  obtain ⟨_, _, _, _, hres⟩ := h
  obtain ⟨_, _, _, _, hres'⟩ := h'
  rw [hres] at hres'
  cases hres'
  rfl

/-- **Each reading.** A short tap is taken for a tap when it is looked at in time or is a
    double tap, and for a hold otherwise. -/
theorem ShortTap.takes {r : Resolver} {X R : InputEvent} {tap hold : KeyAction}
    {dual : DualConfig} (h : ShortTap r X R tap hold dual) (now : Timeval) :
    (¬ TimedOut dual now X ∨ DoubleTap dual r.lastTap X → Takes now r X .tap tap) ∧
    (TimedOut dual now X ∧ ¬ DoubleTap dual r.lastTap X → Takes now r X .hold hold) := by
  obtain ⟨k, hcode, hget⟩ := h.bound
  obtain ⟨l₁, l₂, hqueue, hl₁⟩ := h.queued
  obtain ⟨w, hw⟩ : ∃ w, checkWaveform (maybeInvalidateLastTap r.lastTap X.code) now X dual
      (l₁ ++ R :: l₂) = w := ⟨_, rfl⟩
  obtain ⟨htap, hhold⟩ := takes_of_check h.ready hqueue h.press hcode hget hw
  by_cases hlate : TimedOut dual now X
  · obtain ⟨hdouble, hsingle⟩ := checkWaveform_timedOut hlate
      (maybeInvalidateLastTap r.lastTap X.code) (l₁ ++ R :: l₂)
    rw [doubleTap_maybeInvalidate, hw] at hdouble hsingle
    refine ⟨fun hcond => ?_, fun hcond => hhold (congrArg Prod.fst (hsingle hcond.2))⟩
    rcases hcond with hintime | hd
    · exact absurd hlate hintime
    · exact htap (congrArg Prod.fst (hdouble hd))
  · refine ⟨fun _ => htap ?_, fun hcond => absurd hcond.1 hlate⟩
    rw [checkWaveform_of_not_timedOut h.mode (not_lt.mp hlate)] at hw
    have hfirst : AnswerOf (MainRelease X) (HoldSign dual.mode X) (l₁ ++ R :: l₂) .tap :=
      precedes_release h.release hl₁
    have hanswer := scanWaveform_answers h.mode X (maybeInvalidateLastTap r.lastTap X.code)
      (l₁ ++ R :: l₂)
    rw [hw] at hanswer
    exact hanswer.unique (fun _ _ => MainRelease.not_holdSign) hfirst

/-! ### Two readings -/

/-- **Short taps.** A short tap is taken for a tap under both of two readings exactly when
    under each of them the press is no older than `hold_ms` or is a double tap.  The
    timestamps of the queued events do not matter. -/
theorem short_tap_taken {r : Resolver} {X R : InputEvent} {tap hold : KeyAction}
    {dual : DualConfig} (h : ShortTap r X R tap hold dual) (now₁ now₂ : Timeval) :
    Takes now₁ r X .tap tap ∧ Takes now₂ r X .tap tap ↔
      (¬ TimedOut dual now₁ X ∨ DoubleTap dual r.lastTap X) ∧
        (¬ TimedOut dual now₂ X ∨ DoubleTap dual r.lastTap X) := by
  have hiff : ∀ now, Takes now r X .tap tap ↔
      ¬ TimedOut dual now X ∨ DoubleTap dual r.lastTap X := by
    intro now
    refine ⟨fun htakes => ?_, (h.takes now).1⟩
    by_contra hlate
    rw [not_or, not_not] at hlate
    exact absurd (htakes.unique ((h.takes now).2 hlate)) (by simp)
  rw [hiff now₁, hiff now₂]

/-- A key tapped for 50 ms: its press is looked at at once and left waiting, then its release
    is queued. -/
theorem exists_shortTap : ∃ r, Visited (shiftOn45 .tapOnRollover).root CodeInRange r ∧
    ShortTap r (keyAt 0 45 1).ev (keyAt 50 45 0).ev (.ktSimple 45) (.ktSimple 42)
      ⟨.tapOnRollover, 200, 300⟩ ∧
    r.queue = [(keyAt 0 45 1).ev, (keyAt 50 45 0).ev] ∧ r.lastTap.code = -1 := by
  have hX : CodeInRange (keyAt 0 45 1).ev := fun _ => by decide
  have hR : CodeInRange (keyAt 50 45 0).ev := fun _ => by decide
  have hpress := (Visited.filtered (.init : Visited (shiftOn45 .tapOnRollover).root _ _)
    hX rfl).queued hX (by decide)
  have hwait := hpress.resolved (show resolve (keyAt 0 45 1).ev.time _ = _ from rfl)
  have hqueued := (hwait.filtered hR rfl).queued hR (by decide)
  have hready := (hqueued.runReady rfl (Keymap.root_usable_true _)).1
  refine ⟨_, hqueued, ⟨hready, rfl, ⟨45, rfl, rfl⟩, by decide, ⟨rfl, rfl⟩, by decide,
    [], [], rfl, by simp⟩, rfl, rfl⟩

/-- Looked at after 60 ms and after 150 ms, that tap is a tap. -/
theorem short_tap_taken_in_time : ∃ r,
    ShortTap r (keyAt 0 45 1).ev (keyAt 50 45 0).ev (.ktSimple 45) (.ktSimple 42)
      ⟨.tapOnRollover, 200, 300⟩ ∧
    Takes (msecAfter Timeval.zero 60) r (keyAt 0 45 1).ev .tap (.ktSimple 45) ∧
    Takes (msecAfter Timeval.zero 150) r (keyAt 0 45 1).ev .tap (.ktSimple 45) := by
  obtain ⟨r, _, h, _⟩ := exists_shortTap
  have htimes : ∀ ms : Int, ms = 60 ∨ ms = 150 →
      ¬ TimedOut ⟨.tapOnRollover, 200, 300⟩ (msecAfter Timeval.zero ms) (keyAt 0 45 1).ev := by
    rintro ms (rfl | rfl) <;> (unfold TimedOut; decide)
  exact ⟨r, h, (short_tap_taken h _ _).mpr
    ⟨.inl (htimes 60 (.inl rfl)), .inl (htimes 150 (.inr rfl))⟩⟩

/-- Looked at after 500 ms, that tap is a hold. -/
theorem short_tap_held_late : ∃ r, Visited (shiftOn45 .tapOnRollover).root CodeInRange r ∧
    ShortTap r (keyAt 0 45 1).ev (keyAt 50 45 0).ev (.ktSimple 45) (.ktSimple 42)
      ⟨.tapOnRollover, 200, 300⟩ ∧
    (∀ e ∈ r.queue, 0 < msecDiff (msecAfter Timeval.zero 60) e.time ∧
      0 < msecDiff (msecAfter Timeval.zero 500) e.time) ∧
    Takes (msecAfter Timeval.zero 60) r (keyAt 0 45 1).ev .tap (.ktSimple 45) ∧
    ¬ Takes (msecAfter Timeval.zero 500) r (keyAt 0 45 1).ev .tap (.ktSimple 45) ∧
    Takes (msecAfter Timeval.zero 500) r (keyAt 0 45 1).ev .hold (.ktSimple 42) := by
  obtain ⟨r, hvisited, h, hqueue, hlast⟩ := exists_shortTap
  have hintime : ¬ TimedOut ⟨.tapOnRollover, 200, 300⟩ (msecAfter Timeval.zero 60)
      (keyAt 0 45 1).ev := by
    unfold TimedOut
    decide
  have hlate : TimedOut ⟨.tapOnRollover, 200, 300⟩ (msecAfter Timeval.zero 500)
      (keyAt 0 45 1).ev := by
    unfold TimedOut
    decide
  have hsingle : ¬ DoubleTap ⟨.tapOnRollover, 200, 300⟩ r.lastTap (keyAt 0 45 1).ev := by
    rintro ⟨_, hcode, _⟩
    rw [hlast] at hcode
    exact absurd hcode (by decide)
  have hheld := (h.takes (msecAfter Timeval.zero 500)).2 ⟨hlate, hsingle⟩
  refine ⟨r, hvisited, h, ?_, (h.takes _).1 (.inl hintime), fun htap => ?_, hheld⟩
  · rw [hqueue]
    decide
  · exact absurd (htap.unique hheld) (by simp)

end Sdiol
