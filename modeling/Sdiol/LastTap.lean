import Sdiol.Delay
import Sdiol.Lib.Thinning

namespace Sdiol

/-!
# What the last tap stands for

`last_tap_code` and `last_tap_time` stand for the history of a run: that the press before the
one in hand was of the same key, was taken for a tap because its release was seen in time, and
that nothing was pressed since.

`Scanned` says what the scan of `check_waveform` does to them.  `FollowsTap` is the rule of
double taps in terms of the history, and `Remembered` what the last tap stands for, with one
lemma for each kind of step: effects that neither check nor act on a press
(`remembered_idle`), a check that decides nothing (`remembered_waiting`), the press of a key
that is no dual key (`not_remembered_plain`) and of one that is (`remembered_decided`).
-/

open Race (split_unique)

/-! ### What the scan does to the last tap -/

/-- What becomes of the last tap `t` when the loop of `check_waveform` has read `queued`. -/
inductive Scanned (ev : InputEvent) (t : LastTap) (queued : List InputEvent) :
    Waveform → LastTap → Prop
  /-- the first release of the key -/
  | tap (l₁ l₂ : List InputEvent) (R : InputEvent) (hsplit : queued = l₁ ++ R :: l₂)
      (hR : R.isRelease = true ∧ R.code = ev.code)
      (hfirst : ∀ e ∈ l₁, e.isRelease = true → e.code ≠ ev.code) :
      Scanned ev t queued .tap (trackLastTap R)
  | hold {t' : LastTap} (ht : t'.code = -1) : Scanned ev t queued .hold t'
  /-- no key was pressed -/
  | quiet (h : ∀ e ∈ queued, e.isPress = true → asKey e.code = none) :
      Scanned ev t queued .noneYet t
  /-- some key was pressed -/
  | disturbed {t' : LastTap} (h : ∃ e ∈ queued, e.isPress = true ∧ asKey e.code ≠ none)
      (ht : t'.code = -1) : Scanned ev t queued .noneYet t'

section Scan

variable {ev e : InputEvent} {t t' : LastTap} {rest : List InputEvent} {w : Waveform}

/-- An event that is neither the release of the key nor a press is skipped. -/
theorem Scanned.skip (h : Scanned ev t rest w t')
    (hmain : e.isRelease = true → e.code ≠ ev.code)
    (hpress : e.isPress = true → asKey e.code = none) : Scanned ev t (e :: rest) w t' := by
  cases h with
  | tap l₁ l₂ R hsplit hR hfirst =>
    refine .tap (e :: l₁) l₂ R (by rw [hsplit, List.cons_append]) hR ?_
    exact List.forall_mem_cons.mpr ⟨hmain, hfirst⟩
  | hold ht => exact .hold ht
  | quiet h => exact .quiet (List.forall_mem_cons.mpr ⟨hpress, h⟩)
  | disturbed h ht =>
    obtain ⟨p, hp, hpress'⟩ := h
    exact .disturbed ⟨p, List.mem_cons_of_mem e hp, hpress'⟩ ht

/-- A press is recorded, and the last tap forgotten. -/
theorem Scanned.press (h : Scanned ev (invalidateLastTap t) rest w t') (he : e.isPress = true)
    (hkey : asKey e.code ≠ none) : Scanned ev t (e :: rest) w t' := by
  cases h with
  | tap l₁ l₂ R hsplit hR hfirst =>
    refine .tap (e :: l₁) l₂ R (by rw [hsplit, List.cons_append]) hR ?_
    refine List.forall_mem_cons.mpr ⟨fun hr => ?_, hfirst⟩
    rw [isPress_of_isRelease hr] at he
    exact absurd he (by simp)
  | hold ht => exact .hold ht
  | quiet h => exact .disturbed ⟨e, List.mem_cons_self, he, hkey⟩ rfl
  | disturbed h ht => exact .disturbed ⟨e, List.mem_cons_self, he, hkey⟩ ht

end Scan

/-- **Scan.** The loop of `check_waveform` does to the last tap what `Scanned` says. -/
theorem scanWaveform_scanned {mode : DualMode} {ev : InputEvent} {keysPressed : KeyCode → Bool}
    {t t' : LastTap} {queued : List InputEvent} {w : Waveform}
    (h : scanWaveform mode ev keysPressed t queued = (w, t')) : Scanned ev t queued w t' := by
  induction queued generalizing keysPressed t with
  | nil =>
    cases h
    exact .quiet (by simp)
  | cons e rest ih =>
    obtain ⟨f, hstep, hf⟩ := scanWaveform_step mode ev keysPressed e
    rw [hf] at h
    cases hstep with
    | skip hmain hpress _ =>
      exact (ih h).skip (fun hr hcode => hmain ⟨hr, hcode⟩) fun hp => (hpress hp).1
    | main hrel hcode =>
      cases h
      exact .tap [] rest e rfl ⟨hrel, hcode⟩ (by simp)
    | rollover _ _ =>
      cases h
      exact .hold rfl
    | collect k _ hpress hk => exact (ih h).press hpress (by simp [hk])
    | released _ _ _ _ _ =>
      cases h
      exact .hold rfl

/-! ### The history of a run -/

/-- Press number `i`, in the order of arrival, was checked after `before`: `check_waveform` was
    asked about the press `X` and answered `w`. -/
def CheckedAt (log : List Effect) (i : Nat) (before : List Effect) (X : InputEvent)
    (dual : DualConfig) (now : Timeval) (w : Waveform) : Prop :=
  ∃ t after, log = before ++ .checked X dual now t w :: after ∧ (performed before).length = i

/-- `P` is press number `i` of `arrived` and `R` the next release of its key. -/
def NextRelease (arrived : List InputEvent) (i : Nat) (P R : InputEvent) : Prop :=
  ∃ u v x, arrived = u ++ P :: (v ++ R :: x) ∧ (presses u).length = i ∧ P.isPress = true ∧
    R.isRelease = true ∧ R.code = P.code ∧ ∀ e ∈ v, e.isRelease = true → e.code ≠ P.code

/-- Press number `i`, which is `P`, was decided as a tap before its timeout, when its release
    `R` had arrived. -/
def NaturalTap (log : List Effect) (i : Nat) (P R : InputEvent) : Prop :=
  ∃ before dual now, CheckedAt log i before P dual now .tap ∧ ¬ TimedOut dual now P ∧
    NextRelease (arrivals before) i P R

/-- A check of press number `i` before its timeout, when another key's press had arrived after
    it. -/
def Distracted (log : List Effect) (i : Nat) : Prop :=
  ∃ before X dual now w, CheckedAt log i before X dual now w ∧ ¬ TimedOut dual now X ∧
    ∃ e ∈ (presses (arrivals before)).drop (i + 1), e.code ≠ X.code

/-- The press in hand, `Q`, follows a natural tap of its key: the press before it in the order
    of arrival was of the same key and was decided as a natural tap, `Q` came less than
    `double_tap_ms` after the release of that tap, and no earlier check of `Q` saw the press of
    another key. -/
def FollowsTap (log : List Effect) (Q : InputEvent) (dual : DualConfig) : Prop :=
  0 ≤ dual.doubleTapMs ∧ ∃ i P R, (performed log).length = i + 1 ∧
    (presses (arrivals log))[i]? = some P ∧ P.code = Q.code ∧ NaturalTap log i P R ∧
    (dual.doubleTapMs = 0 ∨ msecDiff Q.time R.time < dual.doubleTapMs) ∧
    ¬ Distracted log (i + 1)

section Checked

variable {log l before : List Effect} {i j : Nat} {X Y : InputEvent} {dual d : DualConfig}
  {now n : Timeval} {w v : Waveform} {t : LastTap}

/-- No answer of `check_waveform` is among the effects. -/
def Unchecked (l : List Effect) : Prop := ∀ X dual now t w, .checked X dual now t w ∉ l

theorem CheckedAt.left (h : CheckedAt log i before X dual now w) :
    CheckedAt (log ++ l) i before X dual now w := by
  obtain ⟨t, after, rfl, hi⟩ := h
  exact ⟨t, after ++ l, by rw [List.append_assoc, List.cons_append], hi⟩

theorem CheckedAt.le (h : CheckedAt log i before X dual now w) : i ≤ (performed log).length := by
  obtain ⟨t, after, rfl, rfl⟩ := h
  rw [performed_append, List.length_append]
  exact Nat.le_add_right _ _

theorem CheckedAt.arrivals_prefix (h : CheckedAt log i before X dual now w) :
    ∃ later, arrivals log = arrivals before ++ later := by
  obtain ⟨t, after, rfl, _⟩ := h
  exact ⟨_, arrivals_append _ _⟩

theorem checkedAt_unchecked (hl : Unchecked l) :
    CheckedAt (log ++ l) i before X dual now w ↔ CheckedAt log i before X dual now w := by
  refine ⟨?_, CheckedAt.left⟩
  rintro ⟨t, after, hsplit, hi⟩
  rcases List.append_eq_append_iff.mp hsplit with ⟨d, _, hd⟩ | ⟨d, hd, hd'⟩
  · exact absurd (hd ▸ List.mem_append_right d List.mem_cons_self) (hl X dual now t w)
  · cases d with
    | nil =>
      rw [List.nil_append] at hd'
      exact absurd (hd' ▸ List.mem_cons_self) (hl X dual now t w)
    | cons x d =>
      obtain ⟨rfl, _⟩ := List.cons.inj hd'
      exact ⟨t, d, hd, hi⟩

/-- What one more answer adds. -/
theorem checkedAt_checked (hl : Unchecked l) :
    CheckedAt (log ++ .checked Y d n t v :: l) i before X dual now w ↔
      CheckedAt log i before X dual now w ∨
        (before = log ∧ X = Y ∧ dual = d ∧ now = n ∧ w = v ∧ (performed log).length = i) := by
  have happ : log ++ .checked Y d n t v :: l = (log ++ [.checked Y d n t v]) ++ l := by
    rw [List.append_assoc, List.singleton_append]
  rw [happ, checkedAt_unchecked hl]
  constructor
  · rintro ⟨t', after, hsplit, hi⟩
    rcases List.eq_nil_or_concat after with rfl | ⟨after, x, rfl⟩
    · obtain ⟨rfl, hx⟩ := List.append_inj' hsplit rfl
      cases hx
      exact .inr ⟨rfl, rfl, rfl, rfl, rfl, hi⟩
    · rw [List.concat_eq_append, ← List.cons_append, ← List.append_assoc] at hsplit
      obtain ⟨hlog, _⟩ := List.append_inj' hsplit rfl
      exact .inl ⟨t', after, hlog, hi⟩
  · rintro (h | ⟨rfl, rfl, rfl, rfl, rfl, hi⟩)
    · exact h.left
    · exact ⟨t, [], rfl, hi⟩

theorem naturalTap_unchecked (hl : Unchecked l) {P R : InputEvent} :
    NaturalTap (log ++ l) i P R ↔ NaturalTap log i P R := by
  unfold NaturalTap
  simp only [checkedAt_unchecked hl]

theorem naturalTap_checked (hl : Unchecked l) {P R : InputEvent} :
    NaturalTap (log ++ .checked Y d n t v :: l) i P R ↔ NaturalTap log i P R ∨
      (P = Y ∧ v = .tap ∧ (performed log).length = i ∧ ¬ TimedOut d n P ∧
        NextRelease (arrivals log) i P R) := by
  unfold NaturalTap
  simp only [checkedAt_checked hl]
  constructor
  · rintro ⟨before, dual, now, h | ⟨rfl, rfl, rfl, rfl, rfl, hi⟩, hyoung, hnext⟩
    · exact .inl ⟨before, dual, now, h, hyoung, hnext⟩
    · exact .inr ⟨rfl, rfl, hi, hyoung, hnext⟩
  · rintro (⟨before, dual, now, h, hyoung, hnext⟩ | ⟨rfl, rfl, hi, hyoung, hnext⟩)
    · exact ⟨before, dual, now, .inl h, hyoung, hnext⟩
    · exact ⟨log, d, n, .inr ⟨rfl, rfl, rfl, rfl, rfl, hi⟩, hyoung, hnext⟩

/-- The release that belongs to a press is determined. -/
theorem NextRelease.unique {arrived : List InputEvent} {P R R' : InputEvent}
    (h : NextRelease arrived i P R) (h' : NextRelease arrived i P R') : R = R' := by
  obtain ⟨u, v, x, hsplit, hi, hP, hR, hcode, hfirst⟩ := h
  obtain ⟨u', v', x', hsplit', hi', _, hR', hcode', hfirst'⟩ := h'
  obtain ⟨_, _, hrest⟩ := split_unique (p := InputEvent.isPress) hP hP (hi.trans hi'.symm)
    (hsplit.symm.trans hsplit')
  let main (e : InputEvent) : Bool := e.isRelease && e.code == P.code
  have hnone : ∀ {v : List InputEvent}, (∀ e ∈ v, e.isRelease = true → e.code ≠ P.code) →
      v.filter main = [] := by
    intro v hv
    refine List.filter_eq_nil_iff.mpr fun e he hmain => ?_
    obtain ⟨hrel, hc⟩ := Bool.and_eq_true_iff.mp hmain
    exact hv e he hrel (beq_iff_eq.mp hc)
  have hmain : ∀ {e : InputEvent}, e.isRelease = true → e.code = P.code → main e = true := by
    intro e hrel hc
    exact Bool.and_eq_true_iff.mpr ⟨hrel, beq_iff_eq.mpr hc⟩
  have hcount : (v.filter main).length = (v'.filter main).length := by
    rw [hnone hfirst, hnone hfirst']
  exact (split_unique (hmain hR hcode) (hmain hR' hcode') hcount hrest).2.1

end Checked

/-! ### What the last tap stands for -/

/-- The last press that was acted on was a natural tap of the code `c`, whose release has the
    time `T`, and no check since was about another key or saw the press of another key. -/
def Remembered (log : List Effect) (c : UInt16) (T : Timeval) : Prop :=
  ∃ i P R, (performed log).length = i + 1 ∧ (presses (arrivals log))[i]? = some P ∧
    P.code = c ∧ NaturalTap log i P R ∧ R.time = T ∧
    ∀ before X dual now w, CheckedAt log (i + 1) before X dual now w →
      X.code = c ∧ ∀ e ∈ (presses (arrivals before)).drop (i + 2), e.code = X.code

section Remembered

variable {log l : List Effect} {c : UInt16} {T : Timeval} {Q : InputEvent} {dual : DualConfig}
  {now : Timeval} {t : LastTap} {w : Waveform}

/-- Effects that neither check nor act on a press do not change what is remembered. -/
theorem remembered_idle (hl : Unchecked l) (hacted : performed l = [])
    (hlen : (performed log).length ≤ (presses (arrivals log)).length) :
    Remembered (log ++ l) c T ↔ Remembered log c T := by
  have hget : ∀ i, (performed log).length = i + 1 →
      (presses (arrivals (log ++ l)))[i]? = (presses (arrivals log))[i]? := by
    intro i hi
    rw [arrivals_append, presses_append, List.getElem?_append_left (by omega)]
  unfold Remembered
  simp only [performed_append, hacted, List.append_nil, naturalTap_unchecked hl,
    checkedAt_unchecked hl]
  constructor
  · rintro ⟨i, P, R, hi, hP, hrest⟩
    exact ⟨i, P, R, hi, (hget i hi).symm.trans hP, hrest⟩
  · rintro ⟨i, P, R, hi, hP, hrest⟩
    exact ⟨i, P, R, hi, (hget i hi).trans hP, hrest⟩

/-- A check that decides nothing keeps what is remembered of its own key, if it sees no press
    of another key. -/
theorem remembered_waiting (hl : Unchecked l) (hacted : performed l = [])
    (harrived : arrivals l = []) :
    Remembered (log ++ .checked Q dual now t .noneYet :: l) c T ↔ Remembered log c T ∧
      Q.code = c ∧
        ∀ e ∈ (presses (arrivals log)).drop ((performed log).length + 1), e.code = Q.code := by
  have hsame : performed (log ++ .checked Q dual now t .noneYet :: l) = performed log := by
    rw [performed_append]
    show performed log ++ performed l = performed log
    rw [hacted, List.append_nil]
  have harr : arrivals (log ++ .checked Q dual now t .noneYet :: l) = arrivals log := by
    rw [arrivals_append]
    show arrivals log ++ arrivals l = arrivals log
    rw [harrived, List.append_nil]
  unfold Remembered
  simp only [hsame, harr, naturalTap_checked hl, checkedAt_checked hl]
  constructor
  · rintro ⟨i, P, R, hi, hP, hc, hnat, hT, hchecks⟩
    obtain ⟨hcode, hbehind⟩ := hchecks log Q dual now .noneYet (.inr ⟨rfl, rfl, rfl, rfl, rfl, hi⟩)
    rw [hi]
    refine ⟨⟨i, P, R, rfl, hP, hc, ?_, hT, ?_⟩, hcode, hbehind⟩
    · exact hnat.resolve_right fun h => absurd h.2.1 (by simp)
    · exact fun before X d n w hX => hchecks before X d n w (.inl hX)
  · rintro ⟨⟨i, P, R, hi, hP, hc, hnat, hT, hchecks⟩, hcode, hbehind⟩
    refine ⟨i, P, R, hi, hP, hc, .inl hnat, hT, ?_⟩
    rintro before X d n w (hX | ⟨rfl, rfl, rfl, rfl, rfl, _⟩)
    · exact hchecks before X d n w hX
    · rw [hi] at hbehind
      exact ⟨hcode, hbehind⟩

/-- What was checked since the last press was acted on is not decided. -/
def Undecideds (log : List Effect) : Prop :=
  ∀ before X dual now w, CheckedAt log (performed log).length before X dual now w →
    w = .noneYet ∧ ¬ TimedOut dual now X

/-- No natural tap was the last press that was acted on. -/
theorem not_naturalTap_of_undecideds (h : Undecideds log) {P R : InputEvent} :
    ¬ NaturalTap log (performed log).length P R := by
  rintro ⟨before, dual, now, hX, _, _⟩
  exact absurd (h before P dual now .tap hX).1 (by simp)

/-- After a press that is no dual key, nothing is remembered. -/
theorem not_remembered_plain (hl : Unchecked l) (hacted : (performed l).length = 1)
    (h : Undecideds log) : ¬ Remembered (log ++ l) c T := by
  rintro ⟨i, P, R, hi, _, _, hnat, _⟩
  rw [performed_append, List.length_append, hacted] at hi
  obtain rfl : (performed log).length = i := by omega
  exact not_naturalTap_of_undecideds h ((naturalTap_unchecked hl).mp hnat)

/-- After the press of a dual key, a natural tap is remembered. -/
theorem remembered_decided (hl : Unchecked l) (hacted : (performed l).length = 1)
    (harrived : arrivals l = []) (h : Undecideds log)
    (hQ : (presses (arrivals log))[(performed log).length]? = some Q) :
    Remembered (log ++ .checked Q dual now t w :: l) c T ↔
      w = .tap ∧ ¬ TimedOut dual now Q ∧ Q.code = c ∧
        ∃ R, NextRelease (arrivals log) (performed log).length Q R ∧ R.time = T := by
  have hlen : (performed (log ++ .checked Q dual now t w :: l)).length
      = (performed log).length + 1 := by
    rw [performed_append, List.length_append]
    show _ + (performed l).length = _
    rw [hacted]
  have harr : arrivals (log ++ .checked Q dual now t w :: l) = arrivals log := by
    rw [arrivals_append]
    show arrivals log ++ arrivals l = arrivals log
    rw [harrived, List.append_nil]
  unfold Remembered
  simp only [hlen, harr, naturalTap_checked hl, checkedAt_checked hl]
  constructor
  · rintro ⟨i, P, R, hi, hP, hc, hnat, hT, _⟩
    obtain rfl : (performed log).length = i := by omega
    rcases hnat with hnat | ⟨rfl, rfl, _, hyoung, hnext⟩
    · exact absurd hnat (not_naturalTap_of_undecideds h)
    · exact ⟨rfl, hyoung, hc, R, hnext, hT⟩
  · rintro ⟨rfl, hyoung, hc, R, hnext, hT⟩
    refine ⟨_, Q, R, rfl, hQ, hc, .inr ⟨rfl, rfl, rfl, hyoung, hnext⟩, hT, ?_⟩
    -- the next press has not been checked yet
    rintro before X d n w (hX | ⟨_, _, _, _, _, hi⟩)
    · exact absurd hX.le (by omega)
    · exact absurd hi (by omega)

end Remembered

end Sdiol
