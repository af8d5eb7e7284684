import Sdiol.Deadline
import Sdiol.Delay

namespace Sdiol

open Race

/-!
# Announced deadlines

A press that `resolve` leaves undecided is announced to be resolvable `hold_ms` milliseconds
later.  `resolvable_time` and `select_timeout` say when that is, but `check_waveform` wants the
press to be *more* than `hold_ms` old, in whole milliseconds; so neither at `resolvable_time`
nor after a sleep of the announced length does the deadline count as passed.

* `resolves_iff` — what a call of `resolve` needs to decide the oldest press;
* `wake_age` — how old the press is after the announced sleep;
* `announced_deadline_iff` — the two together, for every press that is left undecided.
-/

/-- With the clock at `now`, `resolve` decides the oldest event. -/
def Resolves (now : Timeval) (r : Resolver) : Prop := ∃ r' l, resolve now r = .ok (true, r', l)

/-- The call of `resolve` in state `r₀`, with the clock at `now`, leaves the press `X` of the
    dual key `dual` undecided and leads to state `r`. -/
def LeavesPending (now : Timeval) (r₀ r : Resolver) (X : InputEvent) (dual : DualConfig) : Prop :=
  ∃ l last, resolve now r₀ = .ok (false, r, l) ∧ .checked X dual now last .noneYet ∈ l

/-- What decides the press `X` when it is `age` milliseconds old: in the current keymap it is
    no dual key, or older than the `hold_ms` of the one it is there, or what is queued behind
    it decides. -/
def DueAt (s : KeyState) (X : InputEvent) (queued : List InputEvent) (age : Int) : Prop :=
  ∀ k tap hold dual, X.code = codeOf k →
    keyActionGet s.currentKeymap k = .ok (.ktDual tap hold dual) →
    dual.holdMs < age ∨ dual.mode ≠ .timeoutOnly ∧
      ¬ (Never (MainRelease X) queued ∧ Never (HoldSign dual.mode X) queued)

/-! ### What a call needs -/

/-- **Undecided.** `check_waveform` leaves a press open exactly while it is not older than
    `hold_ms` and, outside `TIMEOUT_ONLY`, nothing queued decides it. -/
theorem checkWaveform_noneYet_iff {t : LastTap} {now : Timeval} {X : InputEvent}
    {dual : DualConfig} {queued : List InputEvent} :
    (checkWaveform t now X dual queued).1 = .noneYet ↔
      msecDiff now X.time ≤ dual.holdMs ∧ (dual.mode = .timeoutOnly ∨
        Never (MainRelease X) queued ∧ Never (HoldSign dual.mode X) queued) := by
  by_cases hlate : TimedOut dual now X
  · have hnot : ¬ msecDiff now X.time ≤ dual.holdMs := not_le.mpr hlate
    obtain ⟨hdouble, hsingle⟩ := checkWaveform_timedOut hlate t queued
    refine iff_of_false (fun hnone => ?_) fun h => hnot h.1
    by_cases hd : DoubleTap dual t X
    · rw [hdouble hd] at hnone
      exact absurd hnone (by simp)
    · rw [hsingle hd] at hnone
      exact absurd hnone (by simp)
  · have hintime : msecDiff now X.time ≤ dual.holdMs := not_lt.mp hlate
    by_cases hmode : dual.mode = .timeoutOnly
    · have hopen : (checkWaveform t now X dual queued).1 = .noneYet := by
        rw [checkWaveform, if_neg (not_lt.mpr hintime), if_pos hmode]
      exact iff_of_true hopen ⟨hintime, .inl hmode⟩
    · rw [(checkWaveform_decision hmode hintime).2.2.1]
      simp [hintime, hmode]

/-- **One call.** The oldest press is decided exactly if something settles it at its age. -/
theorem resolves_iff {P : DualConfig → Prop} {r : Resolver} {X : InputEvent}
    {rest : List InputEvent} (hready : RunReady P r.plain) (hqueue : r.queue = X :: rest)
    (hpress : X.isPress = true) (now : Timeval) :
    Resolves now r ↔ DueAt r.toKeyState X rest (msecDiff now X.time) := by
  obtain ⟨b, r', l, hok⟩ := resolve_total now hready
  have hone : Resolves now r ↔ b = true := by
    constructor
    · rintro ⟨_, _, hres⟩
      rw [hok] at hres
      cases hres
      rfl
    · rintro rfl
      exact ⟨r', l, hok⟩
  rw [hone]
  have hplain := resolve_plain_ok hok
  have hhead : ∀ {ev : InputEvent} {queued : List InputEvent}, r.plain.queue = ev :: queued →
      ev = X ∧ queued = rest := fun h => List.cons.inj (h.symm.trans hqueue)
  rcases plainResolve_cases hplain with ⟨hnil, _⟩ | ⟨ev, queued, s', hq, rfl, _, hh⟩ |
    ⟨ev, queued, _, _, _, hq, rfl, _, hh, _⟩
  · exact absurd (hnil.symm.trans hqueue) (by simp)
  · obtain ⟨rfl, rfl⟩ := hhead hq
    refine iff_of_true rfl fun k tap hold dual hcode hget => ?_
    -- a decided press was not left open by `check_waveform`
    obtain ⟨_, _, _, _, _, hchosen, _⟩ := hh.acted hpress hcode
    by_contra hopen
    rw [not_or, not_and_or, not_not, not_not, not_lt] at hopen
    exact hchosen.decided hget (checkWaveform_noneYet_iff.mpr hopen)
  · obtain ⟨rfl, rfl⟩ := hhead hq
    refine iff_of_false (by simp) fun hdue => ?_
    cases hh with
    | waiting _ hcode hget hcheck =>
      have hnone := checkWaveform_noneYet_iff.mp (congrArg Prod.fst hcheck)
      rcases hdue _ _ _ _ hcode hget with hlate | ⟨hmode, hsign⟩
      · exact absurd hlate (not_lt.mpr hnone.1)
      · exact hsign (hnone.2.resolve_left hmode)

/-! ### What a press left undecided leaves behind -/

/-- The state after a press was left undecided. -/
structure Pending (r : Resolver) (X : InputEvent) (rest : List InputEvent)
    (dual : DualConfig) : Prop where
  press : X.isPress = true
  queue : r.queue = X :: rest
  use : r.useResolvableTime = true
  time : r.resolvableTime = msecAfter X.time dual.holdMs

/-- What happens to the newest event is no answer of `check_waveform`. -/
theorem earlyRelease_not_checked {s s' : KeyState} {ev X : InputEvent} {dual : DualConfig}
    {now : Timeval} {t : LastTap} {w : Waveform} {l : List Effect}
    (h : earlyRelease s ev = some (s', l)) : .checked X dual now t w ∉ l := by
  obtain ⟨_, _, _, ⟨_, _, rfl⟩ | ⟨_, _, _, rfl⟩⟩ := earlyRelease_eq_some h <;> simp

/-- Behind a press that `check_waveform` left open, nothing in the rest of the queue decides. -/
theorem never_dropLast {Q : List InputEvent → InputEvent → Prop} {queued : List InputEvent}
    (h : Never Q queued) : Never Q queued.dropLast := by
  intro l₁ x l₂ hsplit
  rcases List.eq_nil_or_concat queued with rfl | ⟨front, last, rfl⟩
  · exact absurd hsplit (by simp)
  · rw [List.concat_eq_append, List.dropLast_concat] at hsplit
    exact h l₁ x (l₂ ++ [last]) (by simp [hsplit])

/-- Nothing in the queue decides the mode of a dual key but its timeout. -/
def NothingSeen (ev : InputEvent) (dual : DualConfig) (rest : List InputEvent) : Prop :=
  dual.mode = .timeoutOnly ∨ Never (MainRelease ev) rest ∧ Never (HoldSign dual.mode ev) rest

/-- As long as the keymap is the same, the answer of `check_waveform` is, too. -/
theorem NothingSeen.dueAt_iff {s : KeyState} {ev : InputEvent} {rest : List InputEvent}
    {dual : DualConfig} {k : KeyCode} {tap hold : KeyAction} (hrest : NothingSeen ev dual rest)
    (hcode : ev.code = codeOf k)
    (hget : keyActionGet s.currentKeymap k = .ok (.ktDual tap hold dual)) (age : Int) :
    DueAt s ev rest age ↔ dual.holdMs < age := by
  constructor
  · intro hdue
    rcases hdue k tap hold dual hcode hget with hlate | ⟨hmode, hsign⟩
    · exact hlate
    · exact absurd (hrest.resolve_left hmode) hsign
  · intro hlate k' _ _ _ hcode' hget'
    obtain rfl := codeOf_inj.mp (hcode.symm.trans hcode')
    cases hget.symm.trans hget'
    exact .inl hlate

/-- **Pending.** The press is still the oldest event, its deadline is announced, and as long as
    it is looked up in the same keymap, only its age can settle it. -/
theorem LeavesPending.pending {r₀ r : Resolver} {now₀ : Timeval} {X : InputEvent}
    {dual : DualConfig} (h : LeavesPending now₀ r₀ r X dual) :
    ∃ rest, Pending r X rest dual ∧ (r.currentKeymap = r₀.currentKeymap →
      ∀ age, DueAt r.toKeyState X rest age ↔ dual.holdMs < age) := by
  obtain ⟨l, last, hres, hmem⟩ := h
  rcases plainResolve_cases (resolve_plain_ok hres) with ⟨_, _, _, rfl⟩ | ⟨_, _, _, _, hb, _⟩ |
    ⟨ev, queued, newest, s₁, l₁, hq, _, hnewest, hh, hearly⟩
  · exact absurd hmem (by simp)
  · exact absurd hb (by simp)
  · cases hh with
    | @waiting k tap hold dual' t hpress hcode hget hcheck =>
      obtain ⟨hintime, hopen⟩ := checkWaveform_noneYet_iff.mp (congrArg Prod.fst hcheck)
      have hone : ∀ {l₂ : List Effect}, .checked X dual now₀ last .noneYet ∉ l₂ →
          .checked X dual now₀ last .noneYet ∈ [.checked ev dual' now₀
            (maybeInvalidateLastTap r₀.lastTap ev.code) .noneYet] ++ l₂ →
          X = ev ∧ dual = dual' := by
        intro l₂ hnot hin
        rcases List.mem_append.mp hin with hin | hin
        · rw [List.mem_singleton] at hin
          cases hin
          exact ⟨rfl, rfl⟩
        · exact absurd hin hnot
      have hsame : ∀ {s : KeyState} {rest : List InputEvent}, NothingSeen ev dual' rest →
          s.currentKeymap = r₀.currentKeymap → ∀ age, DueAt s ev rest age ↔ dual'.holdMs < age :=
        fun hrest hkeymap age => hrest.dueAt_iff hcode (by rw [hkeymap]; exact hget) age
      rcases hearly with ⟨_, hr, rfl⟩ | ⟨s₂, l₂, hearly, hr, rfl⟩
      · obtain ⟨rfl, rfl⟩ := hone List.not_mem_nil (by rwa [List.append_nil])
        have hqueue : r.queue = X :: queued := (congrArg PlainResolver.queue hr).trans hq
        have hstate := congrArg PlainResolver.toKeyState hr
        simp only [Resolver.plain_toKeyState] at hstate
        exact ⟨queued, ⟨hpress, hqueue, by rw [hstate], by rw [hstate]⟩, hsame hopen⟩
      · obtain ⟨rfl, rfl⟩ := hone (earlyRelease_not_checked hearly) hmem
        -- the newest event was a release, so it is not the press that waits
        have hqueue : r.queue = X :: queued.dropLast := by
          rw [show r.queue = r₀.plain.queue.dropLast from congrArg PlainResolver.queue hr, hq]
          exact dropLast_of_early hearly hnewest hpress
        have hstate : r.toKeyState = s₂ := congrArg PlainResolver.toKeyState hr
        have hdeadline : s₂.useResolvableTime = true ∧
            s₂.resolvableTime = msecAfter X.time dual.holdMs := by
          obtain ⟨_, _, _, ⟨_, rfl, _⟩ | ⟨_, _, rfl, _⟩⟩ := earlyRelease_eq_some hearly
          · exact ⟨rfl, rfl⟩
          · exact ⟨rfl, rfl⟩
        refine ⟨queued.dropLast, ⟨hpress, hqueue, ?_, ?_⟩, hsame ?_⟩
        · rw [hstate]
          exact hdeadline.1
        · rw [hstate]
          exact hdeadline.2
        · exact hopen.imp_right fun hnever => ⟨never_dropLast hnever.1, never_dropLast hnever.2⟩

/-! ### The announced sleep -/

/-- The times a deadline is computed from leave enough room for it. -/
theorem ClockTime.room (t : ClockTime) {millis : Int} (h : millis < 2 ^ 63) :
    t.toTimeval.Room millis := by
  obtain ⟨hsec, husec⟩ := t.bounds
  unfold Timeval.Room Timeval.micros
  omega

theorem ClockTime.normalized (t : ClockTime) : t.toTimeval.Normalized := t.bounds.2

/-- `select_timeout` gives what is left until `resolvable_time` in whole milliseconds, and zero
    if that has passed. -/
theorem selectTimeout_micros {s : KeyState} {pressed : ClockTime} {millis : Int}
    (huse : s.useResolvableTime = true)
    (htime : s.resolvableTime = msecAfter pressed.toTimeval millis)
    (hmillis : 0 ≤ millis ∧ millis < 2 ^ 63) (t : ClockTime) :
    ∃ d, selectTimeout s t.toTimeval = some d ∧
      d.micros = max 0 (msecDiff s.resolvableTime t.toTimeval) * 1000 := by
  -- the difference fits, since `resolvable_time` is `millis` after the press
  have hle : msecDiff s.resolvableTime t.toTimeval < 2 ^ 63 * 1000 := by
    have hroom := pressed.room hmillis.2
    obtain ⟨hafter, hmicros⟩ := msecAfter_micros pressed.normalized hmillis.1 hroom
    obtain ⟨hsec, husec⟩ := t.bounds
    rw [htime, msecDiff_eq hafter husec, hmicros]
    unfold Timeval.Room at hroom
    unfold Timeval.micros at hroom ⊢
    split <;> omega
  unfold selectTimeout
  rw [huse, if_neg (by simp)]
  simp only
  generalize msecDiff s.resolvableTime t.toTimeval = mdiff at hle
  split
  · refine ⟨_, rfl, ?_⟩
    rw [max_eq_left (by omega)]
    rfl
  · refine ⟨_, rfl, ?_⟩
    have hnonneg : 0 ≤ mdiff := by omega
    rw [max_eq_right hnonneg]
    unfold Timeval.micros
    simp only
    rw [Int.tdiv_eq_ediv_of_nonneg hnonneg, Int.tmod_eq_emod_of_nonneg hnonneg,
      Int64.toInt_ofInt_of_le (by omega) (by omega), Int64.toInt_ofInt_of_le (by omega)
      (by omega)]
    omega

/-- **After the sleep.** A press is then as old as it was when the sleep was announced, or as
    `resolvable_time` makes it, whichever is more. -/
theorem wake_age {a t wake P d : Timeval} (ha : a.Normalized) (ht : t.Normalized)
    (hP : P.Normalized) (hwake : wake.Normalized) (hd : d.micros = max 0 (msecDiff a t) * 1000)
    (hsleep : wake.micros = t.micros + d.micros) :
    msecDiff wake P = max (msecDiff a P) (msecDiff t P) := by
  rw [msecDiff_eq ha ht] at hd
  rw [msecDiff_eq hwake hP, msecDiff_eq ha hP, msecDiff_eq ht hP]
  omega

/-- **Announced deadlines.** Let a call of `resolve` in any state that the resolver goes
    through leave the press `X` of a dual key undecided.  From `resolvable_time` on, the next
    call decides it exactly if its age at that time is one at which it is due; after a sleep
    of the length that `select_timeout` gives at time `t`, exactly if its age at `t`, or
    its age at `resolvable_time`, is one at which it is due.  If the keymap is still the
    same, it is due only when it is more than `hold_ms` old, and at `resolvable_time` it is
    not. -/
theorem announced_deadline_iff {km : Keymap} {r₀ r : Resolver} {now₀ : Timeval} {X : InputEvent}
    {dual : DualConfig} {pressed : ClockTime} (hr₀ : Visited km.root CodeInRange r₀)
    (hleft : LeavesPending now₀ r₀ r X dual) (hpressed : X.time = pressed.toTimeval)
    (hhold : 1 ≤ dual.holdMs ∧ dual.holdMs < 2 ^ 63) :
    ∃ rest, r.queue = X :: rest ∧
      (∀ now : ClockTime,
        (r.resolvableTime.micros ≤ now.micros → Resolves now.toTimeval r) ↔
          now.micros < r.resolvableTime.micros ∨
            DueAt r.toKeyState X rest (msecDiff now.toTimeval X.time)) ∧
      (∀ t : ClockTime, ∃ d, selectTimeout r.toKeyState t.toTimeval = some d ∧
        ∀ wake : Timeval, wake.Normalized → wake.micros = t.micros + d.micros →
          (Resolves wake r ↔ DueAt r.toKeyState X rest
            (max (msecDiff r.resolvableTime X.time) (msecDiff t.toTimeval X.time)))) ∧
      (r.currentKeymap = r₀.currentKeymap →
        msecDiff r.resolvableTime X.time ≤ dual.holdMs ∧
          ∀ age, DueAt r.toKeyState X rest age ↔ dual.holdMs < age) := by
  obtain ⟨rest, ⟨hpress, hqueue, huse, htime⟩, hsame⟩ := hleft.pending
  have hready : RunReady (fun _ => True) r.plain := by
    obtain ⟨_, _, hres, _⟩ := hleft
    exact (hr₀.resolved hres).runReady rfl km.root_usable_true
  have hiff := resolves_iff hready hqueue hpress
  have hnorm := pressed.normalized
  have hroom := pressed.room hhold.2
  have hnonneg : 0 ≤ dual.holdMs := by omega
  have hafter := (msecAfter_micros hnorm hnonneg hroom).1
  rw [hpressed] at htime
  refine ⟨rest, hqueue, fun now => ?_, fun t => ?_, fun hkeymap => ⟨?_, hsame hkeymap⟩⟩
  · rw [hiff, ← not_le]
    exact imp_iff_not_or
  · obtain ⟨d, hd, hmicros⟩ := selectTimeout_micros huse htime ⟨hnonneg, hhold.2⟩ t
    refine ⟨d, hd, fun wake hwake hsleep => ?_⟩
    rw [hiff, hpressed]
    rw [htime] at hmicros ⊢
    rw [wake_age hafter t.normalized hnorm hwake hmicros hsleep]
  · rw [htime, hpressed, msecDiff_msecAfter hnorm hnonneg hroom]
    split <;> omega

/-- The press of a `TAP_ON_ROLLOVER` key that is 200 ms away from its timeout. -/
def pressedAtZero : Resolver :=
  (resolverInit (shiftOn45 .tapOnRollover).root).push (keyAt 0 45 1).ev

theorem pressedAtZero_visited :
    Visited (shiftOn45 .tapOnRollover).root CodeInRange pressedAtZero :=
  .queued .init (fun _ => by decide) (by decide)

theorem pressedAtZero_pending : ∃ r,
    LeavesPending Timeval.zero pressedAtZero r (keyAt 0 45 1).ev ⟨.tapOnRollover, 200, 300⟩ ∧
      r.currentKeymap = pressedAtZero.currentKeymap ∧ r.resolvableTime = ⟨0, 200000⟩ ∧
      selectTimeout r.toKeyState Timeval.zero = some ⟨0, 200000⟩ ∧
      ∃ r', resolve ⟨0, 200000⟩ r = .ok (false, r',
        [.checked (keyAt 0 45 1).ev ⟨.tapOnRollover, 200, 300⟩ ⟨0, 200000⟩
          ⟨-1, Timeval.zero⟩ .noneYet]) := by
  refine ⟨_, ⟨_, _, rfl, List.mem_cons_self⟩, rfl, by decide, by decide, _, rfl⟩

/-- One millisecond after its deadline that press is decided. -/
theorem announced_deadline_passed : ∃ r,
    LeavesPending Timeval.zero pressedAtZero r (keyAt 0 45 1).ev ⟨.tapOnRollover, 200, 300⟩ ∧
      Resolves ⟨0, 201000⟩ r := by
  obtain ⟨r, hleft, hkeymap, htime, _⟩ := pressedAtZero_pending
  have hzero : (keyAt 0 45 1).ev.time = ClockTime.zero.toTimeval := rfl
  obtain ⟨rest, _, hnow, _, hsame⟩ :=
    announced_deadline_iff pressedAtZero_visited hleft hzero (by decide)
  refine ⟨r, hleft, (hnow ⟨⟨0, 201000⟩, by decide, by decide, by decide, by decide⟩).mpr
    (.inr (((hsame hkeymap).2 _).mpr (by decide))) ?_⟩
  rw [htime]
  decide

/-- At its deadline, which is also the end of the announced sleep, that press is left
    undecided. -/
theorem announced_deadline_missed : ∃ r,
    Visited (shiftOn45 .tapOnRollover).root CodeInRange pressedAtZero ∧
      LeavesPending Timeval.zero pressedAtZero r (keyAt 0 45 1).ev ⟨.tapOnRollover, 200, 300⟩ ∧
      r.resolvableTime = ⟨0, 200000⟩ ∧ ¬ Resolves ⟨0, 200000⟩ r ∧
      selectTimeout r.toKeyState Timeval.zero = some ⟨0, 200000⟩ := by
  obtain ⟨r, hleft, _, htime, hselect, r', hres⟩ := pressedAtZero_pending
  refine ⟨r, pressedAtZero_visited, hleft, htime, ?_, hselect⟩
  rintro ⟨_, _, hdecided⟩
  rw [hres] at hdecided
  cases hdecided

end Sdiol
