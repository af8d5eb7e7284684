import Sdiol.Deadline

namespace Sdiol

/-!
# `--timeout`

With `--timeout N`, `serve_loop` computes `exit_time` before its loop, and in each turn gives
`select` the time that is left until then.  It relies on the `select` of Linux, which leaves in
the timeout the time that was not slept: if nothing is left, the program exits.  The events that
`select` announced are handled after that, in any time whatsoever, and if `exit_time` passes
meanwhile, the next timeout is negative, which `select` rejects.

`exitTime_exact_iff` says for which `N` the deadline is right (`timeout * 1000` is an `int`),
`loopTimeout_negative` when a timeout is negative, `TimedRun.serveTurn_timeout` when a turn ends
the program.  `timed_exit_iff` puts them together for the runs of the loop.
-/

variable {n : Nat}

/-! ### `exit_time` -/

/-- The carry is at most what is cut off. -/
theorem carry_le (msec : Int) (h : -1000 < msec ∧ msec < 2000) :
    msec.tmod 1000 + (if msec > 1000 then 1000 else 0) ≤ msec := by
  obtain ⟨hdivision, hlow, hhigh⟩ := tdiv_tmod msec (b := 1000) (by decide)
  by_cases hneg : msec < 0
  · -- a remainder has the sign of the dividend
    have hsign := Int.tmod_nonneg (a := -msec) 1000 (by omega)
    rw [Int.neg_tmod] at hsign
    rw [if_neg (by omega)]
    omega
  · rw [Int.tmod_eq_emod_of_nonneg (by omega)]
    split <;> omega

/-- `msec_after` never leads to a later time than it should. -/
theorem msecAfter_micros_le (t : ClockTime) {millis : Int}
    (h : -2 ^ 31 ≤ millis ∧ millis < 2 ^ 31) :
    (msecAfter t.toTimeval millis).micros ≤ t.micros + millis * 1000 := by
  obtain ⟨hsec, husec⟩ := t.bounds
  obtain ⟨hmillis, hlow, hhigh⟩ := tdiv_tmod millis (b := 1000) (by decide)
  unfold msecAfter Timeval.micros
  simp only
  rw [Int.tdiv_eq_ediv_of_nonneg husec.1, Int.tmod_eq_emod_of_nonneg husec.1]
  generalize hmsec : millis.tmod 1000 + t.tvUsec.toInt / 1000 = msec
  obtain ⟨_, hlow', hhigh'⟩ := tdiv_tmod msec (b := 1000) (by decide)
  have hcarry := carry_le msec (by omega)
  rw [Int64.toInt_ofInt_of_le (by split <;> omega) (by split <;> omega),
    Int64.toInt_ofInt_of_le (by omega) (by omega)]
  split at hcarry <;> omega

/-- `2147483 * 1000` is the last product that fits into an `int`. -/
theorem toInt_mul_thousand {timeout : Int32} (h : 0 < timeout.toInt)
    (hle : timeout.toInt ≤ 2147483) : (timeout * 1000).toInt = timeout.toInt * 1000 := by
  rw [Int32.toInt_mul]
  apply Int.bmod_eq_of_le
  · show -(2 ^ 32 / 2) ≤ timeout.toInt * 1000
    omega
  · show timeout.toInt * 1000 < (2 ^ 32 + 1) / 2
    omega

/-- **The deadline.** It is the right one exactly if the product does not overflow. -/
theorem exitTime_exact_iff {timeout : Int32} (htimed : timeout > 0) (started : ClockTime) :
    ∃ e, exitTime timeout started = some e ∧
      (e.micros = started.micros + timeout.toInt * 1000000 ↔ timeout.toInt ≤ 2147483) := by
  have hpos : 0 < timeout.toInt := Int32.lt_iff_toInt_lt.mp htimed
  refine ⟨_, if_pos htimed, ?_⟩
  constructor
  · intro hexact
    by_contra hgt
    -- the product is smaller than it should be, whatever it is
    have hlt := (timeout * 1000).toInt_lt
    have hle := msecAfter_micros_le started ⟨(timeout * 1000).le_toInt, hlt⟩
    omega
  · intro hle
    rw [toInt_mul_thousand hpos hle]
    obtain ⟨hsec, husec⟩ := started.bounds
    have hroom : started.toTimeval.Room (timeout.toInt * 1000) := by
      show started.toTimeval.tvSec.toInt * 1000000 + started.toTimeval.tvUsec.toInt +
        timeout.toInt * 1000 * 1000 < 2 ^ 63 * 1000000
      omega
    -- whole seconds are added, and the milliseconds of the clock are fewer than 1000
    have hmeet : ¬ MillisMeet started.toTimeval (timeout.toInt * 1000) := by
      intro hmeet
      unfold MillisMeet at hmeet
      omega
    have hmicros := (msecAfter_micros husec (by omega) hroom).2
    rw [if_neg hmeet] at hmicros
    rw [hmicros]
    omega

/-! ### The timeouts -/

/-- Linux rejects such a timeout. -/
def Timeval.Negative (tv : Timeval) : Prop := tv.tvSec.toInt < 0 ∨ tv.tvUsec.toInt < 0

instance (tv : Timeval) : Decidable tv.Negative := inferInstanceAs (Decidable (_ ∨ _))

/-- The timeout is negative exactly if `exit_time` has passed. -/
theorem loopTimeout_negative {timeout : Int32} {started : ClockTime} {e : Timeval}
    (h : exitTime timeout started = some e) (now : ClockTime) :
    ∃ tv, loopTimeout (exitTime timeout started) now = some tv ∧
      tv.micros = e.micros - now.micros ∧ (tv.Negative ↔ e.micros < now.micros) := by
  obtain ⟨tv, htv, hmicros⟩ := loopTimeout_micros h now
  refine ⟨tv, htv, hmicros, ?_⟩
  have heq : timevalDiff e now.toTimeval = tv := by
    rw [h] at htv
    exact Option.some.inj htv
  unfold exitTime at h
  split at h
  · cases h
    obtain ⟨hsec, husec⟩ := msecAfter_bounds started
      ⟨(timeout * 1000).le_toInt, (timeout * 1000).toInt_lt⟩
    obtain ⟨hsec', husec'⟩ := now.bounds
    obtain ⟨_, hu⟩ := timevalDiff_fields (a := msecAfter started.toTimeval (timeout * 1000).toInt)
      (b := now.toTimeval) (by omega) (by omega)
    rw [heq] at hu
    unfold Timeval.Negative
    unfold Timeval.micros at hmicros ⊢
    omega
  · exact absurd h (by simp)

/-! ### Runs in time -/

/-- A turn with the clock when `select` returned. -/
structure TimedTurn (n : Nat) extends Turn n where
  back : ClockTime
  later : now.micros ≤ back.micros

/-- The `select` of Linux.  It rejects negative timeouts and fails for no other reason; when it
    returns with what is ready, it has replaced the timeout by the time that is left of it. -/
def TimedTurn.FollowsLinux (timeout : Option Timeval) (t : TimedTurn n) : Prop :=
  match t.selected with
  | .failed => ∃ tv, timeout = some tv ∧ tv.Negative
  | .interrupted => ∀ tv, timeout = some tv → ¬ tv.Negative
  | .ready left _ _ => ∀ tv, timeout = some tv → ¬ tv.Negative ∧ left.Normalized ∧
      left.micros = max 0 (tv.micros - (t.back.micros - t.now.micros))

/-- `serve_loop` with `--timeout`, and turns that can happen, with any events and at any time. -/
structure TimedRun (n : Nat) where
  timeout : Int32
  timed : timeout > 0
  started : ClockTime
  kbs : Nat → Keyboard n
  roots : Fin n → KeyAction
  opened : List (Keyboard n)
  turns : List (TimedTurn n)
  linux : ∀ t ∈ turns, t.FollowsLinux (loopTimeout (exitTime timeout started) t.now)

/-- The return value of `serve_loop`; the program may also stop in the resolver. -/
def LoopEnd.retval : LoopEnd → Option Int32
  | .noInputs => some 1
  | .selectFailed => some 1
  | .timeout => some 0
  | .program _ => none

namespace TimedRun

def exit (r : TimedRun n) : Option Timeval := exitTime r.timeout r.started

/-- `serve_loop` for some turns. -/
def loop (r : TimedRun n) (turns : List (TimedTurn n)) :
    Except LoopEnd (World n × List (LoopEffect n)) :=
  serveLoop r.timeout r.started r.kbs r.roots r.opened (turns.map TimedTurn.toTurn)

/-- The turn `t` begins at `w`: the loop calls `select` once more. -/
def Reaches (r : TimedRun n) (t : TimedTurn n) (w : World n) : Prop :=
  ∃ before after log, r.turns = before ++ t :: after ∧ r.loop before = .ok (w, log)

/-- What `--timeout` is for. -/
structure ExitsOnTime (r : TimedRun n) : Prop where
  /-- `exit_time` is the start time plus as many seconds as were given. -/
  exact : ∃ e, r.exit = some e ∧ e.micros = r.started.micros + r.timeout.toInt * 1000000
  /-- No timeout is negative. -/
  nonneg : ∀ t w, r.Reaches t w → ∀ tv, loopTimeout r.exit t.now = some tv → ¬ tv.Negative
  /-- The loop does not end because of the timeout before `exit_time`. -/
  not_before : ∀ t w, r.Reaches t w → serveTurn r.exit t.toTurn w = .error .timeout →
    ∀ e, r.exit = some e → e.micros ≤ t.back.micros
  /-- If `exit_time` has passed when `select` returns, or was passed before it was called, and
      no signal interrupted it, the loop ends and returns 0. -/
  clean : ∀ t w, r.Reaches t w → t.selected ≠ .interrupted → ∀ e, r.exit = some e →
    e.micros ≤ t.back.micros →
      ∃ stop, serveTurn r.exit t.toTurn w = .error stop ∧ stop.retval = some 0

theorem Reaches.mem {r : TimedRun n} {t : TimedTurn n} {w : World n} (h : r.Reaches t w) :
    t ∈ r.turns := by
  obtain ⟨before, after, _, hturns, _⟩ := h
  rw [hturns]
  exact List.mem_append_right _ List.mem_cons_self

/-- The loop ends because of the timeout exactly if `select` left nothing of it. -/
theorem serveTurn_timeout {exit : Option Timeval} {t : Turn n} {w : World n} :
    serveTurn exit t w = .error .timeout ↔
      (loopTimeout exit t.now).isSome = true ∧
        ∃ keyboards inotify, t.selected = .ready Timeval.zero keyboards inotify := by
  unfold serveTurn
  cases hselected : t.selected with
  | interrupted => simp
  | failed => simp
  | ready left keyboards inotify =>
    simp only
    by_cases hover : (loopTimeout exit t.now).isSome = true ∧ left = Timeval.zero
    · obtain ⟨hsome, rfl⟩ := hover
      rw [if_pos ⟨hsome, rfl⟩]
      exact iff_of_true rfl ⟨hsome, keyboards, inotify, rfl⟩
    · rw [if_neg hover]
      apply iff_of_false
      · -- whatever else ends the program is no timeout
        cases readKeyboards keyboards w.nKbs t.reads 0 w with
        | error a => simp [Except.mapError, bind, Except.bind]
        | ok x => simp [Except.mapError, bind, Except.bind]
      · rintro ⟨hsome, _, _, h⟩
        cases h
        exact hover ⟨hsome, rfl⟩

/-- **One turn.** If its timeout is not negative, the turn ends the loop because of the timeout
    exactly if `exit_time` has passed when `select` returns, unless a signal interrupted it. -/
theorem turn_ends_iff {r : TimedRun n} {t : TimedTurn n} {w : World n} {e : Timeval}
    (ht : t.FollowsLinux (loopTimeout r.exit t.now)) (he : r.exit = some e)
    (hnow : t.now.micros ≤ e.micros) :
    serveTurn r.exit t.toTurn w = .error .timeout ↔
      t.selected ≠ .interrupted ∧ e.micros ≤ t.back.micros := by
  obtain ⟨tv, htv, hmicros, hnegative⟩ := loopTimeout_negative he t.now
  have htimeout : loopTimeout r.exit t.now = some tv := htv
  rw [serveTurn_timeout, htimeout]
  unfold TimedTurn.FollowsLinux at ht
  cases hselected : t.selected with
  | interrupted => simp
  | failed =>
    rw [hselected] at ht
    obtain ⟨tv', htv', hneg⟩ := ht
    cases htimeout.symm.trans htv'
    have hpassed := hnegative.mp hneg
    omega
  | ready left keyboards inotify =>
    rw [hselected] at ht
    obtain ⟨_, hnorm, hleft⟩ := ht tv htimeout
    rw [hmicros] at hleft
    constructor
    · rintro ⟨_, _, _, h⟩
      cases h
      have hzero : Timeval.zero.micros = 0 := by decide
      refine ⟨by simp, ?_⟩
      omega
    · rintro ⟨_, hpassed⟩
      have hzero : left = Timeval.zero := by
        apply hnorm.eq (by decide)
        show left.micros = 0
        omega
      exact ⟨rfl, keyboards, inotify, by rw [hzero]⟩

/-- **Timed exit.** `--timeout` is obeyed in exactly those runs in which `timeout * 1000` does
    not overflow and the loop never calls `select` after the time at which it should exit. -/
theorem timed_exit_iff (r : TimedRun n) :
    r.ExitsOnTime ↔ r.timeout.toInt ≤ 2147483 ∧
      ∀ t w, r.Reaches t w → t.now.micros ≤ r.started.micros + r.timeout.toInt * 1000000 := by
  obtain ⟨e, he, hexact⟩ := exitTime_exact_iff r.timed r.started
  have hexit : r.exit = some e := he
  constructor
  · rintro ⟨⟨e', he', hright⟩, hnonneg, _, _⟩
    cases he'.symm.trans hexit
    refine ⟨hexact.mp hright, fun t w hreached => ?_⟩
    obtain ⟨tv, htv, _, hnegative⟩ := loopTimeout_negative he t.now
    have hno := hnonneg t w hreached tv htv
    rw [hnegative] at hno
    omega
  · rintro ⟨hfits, hintime⟩
    have hright := hexact.mpr hfits
    have hnow : ∀ t w, r.Reaches t w → t.now.micros ≤ e.micros := by
      intro t w hreached
      rw [hright]
      exact hintime t w hreached
    refine ⟨⟨e, hexit, hright⟩, ?_, ?_, ?_⟩
    · intro t w hreached tv htv
      obtain ⟨tv', htv', _, hnegative⟩ := loopTimeout_negative he t.now
      cases htv'.symm.trans htv
      rw [hnegative]
      exact Int.not_lt.mpr (hnow t w hreached)
    · intro t w hreached hend e' he'
      cases he'.symm.trans hexit
      exact ((turn_ends_iff (r.linux t hreached.mem) hexit (hnow t w hreached)).mp hend).2
    · intro t w hreached hsignal e' he' hpassed
      cases he'.symm.trans hexit
      exact ⟨.timeout, (turn_ends_iff (r.linux t hreached.mem) hexit (hnow t w hreached)).mpr
        ⟨hsignal, hpassed⟩, rfl⟩

end TimedRun

/-- `serve_loop` with `--timeout 1`, from time zero and with one keyboard. -/
def oneSecond (turns : List (TimedTurn 1))
    (linux : ∀ t ∈ turns, t.FollowsLinux (loopTimeout (exitTime 1 ClockTime.zero) t.now)) :
    TimedRun 1 where
  timeout := 1
  timed := by decide
  started := ClockTime.zero
  kbs := fun _ => ⟨0, soleGrab⟩
  roots := fun _ => (shiftOn45 .tapOnRollover).root
  opened := [⟨3, soleGrab⟩]
  turns := turns
  linux := linux

/-- `select` is called after a quarter of a second, and the keyboard sends an event at 400 ms. -/
def eventTurn : TimedTurn 1 where
  now := ⟨⟨0, 250000⟩, by decide, by decide, by decide, by decide⟩
  selected := .ready ⟨0, 600000⟩ (fun fd => decide (fd = 3)) false
  reads := fun _ => .event (keyAt 400 46 1)
  opened := []
  back := ⟨⟨0, 400000⟩, by decide, by decide, by decide, by decide⟩
  later := by decide

/-- `select` is called at 410 ms, and returns after the rest of the second. -/
def lastTurn : TimedTurn 1 where
  now := ⟨⟨0, 410000⟩, by decide, by decide, by decide, by decide⟩
  selected := .ready Timeval.zero (fun _ => false) false
  reads := fun _ => .again
  opened := []
  back := ⟨⟨1, 0⟩, by decide, by decide, by decide, by decide⟩
  later := by decide

/-- The event has kept the program busy until two seconds are over. -/
def lateTurn : TimedTurn 1 where
  now := ⟨⟨2, 0⟩, by decide, by decide, by decide, by decide⟩
  selected := .failed
  reads := fun _ => .again
  opened := []
  back := ⟨⟨2, 0⟩, by decide, by decide, by decide, by decide⟩
  later := by decide

theorem eventTurn_linux :
    eventTurn.FollowsLinux (loopTimeout (exitTime 1 ClockTime.zero) eventTurn.now) := by
  intro tv htv
  have htimeout : loopTimeout (exitTime 1 ClockTime.zero) eventTurn.now = some ⟨0, 750000⟩ := by
    decide
  cases htimeout.symm.trans htv
  decide

theorem lastTurn_linux :
    lastTurn.FollowsLinux (loopTimeout (exitTime 1 ClockTime.zero) lastTurn.now) := by
  intro tv htv
  have htimeout : loopTimeout (exitTime 1 ClockTime.zero) lastTurn.now = some ⟨0, 590000⟩ := by
    decide
  cases htimeout.symm.trans htv
  decide

theorem lateTurn_linux :
    lateTurn.FollowsLinux (loopTimeout (exitTime 1 ClockTime.zero) lateTurn.now) :=
  ⟨⟨-1, 0⟩, by decide, by decide⟩

/-- The event is handled at once. -/
def timelyRun : TimedRun 1 :=
  oneSecond [eventTurn, lastTurn] (List.forall_mem_cons.mpr
    ⟨eventTurn_linux, List.forall_mem_singleton.mpr lastTurn_linux⟩)

/-- The event is handled for more than a second. -/
def lateRun : TimedRun 1 :=
  oneSecond [eventTurn, lateTurn] (List.forall_mem_cons.mpr
    ⟨eventTurn_linux, List.forall_mem_singleton.mpr lateTurn_linux⟩)

/-- The program ends after one second and returns 0. -/
theorem timely_exit : timelyRun.ExitsOnTime ∧
    (timelyRun.loop timelyRun.turns).map (fun _ => ()) = .error .timeout := by
  refine ⟨timelyRun.timed_exit_iff.mpr ⟨by decide, fun t w hreached => ?_⟩, by decide +kernel⟩
  have hmem : t ∈ [eventTurn, lastTurn] := hreached.mem
  rcases List.mem_pair.mp hmem with rfl | rfl
  · decide
  · decide

/-- The timeout after the event is -1 second, and the program returns 1.  With `--timeout
    2147484`, `exit_time` is before the start of the loop. -/
theorem late_exit :
    loopTimeout lateRun.exit lateTurn.now = some ⟨-1, 0⟩ ∧
      (lateRun.loop lateRun.turns).map (fun _ => ()) = .error .selectFailed ∧
      LoopEnd.selectFailed.retval = some 1 ∧ ¬ lateRun.ExitsOnTime ∧
      ∃ e, exitTime 2147484 ClockTime.zero = some e ∧ e.micros < ClockTime.zero.micros := by
  have htimeout : loopTimeout lateRun.exit lateTurn.now = some ⟨-1, 0⟩ := by decide
  refine ⟨htimeout, by decide +kernel, rfl, fun hexits => ?_, _, rfl, by decide⟩
  have hevent : (lateRun.loop [eventTurn]).map (fun _ => ()) = .ok () := by decide +kernel
  obtain ⟨⟨w, log⟩, hrun, _⟩ := Steps.map_eq_ok hevent
  have hreached : lateRun.Reaches lateTurn w := ⟨[eventTurn], [], log, rfl, hrun⟩
  exact hexits.nonneg lateTurn w hreached _ htimeout (by decide)

end Sdiol
