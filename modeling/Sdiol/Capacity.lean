import Sdiol.Serve

namespace Sdiol

/-!
# When the queue overflows

What is said about runs of `serve_loop` ends where a queue overflows: `unresolved` has room for 1024
events, and the program exits when another one arrives.  Events stay queued only behind a press
that `check_waveform` leaves open, and it leaves none open that is older than `hold_ms`.  So the
queue overflows only if 1024 or more events of one grab are processed within `hold_ms` of the
press among them that came first, and another one follows.

* `Waits` — what stays queued came in a row, behind a press that was not too old when the last
  of it was processed;
* `plainEvent_waits` — every event keeps it so;
* `no_overflow` — without such a crowd of events, no run of `serve_loop` fails.
-/

variable {n : Nat} {H : Int}

/-! ### Crowds -/

/-- The readings have 1024 or more in a row, of which the first is a press that is not older than
    `H` milliseconds at some clock reading of the last, and one more behind them. -/
def Crowded (H : Int) (readings : List Reading) : Prop :=
  ∃ before x mid z after k, readings = before ++ (x :: mid) ++ after ∧
    (x :: mid).getLast? = some z ∧ x.ev.isPress = true ∧ msecDiff (z.clk k) x.ev.time ≤ H ∧
    urMax ≤ (x :: mid).length ∧ after ≠ []

/-- What is queued after some readings. -/
def Waits (H : Int) (readings : List Reading) (queue : List InputEvent) : Prop :=
  queue = [] ∨ ∃ before x mid z after k, readings = before ++ (x :: mid) ++ after ∧
    (x :: mid).getLast? = some z ∧ x.ev.isPress = true ∧ msecDiff (z.clk k) x.ev.time ≤ H ∧
    queue.Sublist ((x :: mid).map Reading.ev)

theorem Waits.sublist {readings : List Reading} {queue : List InputEvent}
    (h : Waits H readings queue) : queue.Sublist (readings.map Reading.ev) := by
  rcases h with rfl | ⟨before, x, mid, z, after, k, rfl, _, _, _, hsub⟩
  · exact List.nil_sublist _
  · rw [List.map_append, List.map_append]
    exact (hsub.trans (List.sublist_append_right _ _)).trans (List.sublist_append_left _ _)

/-- A reading whose event is not queued changes nothing. -/
theorem Waits.dropped {readings : List Reading} {queue : List InputEvent}
    (h : Waits H readings queue) (i : Reading) : Waits H (readings ++ [i]) queue := by
  rcases h with rfl | ⟨before, x, mid, z, after, k, rfl, hlast, hpress, hclk, hsub⟩
  · exact .inl rfl
  · exact .inr ⟨before, x, mid, z, after ++ [i], k, by simp, hlast, hpress, hclk, hsub⟩

/-- If the queue is full, there is a crowd. -/
theorem Waits.crowded {readings : List Reading} {queue : List InputEvent}
    (h : Waits H readings queue) (hfull : queue.length = urMax) {rest : List Reading}
    (hrest : rest ≠ []) : Crowded H (readings ++ rest) := by
  rcases h with rfl | ⟨before, x, mid, z, after, k, rfl, hlast, hpress, hclk, hsub⟩
  · exact absurd hfull (by decide)
  · have hlen := hsub.length_le
    rw [List.length_map, hfull] at hlen
    refine ⟨before, x, mid, z, after ++ rest, k, by simp, hlast, hpress, hclk, hlen, ?_⟩
    exact List.append_ne_nil_of_right_ne_nil after hrest

/-- A queue that begins with the event of a reading lies behind that reading. -/
theorem exists_reading {readings : List Reading} {ev : InputEvent} {rest : List InputEvent}
    (h : (ev :: rest).Sublist (readings.map Reading.ev)) :
    ∃ before x mid, readings = before ++ x :: mid ∧ x.ev = ev ∧
      (ev :: rest).Sublist ((x :: mid).map Reading.ev) := by
  obtain ⟨l, hl, hmap⟩ := List.sublist_map_iff.mp h
  cases l with
  | nil => exact absurd hmap (by simp)
  | cons x l =>
    obtain ⟨rfl, rfl⟩ := List.cons_eq_cons.mp hmap
    obtain ⟨front, back, rfl, hx, hback⟩ := List.cons_sublist_iff.mp hl
    obtain ⟨before, mid, rfl⟩ := List.append_of_mem hx
    refine ⟨before, x, mid ++ back, by simp, rfl, ?_⟩
    rw [List.map_cons, List.map_append]
    exact ((hback.map Reading.ev).trans (List.sublist_append_right _ _)).cons_cons x.ev

/-! ### One event -/

section Event

variable {clk : Nat → Timeval} {ev : InputEvent} {p p' : PlainResolver} {l : List Effect}

/-- No call of `resolve` adds to the queue. -/
theorem plainResolve_sublist {now : Timeval} {b : Bool}
    (h : plainResolve earlyRelease now p = .ok (b, p', l)) : p'.queue.Sublist p.queue := by
  rcases plainResolve_queue h with hq | hq | hq
  · rw [hq]
  · rw [hq]
    exact List.tail_sublist _
  · rw [hq]
    exact List.dropLast_sublist _

/-- When `resolve` answers `false`, nothing is queued, or a press that is not older than the
    longest `hold_ms`. -/
theorem plainResolve_waits {now : Timeval}
    (hp : RunReady (fun dual => dual.holdMs ≤ H) p)
    (h : plainResolve earlyRelease now p = .ok (false, p', l)) :
    p'.queue = [] ∨ ∃ ev rest, p.queue = ev :: rest ∧ ev.isPress = true ∧
      msecDiff now ev.time ≤ H := by
  rcases plainResolve_cases h with ⟨hqueue, _, rfl, _⟩ | ⟨_, _, _, _, hb, _⟩ |
    ⟨ev, rest, newest, s₁, l₁, hqueue, _, _, hh, _⟩
  · exact .inl hqueue
  · exact absurd hb (by simp)
  · cases hh with
    | waiting hpress _ hget hcheck =>
      refine .inr ⟨ev, rest, hqueue, hpress, ?_⟩
      have huse : _ ≤ H := (hp.1.lookup_usable hget).2.1
      by_contra hlate
      -- an older press is decided
      unfold checkWaveform at hcheck
      rw [if_pos (by omega)] at hcheck
      split at hcheck <;> exact absurd (congrArg Prod.fst hcheck) (by simp)

/-- An event that fails finds the queue full. -/
theorem plainEvent_full {capacity : Option Nat} {e : Abort} (hev : CodeInRange ev)
    {P : DualConfig → Prop} (hp : RunReady P p)
    (h : plainEvent earlyRelease capacity clk ev p = .error e) :
    capacity = some p.queue.length := by
  by_contra hroom
  obtain ⟨pass, s, hdedup⟩ := resolveDedupInput_total p.toKeyState hev
  unfold plainEvent at h
  rw [hdedup] at h
  simp only [bind, Except.bind] at h
  cases pass with
  | false => exact absurd h (by simp)
  | true =>
    simp only [if_true, if_neg hroom] at h
    obtain ⟨p', l, hloop, _⟩ := Steps.loop_progress (RunReady P)
      (fun now p hp => plainResolve_total now hp) ((p.queue ++ [ev]).length + 1) clk
      ((hp.dedup hdedup).push hev)
    rw [hloop] at h
    exact absurd h (by simp)

/-- **One event.** What is queued afterwards came in a row, up to this event, behind a press that
    is not too old at one of its clock readings. -/
theorem plainEvent_waits {capacity : Option Nat} {i : Reading} {readings : List Reading}
    (hi : CodeInRange i.ev) (hp : RunReady (fun dual => dual.holdMs ≤ H) p)
    (hw : Waits H readings p.queue)
    (h : plainEvent earlyRelease capacity i.clk i.ev p = .ok (p', l)) :
    Waits H (readings ++ [i]) p'.queue := by
  obtain ⟨pass, s, hdedup, ⟨_, rfl, _⟩ | ⟨l', _, _, hloop⟩⟩ := plainEvent_cases h
  · exact hw.dropped i
  · have hall : (p.queue ++ [i.ev]).Sublist ((readings ++ [i]).map Reading.ev) := by
      rw [List.map_append]
      exact hw.sublist.append (List.Sublist.refl _)
    -- where the last call of `resolve` starts
    obtain ⟨k, p₀, l₁, ⟨hready, hsub⟩, hlast⟩ := Steps.loop_exit_at
      (fun q : PlainResolver => RunReady (fun dual => dual.holdMs ≤ H) q ∧
        q.queue.Sublist (p.queue ++ [i.ev])) (fun q => q.queue.length)
      (fun _ _ _ _ hq hstep =>
        ⟨plainResolve_runReady hstep hq.1, (plainResolve_sublist hstep).trans hq.2⟩)
      (fun _ _ _ _ hstep => plainResolve_length hstep)
      ⟨(hp.dedup hdedup).push hi, List.Sublist.refl _⟩ (Nat.lt_succ_self _) hloop
    rcases plainResolve_waits hready hlast with hnil | ⟨ev, rest, hqueue, hpress, hclk⟩
    · exact .inl hnil
    · have hbehind := hsub.trans hall
      rw [hqueue] at hbehind
      obtain ⟨before, x, mid, hreadings, rfl, hqueued⟩ := exists_reading hbehind
      have hend : (x :: mid).getLast? = some i := by
        have hlast := congrArg List.getLast? hreadings
        rw [List.getLast?_concat, List.getLast?_append_cons] at hlast
        exact hlast.symm
      refine .inr ⟨before, x, mid, i, [], k, ?_, hend, hpress, hclk, ?_⟩
      · rw [List.append_nil]
        exact hreadings
      · have hkept := plainResolve_sublist hlast
        rw [hqueue] at hkept
        exact hkept.trans hqueued

end Event

/-! ### Runs -/

@[simp] theorem inputsOf_append (g : Fin n) (l₁ l₂ : List (GrabReading n)) :
    inputsOf g (l₁ ++ l₂) = inputsOf g l₁ ++ inputsOf g l₂ := List.filterMap_append

theorem inputsOf_self (i : GrabReading n) (l : List (GrabReading n)) :
    inputsOf i.grab (i :: l) = i.toReading :: inputsOf i.grab l := by
  simp [inputsOf]

theorem inputsOf_of_ne {g : Fin n} {i : GrabReading n} (h : i.grab ≠ g) : inputsOf g [i] = [] := by
  simp [inputsOf, h]

/-- What every grab of `serve_loop` has queued. -/
def ServeWaits (H : Int) (done : List (GrabReading n)) (s : ServeState n) : Prop :=
  ∀ g, Waits H (inputsOf g done) (s.plain g).queue

/-- **One event** that `serve_loop` reads. -/
theorem serveStep_waits {i : GrabReading n} {done : List (GrabReading n)} {s s' : ServeState n}
    {l : List (Fin n × Effect)} (hi : CodeInRange i.ev)
    (hs : ServeReady (fun dual => dual.holdMs ≤ H) s) (hw : ServeWaits H done s)
    (h : serveStep i s = .ok (s', l)) : ServeWaits H (done ++ [i]) s' := by
  obtain ⟨r, log, d, out, hr, _, rfl, _⟩ := serveStep_ok h
  intro g
  by_cases hg : i.grab = g
  · subst hg
    have hplain := serveEvent_plain i.clk i.ev (hs i.grab).2
    rw [hr] at hplain
    have hkept := plainEvent_waits hi (hs i.grab).1 (hw i.grab) hplain.symm
    rw [inputsOf_append, inputsOf_self]
    simpa [ServeState.plain, inputsOf] using hkept
  · rw [inputsOf_append, inputsOf_of_ne hg, List.append_nil]
    simpa [ServeState.plain, Function.update_of_ne (Ne.symm hg)] using hw g

/-- An event that ends the program finds the queue of its grab full. -/
theorem serveStep_full {P : DualConfig → Prop} {i : GrabReading n} {s : ServeState n} {e : Abort}
    (hi : CodeInRange i.ev) (hs : ServeReady P s) (h : serveStep i s = .error e) :
    (s.plain i.grab).queue.length = urMax := by
  have hplain := serveEvent_plain i.clk i.ev (hs i.grab).2
  cases hr : serveEvent i.clk i.ev (s.resolvers i.grab) with
  | error e' =>
    rw [hr] at hplain
    exact (Option.some.inj (plainEvent_full hi (hs i.grab).1 hplain.symm)).symm
  | ok x =>
    -- the filter does not fail
    obtain ⟨r, l⟩ := x
    rw [hr] at hplain
    have hevent : plainEvent earlyRelease (some urMax) i.clk i.ev (s.resolvers i.grab).plain
        = .ok (r.plain, l) := hplain.symm
    obtain ⟨d, out, hd⟩ :=
      sendAll_total (plainEvent_sends_inRange (hs i.grab).1 hi hevent) s.deduper
    have hstep : serveStep i s = .ok (⟨Function.update s.resolvers i.grab r, d,
        s.output ++ out⟩, l.map (Prod.mk i.grab)) := by
      unfold serveStep
      simp only [hr, hd, bind, Except.bind]
    exact absurd (h.symm.trans hstep) (by simp)

/-- From any state on: a run ends well or meets a crowd. -/
theorem run_waits {done inputs : List (GrabReading n)} {s : ServeState n}
    (hin : ∀ i ∈ inputs, CodeInRange i.ev)
    (hs : ServeReady (fun dual => dual.holdMs ≤ H) s) (hw : ServeWaits H done s) :
    (∃ s' log, Steps.run serveStep inputs s = .ok (s', log)) ∨
      ∃ g, Crowded H (inputsOf g (done ++ inputs)) := by
  induction inputs generalizing done s with
  | nil => exact .inl ⟨s, [], rfl⟩
  | cons i inputs ih =>
    have hi := hin i List.mem_cons_self
    rcases serveStep_total hi hs with ⟨e, he, _⟩ | ⟨s₁, l₁, hstep, hs₁⟩
    · refine .inr ⟨i.grab, ?_⟩
      rw [inputsOf_append, inputsOf_self]
      exact (hw i.grab).crowded (serveStep_full hi hs he) (List.cons_ne_nil _ _)
    · rcases ih (fun j hj => hin j (List.mem_cons_of_mem _ hj)) hs₁
        (serveStep_waits hi hs hw hstep) with ⟨s', log, hrun⟩ | ⟨g, hcrowd⟩
      · exact .inl ⟨s', l₁ ++ log, Steps.run_cons_ok.mpr ⟨s₁, l₁, log, hstep, hrun, rfl⟩⟩
      · rw [List.append_assoc] at hcrowd
        exact .inr ⟨g, hcrowd⟩

/-- **No overflow.** If `hold_ms` of no dual key is above `H`, and no grab gets a press and 1023 or
    more events behind it, for the last of which it is not older than `H` milliseconds at some
    clock reading, and another one after that, then no run of `serve_loop` on key codes below
    `KEY_MAX` ends the program. -/
theorem no_overflow {keymaps : Fin n → Keymap}
    (hhold : ∀ g, (keymaps g).root.AllDuals fun dual => dual.holdMs ≤ H)
    {inputs : List (GrabReading n)} (hin : ∀ i ∈ inputs, CodeInRange i.ev)
    (hcrowd : ∀ g, ¬ Crowded H (inputsOf g inputs)) :
    ∃ s log, serve (fun g => (keymaps g).root) inputs = .ok (s, log) := by
  have hready := serveInit_ready (fun _ => rfl) fun g => ⟨(keymaps g).root_filled, hhold g⟩
  have hwaits : ServeWaits H [] (serveInit fun g => (keymaps g).root) := fun _ => .inl rfl
  rcases run_waits hin hready hwaits with hok | ⟨g, hcrowded⟩
  · exact hok
  · exact absurd hcrowded (hcrowd g)

/-- One press, with less than 1023 events behind it before it is too old, is no crowd. -/
theorem not_crowded {x : Reading} {early late : List Reading}
    (hpress : ∀ y ∈ early ++ late, y.ev.isPress = false) (hfew : early.length < urMax - 1)
    (hlate : ∀ z ∈ late, ∀ k, H < msecDiff (z.clk k) x.ev.time) :
    ¬ Crowded H (x :: (early ++ late)) := by
  rintro ⟨before, x', mid, z, after, k, hsplit, hlast, hx', hclk, hlen, _⟩
  cases before with
  | cons y before =>
    -- there is only one press
    obtain ⟨-, hrest⟩ := List.cons_eq_cons.mp hsplit
    have hmem : x' ∈ early ++ late := by simp [hrest]
    rw [hpress x' hmem] at hx'
    exact absurd hx' (by simp)
  | nil =>
    obtain ⟨rfl, hrest⟩ := List.cons_eq_cons.mp hsplit
    rw [List.length_cons] at hlen
    rcases List.append_eq_append_iff.mp hrest with ⟨m, rfl, hm⟩ | ⟨m, rfl, -⟩
    · -- the last event is a late one
      obtain ⟨m, w, rfl⟩ : ∃ m' w, m = m' ++ [w] := by
        rcases List.eq_nil_or_concat m with rfl | ⟨m', w, rfl⟩
        · rw [List.append_nil] at hlen
          omega
        · exact ⟨m', w, List.concat_eq_append⟩
      obtain rfl : w = z := by
        rw [← List.append_assoc, ← List.cons_append, List.getLast?_concat] at hlast
        exact Option.some.inj hlast
      have hold := hlate w (by simp [hm]) k
      omega
    · rw [List.length_append] at hfew
      omega

/-- A dual key that can only time out is pressed and repeats itself 1022 times while it could
    still be tapped, and 1000 times later. -/
def repeated : List Reading :=
  keyAt 0 45 1 :: (List.replicate 1022 (keyAt 100 45 2) ++ List.replicate 1000 (keyAt 300 45 2))

/-- The queue has room for what it gets in time. -/
theorem no_overflow_repeats :
    ∃ s log, serve (fun _ : Fin 1 => (shiftOn45 .timeoutOnly).root)
      (repeated.map fun i => ⟨i, soleGrab⟩) = .ok (s, log) := by
  have hinputs : ∀ g : Fin 1, inputsOf g (repeated.map fun i => ⟨i, soleGrab⟩) = repeated := by
    intro g
    have hsole : soleGrab = g := Subsingleton.elim _ _
    simp [inputsOf, List.filterMap_map, hsole]
  have hlater : ∀ y ∈ List.replicate 1022 (keyAt 100 45 2) ++ List.replicate 1000 (keyAt 300 45 2),
      y = keyAt 100 45 2 ∨ y = keyAt 300 45 2 :=
    fun y hy => (List.mem_append.mp hy).imp List.eq_of_mem_replicate List.eq_of_mem_replicate
  refine no_overflow (H := 200) (fun _ => shiftOn45_allDuals le_rfl) ?_ fun g => ?_
  · intro i hi
    obtain ⟨y, hy, rfl⟩ := List.mem_map.mp hi
    rcases List.mem_cons.mp hy with rfl | hy
    · decide +kernel
    · rcases hlater y hy with rfl | rfl
      · decide +kernel
      · decide +kernel
  · rw [hinputs g]
    refine not_crowded (fun y hy => ?_) ?_ fun z hz k => ?_
    · rcases hlater y hy with rfl | rfl
      · decide
      · decide
    · rw [List.length_replicate]
      decide
    · rw [List.eq_of_mem_replicate hz]
      show (200 : Int) < msecDiff (keyAt 300 45 2).ev.time (keyAt 0 45 1).ev.time
      decide +kernel

end Sdiol
