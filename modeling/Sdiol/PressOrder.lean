import Sdiol.Trace

namespace Sdiol

/-!
# No press is lost, duplicated or reordered

`resolve` pops the head of the queue or removes its last element.  A popped press is acted
on, and an element removed at the end has value 0, so that it is no press: the presses acted
on so far, followed by those still queued, are the presses queued so far, in order
(`InOrder`, `press_order`).
-/

/-- The presses acted on, then those still queued, are those that arrived. -/
def InOrder (log : List Effect) (p : PlainResolver) : Prop :=
  (performed log).map Prod.fst ++ presses p.queue = presses (arrivals log)

/-- A press whose code is in range is not ignored by `resolve`. -/
theorem isPress_of_ignored {ev : InputEvent} (hev : CodeInRange ev)
    (h : ∀ k, ev.code = codeOf k → ev.isPress = false ∧ ev.isRelease = false) :
    ev.isPress = false := by
  by_contra hpress
  rw [Bool.not_eq_false] at hpress
  obtain ⟨k, hk⟩ := exists_codeOf (hev (InputEvent.isPress_iff.mp hpress).1)
  rw [(h k hk).1] at hpress
  exact absurd hpress (by simp)

theorem isPress_of_isRelease {ev : InputEvent} (h : ev.isRelease = true) : ev.isPress = false := by
  have h0 := (InputEvent.isRelease_iff.mp h).2
  simp [InputEvent.isPress, h0]

theorem isPress_of_value_zero {ev : InputEvent} (h : ev.value = 0) : ev.isPress = false := by
  simp [InputEvent.isPress, h]

/-- Handling the oldest event queues nothing. -/
theorem Handled.arrivals {s s' : KeyState} {now : Timeval} {ev : InputEvent}
    {queued : List InputEvent} {b : Bool} {l : List Effect}
    (h : Handled s now ev queued b s' l) : arrivals l = [] := by
  cases h with
  | pressed _ _ hchosen hacted => rw [arrivals_append, hchosen.arrivals, hacted.arrivals]; rfl
  | _ => rfl

/-- Resolving the oldest event acts on it exactly if it is a press. -/
theorem Handled.performed {s s' : KeyState} {now : Timeval} {ev : InputEvent}
    {queued : List InputEvent} {l : List Effect} (hev : CodeInRange ev)
    (h : Handled s now ev queued true s' l) : (performed l).map Prod.fst = presses [ev] := by
  have hnone : ev.isPress = false → presses [ev] = [] := by
    intro hpress
    simp [presses, hpress]
  cases h with
  | ignored hcode => rw [hnone (isPress_of_ignored hev hcode)]; rfl
  | passed hkey => rw [hnone (by simp [InputEvent.isPress, hkey])]; rfl
  | repeated k hvalue _ _ _ => rw [hnone (by simp [InputEvent.isPress, hvalue])]; rfl
  | releasedLayer k hrel _ _ => rw [hnone (isPress_of_isRelease hrel)]; rfl
  | releasedNothing k hrel _ _ => rw [hnone (isPress_of_isRelease hrel)]; rfl
  | releasedCode k hrel _ _ _ => rw [hnone (isPress_of_isRelease hrel)]; rfl
  | pressed hpress _ hchosen hacted =>
    rw [performed_append, hchosen.performed, hacted.performed]
    simp [presses, hpress]

/-- A press that is resolved is acted on. -/
theorem Handled.of_press {s s' : KeyState} {now : Timeval} {ev : InputEvent}
    {queued : List InputEvent} {l : List Effect} (hev : CodeInRange ev) (hpress : ev.isPress = true)
    (h : Handled s now ev queued true s' l) :
    ∃ k ka pre l' t, ev.code = codeOf k ∧ Chosen s now ev queued k ka pre t ∧
      Acted { s with lastTap := t } ev k ka s' l' ∧ l = pre ++ l' := by
  have hrelease : ev.isRelease = true → False := by
    intro hrel
    rw [isPress_of_isRelease hrel] at hpress
    exact absurd hpress (by simp)
  cases h with
  | @pressed k ka pre l' t _ _ hcode hchosen hacted =>
    exact ⟨k, ka, pre, l', t, hcode, hchosen, hacted, rfl⟩
  | ignored hcode =>
    rw [isPress_of_ignored hev hcode] at hpress
    exact absurd hpress (by simp)
  | passed hkey => exact absurd (InputEvent.isPress_iff.mp hpress).1 hkey
  | repeated k hvalue _ _ _ =>
    rw [(InputEvent.isPress_iff.mp hpress).2] at hvalue
    exact absurd hvalue (by decide)
  | releasedLayer k hrel _ _ => exact (hrelease hrel).elim
  | releasedNothing k hrel _ _ => exact (hrelease hrel).elim
  | releasedCode k hrel _ _ _ => exact (hrelease hrel).elim

/-- Leaving the oldest event waiting acts on nothing. -/
theorem Handled.performed_waiting {s s' : KeyState} {now : Timeval} {ev : InputEvent}
    {queued : List InputEvent} {l : List Effect} (h : Handled s now ev queued false s' l) :
    Sdiol.performed l = [] := by
  cases h with
  | waiting _ _ _ _ => rfl

theorem earlyRelease_performed {s s' : KeyState} {ev : InputEvent} {l : List Effect}
    (h : earlyRelease s ev = some (s', l)) : performed l = [] ∧ arrivals l = [] := by
  obtain ⟨code, evs, rfl⟩ := earlyRelease_log h
  exact ⟨performed_map_send evs, arrivals_map_send evs⟩

/-- A queue with an oldest event has a newest one. -/
theorem queue_newest {queue rest : List InputEvent} {ev newest : InputEvent}
    (hqueue : queue = ev :: rest)
    (hnewest : newest = (ev :: rest).getLast (List.cons_ne_nil _ _)) :
    queue = queue.dropLast ++ [newest] := by
  rw [hqueue, hnewest]
  exact (List.dropLast_append_getLast _).symm

/-- An event that is taken early is not the press that waits before it. -/
theorem dropLast_of_early {s s' : KeyState} {ev newest : InputEvent} {rest : List InputEvent}
    {l : List Effect} (h : earlyRelease s newest = some (s', l))
    (hnewest : newest = (ev :: rest).getLast (List.cons_ne_nil _ _)) (hpress : ev.isPress = true) :
    (ev :: rest).dropLast = ev :: rest.dropLast := by
  have hrest : rest ≠ [] := by
    rintro rfl
    obtain ⟨_, _, hvalue, _⟩ := earlyRelease_eq_some h
    have hev : newest = ev := by simpa using hnewest
    rw [← hev, isPress_of_value_zero hvalue] at hpress
    exact absurd hpress (by simp)
  exact List.dropLast_cons_of_ne_nil hrest

/-- Removing a last element that is no press leaves the presses. -/
theorem presses_dropLast {evs : List InputEvent} {newest : InputEvent}
    (hsplit : evs = evs.dropLast ++ [newest]) (h : newest.isPress = false) :
    presses evs.dropLast = presses evs := by
  have hnone : presses [newest] = [] := by simp [presses, h]
  have hpresses := congrArg presses hsplit
  rw [presses_append, hnone, List.append_nil] at hpresses
  exact hpresses.symm

/-- **Step.** One call of `resolve` keeps the order of presses. -/
theorem plainResolve_inOrder {now : Timeval} {log : List Effect} {p p' : PlainResolver} {b : Bool}
    {l : List Effect} (hp : InOrder log p) (hq : ∀ ev ∈ p.queue, CodeInRange ev)
    (h : plainResolve earlyRelease now p = .ok (b, p', l)) : InOrder (log ++ l) p' := by
  unfold InOrder at hp ⊢
  rw [performed_append, arrivals_append, List.map_append]
  rcases plainResolve_cases h with ⟨_, _, rfl, rfl⟩ | ⟨ev, rest, s', hqueue, _, rfl, hh⟩ |
    ⟨ev, rest, newest, s₁, l₁, hqueue, _, hnewest, hh, hearly⟩
  · simpa [performed, arrivals] using hp
  · have hev : CodeInRange ev := hq ev (hqueue ▸ List.mem_cons_self)
    rw [hh.performed hev, hh.arrivals, List.append_nil, List.append_assoc, ← presses_append,
      ← hp, hqueue]
    rfl
  · rcases hearly with ⟨_, rfl, rfl⟩ | ⟨s₂, l₂, hearly, rfl, rfl⟩
    · rw [hh.performed_waiting, hh.arrivals]
      simpa using hp
    · -- the element removed at the end has value 0
      obtain ⟨k, _, hvalue, _⟩ := earlyRelease_eq_some hearly
      obtain ⟨hperf, harr⟩ := earlyRelease_performed hearly
      have hsame := presses_dropLast (queue_newest hqueue hnewest) (isPress_of_value_zero hvalue)
      rw [performed_append, arrivals_append, hh.performed_waiting, hh.arrivals, hperf, harr,
        hsame]
      simpa using hp

/-- An event that is queued keeps the order of presses. -/
theorem inOrder_arrive {log : List Effect} {p : PlainResolver} {ev : InputEvent} {s : KeyState}
    (hp : InOrder log p) : InOrder (log ++ [.arrive ev]) ⟨s, p.queue ++ [ev]⟩ := by
  have harr : arrivals (log ++ [.arrive ev]) = arrivals log ++ [ev] := by
    rw [arrivals_append]
    rfl
  have hperf : performed (log ++ [.arrive ev]) = performed log := by
    rw [performed_append]
    exact List.append_nil _
  unfold InOrder at hp ⊢
  rw [harr, hperf, presses_append, presses_append, ← hp, List.append_assoc]

/-- **Run.** The order of presses is kept over every run on codes below `KEY_MAX`. -/
theorem runPlain_inOrder {capacity : Option Nat} {root : KeyAction} {inputs : List Reading}
    {p : PlainResolver} {log : List Effect} (hin : ∀ i ∈ inputs, CodeInRange i.ev)
    (h : runPlain earlyRelease capacity root inputs = .ok (p, log)) : InOrder log p := by
  have hinv : InOrder log p ∧ ∀ ev ∈ p.queue, CodeInRange ev := by
    refine runPlain_inv (fun log p => InOrder log p ∧ ∀ ev ∈ p.queue, CodeInRange ev)
      CodeInRange (fun log p ev s hp _ => hp) ?_ ?_ hin ⟨rfl, by simp⟩ h
    · rintro log p ev s ⟨hp, hq⟩ hev _
      refine ⟨inOrder_arrive hp, fun e he => ?_⟩
      rcases List.mem_append.mp he with h | h
      · exact hq e h
      · rw [List.mem_singleton.mp h]
        exact hev
    · rintro now log p b p' l ⟨hp, hq⟩ hstep
      refine ⟨plainResolve_inOrder hp hq hstep, fun e he => ?_⟩
      exact hq e (mem_of_plainResolve hstep he)
  exact hinv.1

/-- **No press is lost, duplicated or reordered.** For every keymap and every sequence of
    events with codes below `KEY_MAX` whose queue does not overflow: the ring stays in its
    bounds; it is, call for call, the plain queue that `resolve` only pops at the head or
    shortens at the end; and the presses acted on, in order, followed by the presses still in
    the ring, are the presses that were queued, in order. -/
theorem press_order (km : Keymap) (inputs : List Reading)
    (hin : ∀ i ∈ inputs, CodeInRange i.ev) :
    runResolver km.root inputs = .error .overflow ∨
    ∃ r log, runResolver km.root inputs = .ok (r, log) ∧
      (r.urStart < urMax ∧ r.urLen ≤ urMax) ∧
      runPlain earlyRelease (some urMax) km.root inputs = .ok (r.plain, log) ∧
      (∀ now p b p' l, plainResolve earlyRelease now p = .ok (b, p', l) →
        p'.queue = p.queue ∨ p'.queue = p.queue.tail ∨ p'.queue = p.queue.dropLast) ∧
      (performed log).map Prod.fst ++ presses r.queue = presses (arrivals log) := by
  rcases runResolver_total rfl km.root_usable_true hin with h | ⟨r, log, h⟩
  · exact .inl h
  · refine .inr ⟨r, log, h, runResolver_inBounds h, runPlain_of_runResolver h, ?_, ?_⟩
    · exact fun now p b p' l hstep => plainResolve_queue hstep
    · exact runPlain_inOrder hin (runPlain_of_runResolver h)

/-- A key pressed behind an undecided one waits its turn. -/
theorem press_order_waiting :
    ∃ r log, runResolver (shiftOn45 .tapOnRollover).root [keyAt 0 45 1, keyAt 20 30 1]
        = .ok (r, log) ∧
      performed log = [] ∧ presses r.queue = [(keyAt 0 45 1).ev, (keyAt 20 30 1).ev] := by
  have hrun : (runResolver (shiftOn45 .tapOnRollover).root [keyAt 0 45 1, keyAt 20 30 1]).map
      (fun x => ((performed x.2).length, presses (arrivals x.2)))
        = .ok (0, [(keyAt 0 45 1).ev, (keyAt 20 30 1).ev]) := by
    decide +kernel
  obtain ⟨⟨r, log⟩, hok, hshape⟩ := Steps.map_eq_ok hrun
  obtain ⟨hlen, harr⟩ := Prod.mk.inj hshape
  rcases press_order (shiftOn45 .tapOnRollover) [keyAt 0 45 1, keyAt 20 30 1] (by decide) with
    h | ⟨r', log', h, _, _, _, horder⟩
  · exact absurd (h.symm.trans hok) (by simp)
  · cases h.symm.trans hok
    have hperf : performed log = [] := List.length_eq_zero_iff.mp hlen
    rw [hperf, List.map_nil, List.nil_append, harr] at horder
    exact ⟨r, log, h, hperf, horder⟩

end Sdiol
