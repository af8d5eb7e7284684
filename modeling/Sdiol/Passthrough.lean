import Sdiol.Fifo
import Sdiol.NoAbort
import Sdiol.Timeout

namespace Sdiol

/-!
# Events that are not key events

`resolve` passes an event that is no key event through when it is the oldest one.  The branch
for the newest event tests the value and the code of an event and not its type, so that behind
an undecided press it takes any event with value 0 and a code below `KEY_MAX` for a key
release: `Harmless` says of the state before a call when that makes no difference.

`plainResolve_nonKey` is about one call, `runPlain_others` about a run that takes such events
under their own codes only, and `others_pass_through` puts them together.
-/

open scoped List

/-- Neither a key event nor an `EV_SYN`. -/
def InputEvent.isOther (ev : InputEvent) : Bool := ev.type != evKey && ev.type != evSyn

/-- The events that are neither key events nor `EV_SYN`s. -/
def others (evs : List InputEvent) : List InputEvent := evs.filter InputEvent.isOther

@[simp] theorem others_append (l₁ l₂ : List InputEvent) :
    others (l₁ ++ l₂) = others l₁ ++ others l₂ := List.filter_append ..

theorem InputEvent.isOther_iff {ev : InputEvent} :
    ev.isOther = true ↔ ev.type ≠ evKey ∧ ev.type ≠ evSyn := by
  simp [isOther]

theorem InputEvent.isOther_of_key {ev : InputEvent} (h : ev.type = evKey) :
    ev.isOther = false := by
  simp [isOther, h]

theorem others_of_forall {evs : List InputEvent} (h : ∀ ev ∈ evs, ev.isOther = false) :
    others evs = [] := by
  refine List.filter_eq_nil_iff.mpr fun ev hev => ?_
  simp [h ev hev]

/-! ### One call of `resolve` -/

/-- A call of `resolve` took the event `ev` from the queue: the oldest one, or the newest one
    while the oldest is undecided. -/
inductive Took (now : Timeval) (r r' : Resolver) (l : List Effect) (ev : InputEvent) : Prop
  | oldest (h : resolve now r = .ok (true, r', l)) (hqueue : r.queue = ev :: r'.queue)
  | newest (h : resolve now r = .ok (false, r', l)) (hqueue : r.queue = r'.queue ++ [ev])

/-- The oldest event is the press of a dual key that `check_waveform` leaves undecided. -/
def HeadWaits (now : Timeval) (p : PlainResolver) : Prop :=
  ∃ X rest k tap hold dual, p.queue = X :: rest ∧ X.isPress = true ∧ X.code = codeOf k ∧
    keyActionGet p.currentKeymap k = .ok (.ktDual tap hold dual) ∧
    (checkWaveform (maybeInvalidateLastTap p.lastTap X.code) now X dual rest).1 = .noneYet

/-- If the oldest event is undecided and the newest one passes the tests of the early branch
    though it is no key event, then `release_map` holds its own code for it, unless it is an
    `EV_SYN`, and the keymap that is reset for it is the root keymap already. -/
def Harmless (now : Timeval) (p : PlainResolver) : Prop :=
  HeadWaits now p → ∀ ev k, p.queue.getLast? = some ev → ev.type ≠ evKey → ev.value = 0 →
    ev.code = codeOf k → p.releaseMap k ∉ modifierKeys →
      (ev.type ≠ evSyn → p.releaseMap k = ev.code) ∧
        (p.releaseMap k = resetKeymap → p.currentKeymap = p.rootKeymap)

theorem harmless_iff {now : Timeval} {p : PlainResolver} {ev : InputEvent} {k : KeyCode}
    (hwait : HeadWaits now p) (hlast : p.queue.getLast? = some ev) (hkey : ev.type ≠ evKey)
    (hvalue : ev.value = 0) (hcode : ev.code = codeOf k) (hmod : p.releaseMap k ∉ modifierKeys) :
    Harmless now p ↔ (ev.type ≠ evSyn → p.releaseMap k = ev.code) ∧
      (p.releaseMap k = resetKeymap → p.currentKeymap = p.rootKeymap) := by
  constructor
  · intro h
    exact h hwait ev k hlast hkey hvalue hcode hmod
  · intro hcond _ ev' k' hlast' _ _ hcode' _
    obtain rfl := Option.some.inj (hlast.symm.trans hlast')
    obtain rfl := codeOf_injective (hcode.symm.trans hcode')
    exact hcond

/-- An oldest event that is no key event does not wait. -/
theorem not_headWaits {now : Timeval} {p : PlainResolver} {ev : InputEvent}
    {rest : List InputEvent} (hqueue : p.queue = ev :: rest) (hkey : ev.type ≠ evKey) :
    ¬ HeadWaits now p := by
  rintro ⟨X, _, _, _, _, _, hX, hpress, _⟩
  obtain ⟨rfl, _⟩ := List.cons.inj (hqueue.symm.trans hX)
  exact hkey (InputEvent.isPress_iff.mp hpress).1

/-- Whatever is the oldest event, what a key event sends are key events and `EV_SYN`s. -/
theorem Handled.others_sends {s s' : KeyState} {now : Timeval} {ev : InputEvent}
    {queued : List InputEvent} {b : Bool} {l : List Effect} (h : Handled s now ev queued b s' l)
    (hkey : ev.type = evKey) : others (sends l) = [] := by
  refine others_of_forall fun e he => ?_
  cases h with
  | ignored _ => simp [sends] at he
  | passed hne => exact absurd hkey hne
  | repeated k _ _ _ _ =>
    obtain rfl := List.mem_singleton.mp he
    exact InputEvent.isOther_of_key hkey
  | releasedLayer k _ _ _ => simp [sends] at he
  | releasedNothing k _ _ _ => simp [sends] at he
  | releasedCode k _ _ _ _ =>
    obtain rfl := List.mem_singleton.mp he
    exact InputEvent.isOther_of_key hkey
  | waiting _ _ _ _ => simp [sends] at he
  | @pressed k ka _ _ _ _ _ _ hchosen hacted =>
    rw [sends_append, hchosen.sends, hacted.sends, List.nil_append] at he
    cases ka with
    | ktSimple c =>
      obtain rfl := List.mem_singleton.mp he
      exact InputEvent.isOther_of_key hkey
    | ktMacro chain =>
      -- a macro sends key events and `EV_SYN`s of its own
      obtain ⟨m, _, hm⟩ := List.mem_flatMap.mp he
      rcases List.mem_pair.mp hm with rfl | rfl <;> rfl
    | _ => exact absurd he (by simp [actionSends])

/-- An event that is no key event is passed through when it is the oldest one. -/
theorem resolveEvent_passed {s : KeyState} {now : Timeval} {ev : InputEvent}
    {queued : List InputEvent} (hkey : ev.type ≠ evKey) :
    resolveEvent s now ev queued = .ok (true, s, [.send ev]) := by
  unfold resolveEvent
  rw [if_neg hkey]
  split <;> rfl

/-- An event that is no key event is passed through when it is the oldest one, and nothing else
    happens. -/
theorem plainResolve_passed {now : Timeval} {p p' : PlainResolver} {b : Bool} {l : List Effect}
    {ev : InputEvent} {rest : List InputEvent} (hqueue : p.queue = ev :: rest)
    (hkey : ev.type ≠ evKey) (h : plainResolve earlyRelease now p = .ok (b, p', l)) :
    b = true ∧ p' = ⟨{ p.toKeyState with useResolvableTime := false }, rest⟩ ∧ l = [.send ev] := by
  unfold plainResolve at h
  rw [hqueue] at h
  simp only [resolveEvent_passed hkey] at h
  cases h
  exact ⟨rfl, rfl, rfl⟩

/-- The newest event is only looked at while the oldest one is undecided, and nothing that the
    early branch reads has changed by then. -/
theorem Handled.headWaits {now : Timeval} {p : PlainResolver} {X : InputEvent}
    {rest : List InputEvent} {s : KeyState} {l : List Effect} (hqueue : p.queue = X :: rest)
    (h : Handled { p.toKeyState with useResolvableTime := false } now X rest false s l) :
    HeadWaits now p ∧ s.releaseMap = p.releaseMap ∧ s.currentKeymap = p.currentKeymap ∧
      s.rootKeymap = p.rootKeymap ∧ ∃ dual t, l = [.checked X dual now t .noneYet] := by
  cases h with
  | waiting hpress hcode hget hcheck =>
    refine ⟨⟨X, rest, _, _, _, _, hqueue, hpress, hcode, hget, ?_⟩, rfl, rfl, rfl, _, _, rfl⟩
    exact congrArg Prod.fst hcheck

/-- Modifiers are not released early. -/
theorem earlyRelease_not_modifier {s s' : KeyState} {ev : InputEvent} {k : KeyCode}
    {l : List Effect} (h : earlyRelease s ev = some (s', l)) (hcode : ev.code = codeOf k) :
    s.releaseMap k ∉ modifierKeys := by
  obtain ⟨k', hcode', _, hcase⟩ := earlyRelease_eq_some h
  obtain rfl := codeOf_injective (hcode.symm.trans hcode')
  rcases hcase with ⟨hreset, _⟩ | ⟨_, hmod, _⟩
  · rw [hreset]
    decide
  · exact hmod

/-- A call that takes the newest event early leaves the press it waits for. -/
theorem plainResolve_early {now : Timeval} {p p' : PlainResolver} {l : List Effect}
    {ev : InputEvent} (hqueue : p.queue = p'.queue ++ [ev])
    (h : plainResolve earlyRelease now p = .ok (false, p', l)) :
    HeadWaits now p ∧ ∃ X dual t s l₂, s.releaseMap = p.releaseMap ∧
      s.currentKeymap = p.currentKeymap ∧ s.rootKeymap = p.rootKeymap ∧
      earlyRelease s ev = some (p'.toKeyState, l₂) ∧ l = .checked X dual now t .noneYet :: l₂ := by
  rcases plainResolve_cases h with ⟨_, _, rfl, _⟩ | ⟨_, _, _, _, hb, _, _⟩ |
    ⟨X, rest, newest, s₁, l₁, hq, _, hnewest, hh, ⟨_, rfl, _⟩ | ⟨s₂, l₂, hearly, rfl, rfl⟩⟩
  · exact absurd hqueue (by simp)
  · exact absurd hb (by simp)
  · exact absurd hqueue (by simp)
  · have hlast := queue_newest hq hnewest
    have heq := hlast.symm.trans hqueue
    obtain rfl : newest = ev := by simpa using (List.append_inj' heq rfl).2
    obtain ⟨hwait, hmap, hcur, hroot, dual, t, rfl⟩ := hh.headWaits hq
    exact ⟨hwait, X, dual, t, s₁, l₂, hmap, hcur, hroot, hearly, rfl⟩

/-- **Step.** A call that takes an event that is no key event changes `release_map` in no case,
    and leaves the current keymap and sends the event as it is exactly when the state before
    it is harmless. -/
theorem plainResolve_nonKey {now : Timeval} {p p' : PlainResolver} {b : Bool} {l : List Effect}
    {ev : InputEvent} (hkey : ev.type ≠ evKey)
    (h : plainResolve earlyRelease now p = .ok (b, p', l))
    (hqueue : b = true ∧ p.queue = ev :: p'.queue ∨ b = false ∧ p.queue = p'.queue ++ [ev]) :
    p'.releaseMap = p.releaseMap ∧
      (p'.currentKeymap = p.currentKeymap ∧ (ev.type ≠ evSyn → others (sends l) = [ev]) ↔
        Harmless now p) := by
  rcases hqueue with ⟨rfl, hqueue⟩ | ⟨rfl, hqueue⟩
  · -- from the head of the queue, the event is passed on
    obtain ⟨_, hp', rfl⟩ := plainResolve_passed hqueue hkey h
    have hharmless : Harmless now p := fun hwait => absurd hwait (not_headWaits hqueue hkey)
    rw [hp']
    refine ⟨rfl, iff_of_true ⟨rfl, fun hsyn => ?_⟩ hharmless⟩
    exact List.filter_cons_of_pos (InputEvent.isOther_iff.mpr ⟨hkey, hsyn⟩)
  · -- from its end, the event is taken for a key release
    obtain ⟨hwait, X, dual, t, s, l₂, hmap, hcur, hroot, hearly, rfl⟩ :=
      plainResolve_early hqueue h
    obtain ⟨k, hcode, hvalue, hcase⟩ := earlyRelease_eq_some hearly
    have hlast : p.queue.getLast? = some ev := by rw [hqueue, List.getLast?_concat]
    have hmod : p.releaseMap k ∉ modifierKeys := by
      rw [← hmap]
      exact earlyRelease_not_modifier hearly hcode
    have hharmless : Harmless now p ↔ (ev.type ≠ evSyn → s.releaseMap k = ev.code) ∧
        (s.releaseMap k = resetKeymap → p.currentKeymap = p.rootKeymap) := by
      rw [hmap]
      exact harmless_iff hwait hlast hkey hvalue hcode hmod
    rcases hcase with ⟨hreset, hs, rfl⟩ | ⟨hreset, _, hs, rfl⟩
    · -- the event is lost, and the keymap is reset
      rw [hs]
      refine ⟨hmap, Iff.trans ?_ hharmless.symm⟩
      have hown : s.releaseMap k ≠ ev.code := by
        rw [hreset, hcode]
        exact (codeOf_ne_resetKeymap k).symm
      show s.rootKeymap = p.currentKeymap ∧ (ev.type ≠ evSyn → [] = [ev]) ↔ _
      constructor
      · rintro ⟨hsame, hsent⟩
        exact ⟨fun hsyn => absurd (hsent hsyn) (by simp), fun _ => hsame.symm.trans hroot⟩
      · rintro ⟨hsent, hsame⟩
        exact ⟨hroot.trans (hsame hreset).symm, fun hsyn => absurd (hsent hsyn) hown⟩
    · -- the event is sent under the code of `release_map`
      rw [hs]
      refine ⟨hmap, Iff.trans ?_ hharmless.symm⟩
      have hsends : ev.type ≠ evSyn →
          others [{ ev with code := s.releaseMap k }, synEvent]
            = [{ ev with code := s.releaseMap k }] := by
        intro hsyn
        refine (List.filter_cons_of_pos ?_).trans rfl
        exact InputEvent.isOther_iff.mpr ⟨hkey, hsyn⟩
      constructor
      · rintro ⟨_, hsent⟩
        refine ⟨fun hsyn => ?_, fun h => absurd h hreset⟩
        have heq := (hsends hsyn).symm.trans (hsent hsyn)
        exact congrArg InputEvent.code (List.singleton_inj.mp heq)
      · rintro ⟨hsent, _⟩
        refine ⟨hcur, fun hsyn => (hsends hsyn).trans ?_⟩
        rw [hsent hsyn]

/-! ### Whole runs -/

/-- Every event that is taken early and is neither a key event nor an `EV_SYN` has its own code
    in `release_map`. -/
def OwnCodes (log : List Effect) : Prop :=
  ∀ ev code, .released ev code true ∈ log → ev.isOther = true → code = ev.code

theorem OwnCodes.left {log l : List Effect} (h : OwnCodes (log ++ l)) : OwnCodes log :=
  fun ev code hmem => h ev code (List.mem_append_left l hmem)

theorem OwnCodes.right {log l : List Effect} (h : OwnCodes (log ++ l)) : OwnCodes l :=
  fun ev code hmem => h ev code (List.mem_append_right log hmem)

theorem ownCodes_nil : OwnCodes [] := fun _ _ hmem => absurd hmem (by simp)

theorem OwnCodes.append {log l : List Effect} (h : OwnCodes log) (hl : OwnCodes l) :
    OwnCodes (log ++ l) := by
  intro ev code hmem
  rcases List.mem_append.mp hmem with hmem | hmem
  · exact h ev code hmem
  · exact hl ev code hmem

/-- What an event taken early sends, when it is sent under its own code. -/
theorem earlyRelease_others {s s' : KeyState} {ev : InputEvent} {l : List Effect}
    (h : earlyRelease s ev = some (s', l)) (hown : OwnCodes l) :
    others (sends l) = others [ev] := by
  obtain ⟨k, hcode, _, hcase⟩ := earlyRelease_eq_some h
  have hself : ev.isOther = true → s.releaseMap k = ev.code := by
    intro hother
    rcases hcase with ⟨_, _, rfl⟩ | ⟨_, _, _, rfl⟩ <;>
      exact hown ev _ List.mem_cons_self hother
  by_cases hother : ev.isOther = true
  · have hne : s.releaseMap k ≠ resetKeymap := by
      rw [hself hother, hcode]
      exact codeOf_ne_resetKeymap k
    rcases hcase with ⟨hreset, _, _⟩ | ⟨_, _, _, rfl⟩
    · exact absurd hreset hne
    · have hsame : ({ ev with code := s.releaseMap k } : InputEvent) = ev := by
        rw [hself hother]
      show others [{ ev with code := s.releaseMap k }, synEvent] = others [ev]
      rw [hsame]
      rw [others, others, List.filter_cons_of_pos hother, List.filter_cons_of_pos hother]
      rfl
  · -- nothing of what is sent is of interest
    have hnone : others [ev] = [] := List.filter_cons_of_neg hother
    rw [hnone]
    rcases hcase with ⟨_, _, rfl⟩ | ⟨_, _, _, rfl⟩
    · rfl
    · refine others_of_forall fun e he => ?_
      rcases List.mem_pair.mp he with rfl | rfl
      · exact Bool.eq_false_iff.mpr hother
      · rfl

/-- **Step.** A call of `resolve` sends the events it takes from the queue. -/
theorem plainResolve_others {now : Timeval} {p p' : PlainResolver} {b : Bool} {l : List Effect}
    (h : plainResolve earlyRelease now p = .ok (b, p', l)) (hown : OwnCodes l) :
    (others (sends l) ++ others p'.queue).Perm (others p.queue) := by
  rcases plainResolve_cases h with ⟨_, _, rfl, rfl⟩ | ⟨ev, rest, s', hq, _, rfl, hh⟩ |
    ⟨X, rest, newest, s₁, l₁, hq, _, hnewest, hh, hcase⟩
  · exact .refl _
  · -- the head of the queue: a key event, or one that is passed on
    rw [hq]
    by_cases hkey : ev.type = evKey
    · have hnone : ¬ ev.isOther = true := by simp [InputEvent.isOther_of_key hkey]
      have hrest : others (ev :: rest) = others rest := List.filter_cons_of_neg hnone
      rw [hh.others_sends hkey, hrest]
      exact .refl _
    · obtain ⟨_, _, rfl⟩ := plainResolve_passed hq hkey h
      show (others [ev] ++ others rest).Perm (others ([ev] ++ rest))
      rw [others_append]
  · -- the oldest event waits, and the newest may be taken
    have hpress : X.type = evKey := by
      cases hh with
      | waiting hpress _ _ _ => exact (InputEvent.isPress_iff.mp hpress).1
    have hwait := hh.others_sends hpress
    rcases hcase with ⟨_, rfl, rfl⟩ | ⟨s₂, l₂, hearly, rfl, rfl⟩
    · rw [hwait]
      exact .refl _
    · have hlast := queue_newest hq hnewest
      have hnew := earlyRelease_others hearly hown.right
      have htotal : others p.queue = others p.queue.dropLast ++ others [newest] := by
        rw [← others_append, ← hlast]
      rw [sends_append, others_append, hwait, hnew, htotal]
      exact List.perm_append_comm

/-- **Step.** What one event adds to the events sent and the events queued is itself. -/
theorem plainEvent_others {capacity : Option Nat} {clk : Nat → Timeval} {ev : InputEvent}
    {p p' : PlainResolver} {l : List Effect}
    (h : plainEvent earlyRelease capacity clk ev p = .ok (p', l)) (hown : OwnCodes l) :
    (others (sends l) ++ others p'.queue).Perm (others p.queue ++ others [ev]) := by
  obtain ⟨pass, s, hdedup, ⟨rfl, rfl, rfl⟩ | ⟨l', rfl, rfl, hloop⟩⟩ := plainEvent_cases h
  · -- only key events are dropped
    have hkey : ev.type = evKey := by
      by_contra hne
      rw [resolveDedupInput, if_pos hne] at hdedup
      exact absurd hdedup (by simp)
    have hnone : others [ev] = [] :=
      others_of_forall fun e he => by
        rw [List.mem_singleton.mp he]
        exact InputEvent.isOther_of_key hkey
    rw [hnone, List.append_nil]
    exact .refl _
  · have hown' : OwnCodes l' := fun e code hmem => hown e code (List.mem_cons_of_mem _ hmem)
    have hrun := Steps.loop_inv (fun log (p' : PlainResolver) => OwnCodes log →
        (others (sends log) ++ others p'.queue).Perm (others (p.queue ++ [ev])))
      (fun now again log p₁ p₂ l hinv hstep hown => by
        rw [sends_append, others_append, List.append_assoc]
        exact ((plainResolve_others hstep hown.right).append_left _).trans (hinv hown.left))
      [] (fun _ => .refl _) hloop
    rw [others_append] at hrun
    exact hrun hown'

/-- **Run.** The events sent and the events still queued are those that arrived. -/
theorem runPlain_others {capacity : Option Nat} {inputs : List Reading} {p p' : PlainResolver}
    {log : List Effect}
    (h : Steps.run (fun (i : Reading) => plainEvent earlyRelease capacity i.clk i.ev) inputs p
      = .ok (p', log)) (hown : OwnCodes log) :
    (others (sends log) ++ others p'.queue).Perm
      (others p.queue ++ others (inputs.map Reading.ev)) := by
  induction inputs generalizing p log with
  | nil =>
    obtain ⟨rfl, rfl⟩ := Steps.run_nil_ok.mp h
    exact .of_eq (List.append_nil _).symm
  | cons i inputs ih =>
    obtain ⟨p₁, l₁, l₂, hstep, hrest, rfl⟩ := Steps.run_cons_ok.mp h
    have h₁ := plainEvent_others hstep hown.left
    have h₂ := ih hrest hown.right
    calc others (sends (l₁ ++ l₂)) ++ others p'.queue
        = others (sends l₁) ++ (others (sends l₂) ++ others p'.queue) := by
          rw [sends_append, others_append, List.append_assoc]
      _ ~ others (sends l₁) ++ (others p₁.queue ++ others (inputs.map Reading.ev)) :=
          h₂.append_left _
      _ = (others (sends l₁) ++ others p₁.queue) ++ others (inputs.map Reading.ev) :=
          (List.append_assoc ..).symm
      _ ~ (others p.queue ++ others [i.ev]) ++ others (inputs.map Reading.ev) :=
          h₁.append_right _
      _ = others p.queue ++ others ((i :: inputs).map Reading.ev) := by
          rw [List.append_assoc, ← others_append]
          rfl

/-! ### Harmless runs -/

/-- `P` holds wherever `serve_loop` calls `resolve` for the event. -/
def CallsAll (P : Timeval → Resolver → Prop) (i : Reading) (r : Resolver) : Prop :=
  ∀ s, resolveDedupInput r.toKeyState i.ev = .ok (true, s) → r.urLen ≠ urMax →
    Steps.LoopAll resolve P (r.urLen + 2) i.clk (({ r with toKeyState := s } : Resolver).push i.ev)

/-- Every call of `resolve` in the run of the inputs starts in a harmless state. -/
def HarmlessRun (root : KeyAction) (inputs : List Reading) : Prop :=
  Steps.RunAll (fun (i : Reading) => serveEvent i.clk i.ev)
    (CallsAll fun now r => Harmless now r.plain) inputs (resolverInit root)

/-- **Step.** From a harmless state, an event that is taken early keeps its code. -/
theorem plainResolve_ownCodes {now : Timeval} {p p' : PlainResolver} {b : Bool} {l : List Effect}
    (h : plainResolve earlyRelease now p = .ok (b, p', l)) (hharmless : Harmless now p) :
    OwnCodes l := by
  rcases plainResolve_cases h with ⟨_, _, _, rfl⟩ | ⟨_, _, _, _, _, _, hh⟩ |
    ⟨X, rest, newest, s₁, l₁, hq, _, hnewest, hh, ⟨_, _, rfl⟩ | ⟨s₂, l₂, hearly, _, rfl⟩⟩
  · exact fun ev code hmem => absurd hmem (by simp)
  · exact fun ev code hmem => absurd hmem (hh.noEarly ev code)
  · exact fun ev code hmem => absurd hmem (hh.noEarly ev code)
  · -- only the branch for early releases can change a code
    intro ev code hmem hother
    obtain ⟨hkey, hsyn⟩ := InputEvent.isOther_iff.mp hother
    obtain ⟨rfl, evs, hl₂⟩ := hh.early_eq hearly hmem
    obtain ⟨hwait, hmap, _, _, _⟩ := hh.headWaits hq
    obtain ⟨k, hcode, hvalue, hcase⟩ := earlyRelease_eq_some hearly
    have hlast : p.queue.getLast? = some ev := by
      rw [queue_newest hq hnewest, List.getLast?_concat]
    have hmod : p.releaseMap k ∉ modifierKeys := by
      rw [← hmap]
      exact earlyRelease_not_modifier hearly hcode
    have hown : p.releaseMap k = ev.code :=
      (hharmless hwait ev k hlast hkey hvalue hcode hmod).1 hsyn
    have heq : code = s₁.releaseMap k := by
      rcases hcase with ⟨_, _, hl⟩ | ⟨_, _, _, hl⟩ <;>
        (have hhead := (List.cons.inj (hl₂.symm.trans hl)).1
         injection hhead)
    rw [heq, hmap]
    exact hown

/-- **One event.** The same for all calls that `serve_loop` makes for an event. -/
theorem serveEvent_ownCodes {i : Reading} {r r' : Resolver} {l : List Effect}
    (h : serveEvent i.clk i.ev r = .ok (r', l))
    (hall : CallsAll (fun now r => Harmless now r.plain) i r) : OwnCodes l := by
  unfold serveEvent at h
  obtain ⟨⟨pass, s⟩, hdedup, h⟩ := Steps.bind_eq_ok.mp h
  simp only at h
  split at h
  · rename_i hpass
    split at h
    · exact absurd h (by simp)
    · rename_i hroom
      obtain ⟨⟨r₁, log⟩, hloop, h⟩ := Steps.bind_eq_ok.mp h
      cases h
      have hcalls := hall s (by rw [hdedup, hpass]) hroom
      have hown := Steps.loop_inv_all (fun log _ => OwnCodes log)
        (fun now b log r r' l hown hharmless hstep =>
          hown.append (plainResolve_ownCodes (resolve_plain_ok hstep) hharmless))
        [] ownCodes_nil hcalls hloop
      intro ev code hmem
      exact hown ev code (List.mem_of_ne_of_mem (by simp) hmem)
  · cases h
    exact ownCodes_nil

/-- **Run.** In a harmless run, every event that is taken early keeps its code. -/
theorem HarmlessRun.ownCodes {root : KeyAction} {inputs : List Reading} {r : Resolver}
    {log : List Effect} (hall : HarmlessRun root inputs)
    (h : runResolver root inputs = .ok (r, log)) : OwnCodes log :=
  Steps.run_inv_all (fun log _ => OwnCodes log)
    (fun _ _ _ _ _ hown hcalls hstep => hown.append (serveEvent_ownCodes hstep hcalls))
    [] ownCodes_nil hall h

/-- A run is harmless if no event that is no key event has value 0. -/
theorem harmlessRun_of_values {root : KeyAction} {inputs : List Reading}
    (hin : ∀ i ∈ inputs, i.ev.type ≠ evKey → i.ev.value ≠ 0) : HarmlessRun root inputs := by
  have hcall : ∀ now (r : Resolver),
      Visited root (fun ev => ev.type ≠ evKey → ev.value ≠ 0) r → Harmless now r.plain := by
    intro now r hr _ ev k hlast hkey hvalue _ _
    exact absurd hvalue (hr.queue_good ev (List.mem_of_getLast? hlast) hkey)
  refine Steps.runAll_of_inv (Visited root fun ev => ev.type ≠ evKey → ev.value ≠ 0)
    (fun i hi _ _ _ hr hstep => serveEvent_visited hr (hin i hi) hstep) ?_ .init
  intro i hi r hr s hdedup hroom
  exact Steps.loopAll_of_inv _ (fun _ _ _ _ _ hr hstep => hr.resolved hstep) hcall _ _
    ((hr.filtered (hin i hi) hdedup).queued (hin i hi) hroom)

/-- **Events that are not key events.** A call of `resolve` that takes one, in whatever state,
    does not change `release_map`; it leaves the current keymap and sends the event as it is,
    unless it is an `EV_SYN`, exactly when the state is harmless.  In a run whose calls all
    start in harmless states, the events sent and the events still queued, as far as they are
    neither key events nor `EV_SYN`s, are exactly those that were read. -/
theorem others_pass_through (km : Keymap) :
    (∀ now r r' l ev, ev.type ≠ evKey → Took now r r' l ev →
      r'.releaseMap = r.releaseMap ∧
        (r'.currentKeymap = r.currentKeymap ∧ (ev.type ≠ evSyn → others (sends l) = [ev]) ↔
          Harmless now r.plain)) ∧
    ∀ inputs r log, runResolver km.root inputs = .ok (r, log) → HarmlessRun km.root inputs →
      (others (sends log) ++ others r.queue).Perm (others (inputs.map Reading.ev)) := by
  refine ⟨fun now r r' l ev hkey htook => ?_, fun inputs r log hrun hharmless => ?_⟩
  · cases htook with
    | oldest h hqueue =>
      exact plainResolve_nonKey hkey (resolve_plain_ok h) (.inl ⟨rfl, hqueue⟩)
    | newest h hqueue =>
      exact plainResolve_nonKey hkey (resolve_plain_ok h) (.inr ⟨rfl, hqueue⟩)
  · exact runPlain_others (runPlain_of_runResolver hrun) (hharmless.ownCodes hrun)

/-- The position `value` of the absolute axis `code`, an `EV_ABS`. -/
def absAt (ms : Nat) (code : UInt16) (value : Int32) : Reading :=
  let i := keyAt ms 0 value
  ⟨{ i.ev with type := 3, code := code }, i.clk⟩

/-- Axis 1 moves to 7 while a dual key is pending, and is sent when the key is decided. -/
theorem others_pass_through_axis :
    (∃ r' l, Took Timeval.zero { resolverInit (shiftOn45 .tapOnRollover).root with
        unresolved := fun _ => (absAt 0 1 7).ev, urLen := 1 } r' l (absAt 0 1 7).ev ∧
      others (sends l) = [(absAt 0 1 7).ev]) ∧
    ∃ r log, runResolver (shiftOn45 .tapOnRollover).root
        [keyAt 0 45 1, absAt 10 1 7, keyAt 300 45 0] = .ok (r, log) ∧
      (others (sends log) ++ others r.queue).Perm [(absAt 10 1 7).ev] := by
  constructor
  · obtain ⟨r', htook⟩ : ∃ r', Took Timeval.zero { resolverInit (shiftOn45 .tapOnRollover).root with
        unresolved := fun _ => (absAt 0 1 7).ev, urLen := 1 } r' [.send (absAt 0 1 7).ev]
        (absAt 0 1 7).ev := ⟨_, .oldest rfl rfl⟩
    have hcall := ((others_pass_through (shiftOn45 .tapOnRollover)).1 _ _ _ _ _ (by decide) htook).2
    have hsent := hcall.mpr fun hwait => absurd hwait (not_headWaits rfl (by decide))
    exact ⟨r', _, htook, hsent.2 (by decide)⟩
  · have hrun : (runResolver (shiftOn45 .tapOnRollover).root
        [keyAt 0 45 1, absAt 10 1 7, keyAt 300 45 0]).map (fun _ => true) = .ok true := by
      decide +kernel
    obtain ⟨⟨r, log⟩, hok, _⟩ := Steps.map_eq_ok hrun
    refine ⟨r, log, hok, (others_pass_through (shiftOn45 .tapOnRollover)).2 _ r log hok ?_⟩
    exact harmlessRun_of_values (by decide)

/-- Axis 1 moves to 0 behind a pending dual key: axis 0 is said to have moved.  Axis 38 moves
    to 0 behind a dual key that is pending in the layer of key 38: nothing is sent, and the
    layer, in which key 30 types 48, is left. -/
theorem axis_taken_for_release :
    (runResolver (shiftOn45 .tapOnRollover).root [keyAt 0 45 1, absAt 10 1 0]).map
        (fun x => (others (sends x.2), others x.1.queue)) = .ok ([(absAt 10 0 0).ev], []) ∧
    (runResolver layerOn38.root [keyAt 0 38 1, keyAt 10 45 1]).map
        (fun x => (keyActionGet x.1.currentKeymap 30).map KeyAction.code)
      = .ok (.ok (some 48)) ∧
    (runResolver layerOn38.root [keyAt 0 38 1, keyAt 10 45 1, absAt 20 38 0]).map
        (fun x => (others (sends x.2), others x.1.queue,
          (keyActionGet x.1.currentKeymap 30).map KeyAction.code))
      = .ok ([], [], .ok (some 30)) := by
  refine ⟨?_, ?_, ?_⟩
  · decide +kernel
  · decide +kernel
  · decide +kernel

end Sdiol
