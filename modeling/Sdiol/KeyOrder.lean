import Sdiol.Waveform
import Sdiol.Lib.Alternation

namespace Sdiol

/-!
# The presses and releases of one key

`resolve_dedup_input` counts the presses and releases of a key (`resolveDedupInput_counts`) and
lets them through in turn, whatever its keyboards send (`resolveDedupInput_key`); `resolve`
leaves the counts alone.  `Alternating` says that the resolver takes them from the queue in
turn as well: from what the resolver knows of key `k` (`keyDown`), the events of `k` still
queued alternate and end where `input_counts` says the key is.  A call of `resolve` keeps it if
what it takes early is behind no press of the same key (`TakenAfterPress`), and outside
`TIMEOUT_ONLY` that is so.

The hard case is a release removed at the end of the queue.  `Handled.no_press_before` shows
that no press of its key is queued, so the release is the only event of its key in the queue
(`newest_release`).
-/

open Alternation (settle settle_append settle_cons settle_no_press settle_press)

/-! ### The input filter -/

/-- The physical position of key `k`: some keyboard of the grab holds it. -/
def physDown (s : KeyState) (k : KeyCode) : Bool := decide (s.inputCounts k ≠ 0)

/-- What an edge of a key does to its count. -/
def countStep (count : Int) : Bool → Int
  | true => count + 1
  | false => if count = 0 then 0 else count - 1

/-- **The input filter.** A press raises the count of its key and passes at 0, a release lowers
    it and passes at 1; no other event changes a count, and it passes. -/
theorem resolveDedupInput_counts {s s' : KeyState} {ev : InputEvent} {pass : Bool}
    (h : resolveDedupInput s ev = .ok (pass, s')) (k : KeyCode) :
    s'.inputCounts k = (keyEdge k ev).elim (s.inputCounts k) (countStep (s.inputCounts k)) ∧
      ∀ e, keyEdge k ev = some e → pass = decide (s.inputCounts k = if e then 0 else 1) := by
  obtain ⟨counts, hdeduped, rfl⟩ := resolveDedupInput_deduped h
  show counts k = _ ∧ _
  cases hdeduped with
  | passed hedge =>
    rw [hedge k]
    exact ⟨rfl, fun e he => absurd he (by simp)⟩
  -- a release of a key that is not counted
  | stray j hrel hcode hzero =>
    rw [keyEdge_release hrel, hcode]
    by_cases hjk : j = k
    · subst hjk
      simp [countStep, hzero]
    · simp [hjk]
  -- the last keyboard that held the key gave it back, or another one still holds it
  | released j hrel hcode hheld =>
    rw [keyEdge_release hrel, hcode]
    by_cases hjk : j = k
    · subst hjk
      have hone : (s.inputCounts j - 1 = 0) ↔ (s.inputCounts j = 1) := by omega
      simp [countStep, hheld, hone]
    · simp [hjk, Function.update_of_ne (Ne.symm hjk)]
  | pressed j hpress hcode =>
    rw [keyEdge_press hpress, hcode]
    by_cases hjk : j = k
    · subst hjk
      simp [countStep]
    · simp [hjk, Function.update_of_ne (Ne.symm hjk)]

/-- What the input filter does to one key: counts stay nonnegative, an event that passes
    moves the key by its edge, and one that is dropped leaves the key where it is. -/
theorem resolveDedupInput_key {s s' : KeyState} {ev : InputEvent} {pass : Bool}
    (h : resolveDedupInput s ev = .ok (pass, s')) (hs : ∀ k, 0 ≤ s.inputCounts k) (k : KeyCode) :
    0 ≤ s'.inputCounts k ∧
      (pass = true → settle (physDown s k) (keyEdge k ev).toList = some (physDown s' k)) ∧
      (pass = false → physDown s' k = physDown s k) := by
  have hk := hs k
  obtain ⟨hcount, hpass⟩ := resolveDedupInput_counts h k
  cases hedge : keyEdge k ev with
  | none =>
    rw [hedge] at hcount
    have hsame : physDown s' k = physDown s k := by
      unfold physDown
      rw [hcount]
      rfl
    exact ⟨by rw [hcount]; exact hk, fun _ => congrArg some hsame.symm, fun _ => hsame⟩
  -- an edge passes exactly if it is the first press or the last release
  | some e =>
    rw [hpass e hedge]
    rw [hedge] at hcount
    cases e with
    | true =>
      have hcount : s'.inputCounts k = s.inputCounts k + 1 := hcount
      have hdown : s'.inputCounts k ≠ 0 := by omega
      refine ⟨by omega, fun htrue => ?_, fun hfalse => ?_⟩
      · have hzero : s.inputCounts k = 0 := of_decide_eq_true htrue
        simp [physDown, settle, hzero, hdown]
      · have hne : s.inputCounts k ≠ 0 := of_decide_eq_false hfalse
        simp [physDown, hne, hdown]
    | false =>
      have hcount : s'.inputCounts k = if s.inputCounts k = 0 then 0 else s.inputCounts k - 1 :=
        hcount
      refine ⟨by omega, fun htrue => ?_, fun hfalse => ?_⟩
      · have hone : s.inputCounts k = 1 := of_decide_eq_true htrue
        simp [physDown, settle, hcount, hone]
      · have hne : s.inputCounts k ≠ 1 := of_decide_eq_false hfalse
        have hsame : s'.inputCounts k = 0 ↔ s.inputCounts k = 0 := by omega
        simp [physDown, hsame]

/-! ### What the resolver does to one key -/

theorem keyEdge_of_repeat {k : KeyCode} {ev : InputEvent} (h : ev.value = 2) :
    keyEdge k ev = none := by
  simp [keyEdge, InputEvent.isPress, InputEvent.isRelease, h]

theorem keyEdge_of_ignored {ev : InputEvent}
    (h : ∀ k, ev.code = codeOf k → ev.isPress = false ∧ ev.isRelease = false) (k : KeyCode) :
    keyEdge k ev = none := by
  by_cases hk : ev.code = codeOf k
  · simp [keyEdge, (h k hk).1, (h k hk).2]
  · exact keyEdge_of_code_ne hk

theorem keyEdge_eq_some_true {k : KeyCode} {ev : InputEvent} (h : keyEdge k ev = some true) :
    ev.code = codeOf k ∧ ev.isPress = true := by
  unfold keyEdge at h
  split at h
  · rename_i hcode
    split at h
    · rename_i hpress
      exact ⟨hcode, hpress⟩
    · split at h <;> exact absurd h (by simp)
  · exact absurd h (by simp)

theorem keyEdge_eq_some_false {k : KeyCode} {ev : InputEvent} (h : keyEdge k ev = some false) :
    ev.code = codeOf k ∧ ev.isRelease = true := by
  unfold keyEdge at h
  split at h
  · rename_i hcode
    split at h
    · exact absurd h (by simp)
    · split at h
      · rename_i hrel
        exact ⟨hcode, hrel⟩
      · exact absurd h (by simp)
  · exact absurd h (by simp)

/-- Taking a release from the queue puts its key up and moves no other. -/
theorem downStep_released {ev : InputEvent} {code : UInt16} {early : Bool} {j : KeyCode}
    {d : Bool} : downStep j d (.released ev code early)
      = if ev.code = codeOf j ∧ ev.isRelease = true then false else d := rfl

/-- **Head.** Resolving the oldest event moves each key by the edge of that event. -/
theorem Handled.foldl_downStep {s s' : KeyState} {now : Timeval} {ev : InputEvent}
    {queued : List InputEvent} {l : List Effect} (h : Handled s now ev queued true s' l)
    (j : KeyCode) (d : Bool) : l.foldl (downStep j) d = (keyEdge j ev).getD d := by
  have hreleased : ev.isRelease = true →
      (if ev.code = codeOf j ∧ ev.isRelease = true then false else d)
        = (keyEdge j ev).getD d := by
    intro hrel
    rw [keyEdge_release hrel]
    by_cases hj : ev.code = codeOf j <;> simp [hj, hrel]
  cases h with
  | ignored hcode => rw [keyEdge_of_ignored hcode]; rfl
  | passed hkey => rw [keyEdge_of_not_key hkey]; rfl
  | repeated k hvalue _ _ _ => rw [keyEdge_of_repeat hvalue]; rfl
  | releasedLayer k hrel _ _ => exact hreleased hrel
  | releasedNothing k hrel _ _ => exact hreleased hrel
  | releasedCode k hrel _ _ _ => exact hreleased hrel
  | pressed hpress _ hchosen hacted =>
    rw [List.foldl_append, hchosen.foldl_downStep, hacted.foldl_downStep, keyEdge_press hpress]
    by_cases hj : ev.code = codeOf j <;> simp [hj]

theorem Handled.foldl_downStep_waiting {s s' : KeyState} {now : Timeval} {ev : InputEvent}
    {queued : List InputEvent} {l : List Effect} (h : Handled s now ev queued false s' l)
    (j : KeyCode) (d : Bool) : l.foldl (downStep j) d = d := by
  cases h with
  | waiting _ _ _ _ => rfl

/-- An event taken early leaves the input counts alone, and puts its key up if it is a key
    release. -/
theorem earlyRelease_key {s s' : KeyState} {ev : InputEvent} {l : List Effect}
    (h : earlyRelease s ev = some (s', l)) (j : KeyCode) (d : Bool) :
    s'.inputCounts = s.inputCounts ∧ s'.releaseMap = s.releaseMap ∧
      s'.rootKeymap = s.rootKeymap ∧
      l.foldl (downStep j) d = if keyEdge j ev = some false then false else d := by
  have hedge : (keyEdge j ev = some false) ↔ (ev.code = codeOf j ∧ ev.isRelease = true) := by
    constructor
    · exact keyEdge_eq_some_false
    · rintro ⟨hcode, hrel⟩
      rw [keyEdge_release hrel, if_pos hcode]
  obtain ⟨k, _, _, ⟨_, rfl, rfl⟩ | ⟨_, _, rfl, rfl⟩⟩ := earlyRelease_eq_some h
  · exact ⟨rfl, rfl, rfl, by simp only [List.foldl, downStep_released, hedge]⟩
  · exact ⟨rfl, rfl, rfl, by simp only [List.foldl, downStep, hedge]⟩

theorem Handled.inputCounts {s s' : KeyState} {now : Timeval} {ev : InputEvent}
    {queued : List InputEvent} {b : Bool} {l : List Effect}
    (h : Handled s now ev queued b s' l) : s'.inputCounts = s.inputCounts := by
  cases h with
  | pressed _ _ _ hacted => cases hacted <;> rfl
  | _ => rfl

/-- `resolve` queues nothing and does not touch the input counts. -/
theorem plainResolve_arrivals {now : Timeval} {p p' : PlainResolver} {b : Bool} {l : List Effect}
    (h : plainResolve earlyRelease now p = .ok (b, p', l)) :
    arrivals l = [] ∧ p'.inputCounts = p.inputCounts := by
  rcases plainResolve_cases h with ⟨_, _, rfl, rfl⟩ | ⟨ev, rest, s', _, _, rfl, hh⟩ |
    ⟨ev, rest, newest, s₁, l₁, _, _, _, hh, ⟨_, rfl, rfl⟩ | ⟨s₂, l₂, hearly, rfl, rfl⟩⟩
  · exact ⟨rfl, rfl⟩
  · exact ⟨hh.arrivals, hh.inputCounts⟩
  · exact ⟨hh.arrivals, hh.inputCounts⟩
  · refine ⟨?_, (earlyRelease_key hearly 0 false).1.trans hh.inputCounts⟩
    rw [arrivals_append, hh.arrivals, (earlyRelease_performed hearly).2]
    rfl

/-! ### The invariant -/

/-- The events of `k` in the queue alternate, from where the resolver has the key to where it
    physically is. -/
def KeyAlternates (log : List Effect) (p : PlainResolver) (k : KeyCode) : Prop :=
  settle (keyDown k log) (keyEdges k p.queue) = some (physDown p.toKeyState k)

/-- `KeyAlternates` for every key, with what its proof needs: nonnegative input counts and
    usable keymaps. -/
structure Alternating (P : DualConfig → Prop) (log : List Effect) (p : PlainResolver) : Prop where
  ready : Ready P p.toKeyState
  counts : ∀ k, 0 ≤ p.inputCounts k
  keys : ∀ k, KeyAlternates log p k

/-- A release that is taken early leaves no press of its key in the queue. -/
def TakenAfterPress (queue : List InputEvent) (l : List Effect) : Prop :=
  ∀ ev code k, .released ev code true ∈ l → keyEdge k ev = some false → true ∉ keyEdges k queue

/-- Outside `TIMEOUT_ONLY`, if the oldest event is left waiting and the newest is a release of
    `k`, then no press of `k` is queued. -/
theorem Handled.unqueued {s s₁ : KeyState} {now : Timeval} {ev newest : InputEvent}
    {rest : List InputEvent} {l : List Effect} (h : Handled s now ev rest false s₁ l)
    (hs : Ready RolloverMode s) (hnewest : newest = (ev :: rest).getLast (List.cons_ne_nil _ _))
    {k : KeyCode} (hnew : keyEdge k newest = some false) : true ∉ keyEdges k (ev :: rest) := by
  obtain ⟨hk, hrel⟩ := keyEdge_eq_some_false hnew
  -- the oldest event is a press, so it is not the newest
  have hpress : ev.isPress = true := by
    cases h with
    | waiting hpress _ _ _ => exact hpress
  have hrest : rest ≠ [] := by
    rintro rfl
    have hev : newest = ev := by simpa using hnewest
    rw [← hev, isPress_of_isRelease hrel] at hpress
    exact absurd hpress (by simp)
  have hsplit : rest = rest.dropLast ++ [newest] := by
    have hget : newest = rest.getLast hrest := by
      rw [hnewest, List.getLast_cons hrest]
    rw [hget]
    exact (List.dropLast_append_getLast hrest).symm
  have hno := h.no_press_before hs hsplit hrel hk
  have hqueue : ev :: rest = (ev :: rest.dropLast) ++ [newest] := by
    rw [List.cons_append, ← hsplit]
  intro hmem
  obtain ⟨e, he, hedge⟩ := List.mem_filterMap.mp hmem
  rw [hqueue] at he
  rcases List.mem_append.mp he with he | he
  · obtain ⟨hcode, hpr⟩ := keyEdge_eq_some_true hedge
    exact hno e he hpr hcode
  · rw [List.mem_singleton.mp he, keyEdge_release hrel, if_pos hk] at hedge
    exact absurd hedge (by simp)

theorem earlyRelease_taken {s s' : KeyState} {ev : InputEvent} {l : List Effect}
    (h : earlyRelease s ev = some (s', l)) : ∃ code, .released ev code true ∈ l := by
  obtain ⟨code, evs, rfl⟩ := earlyRelease_log h
  exact ⟨code, List.mem_cons_self⟩

/-- Outside `TIMEOUT_ONLY`, every release that is taken early leaves no press of its key in the
    queue. -/
theorem plainResolve_takenAfterPress {now : Timeval} {p p' : PlainResolver} {b : Bool}
    {l : List Effect} (hp : Ready RolloverMode p.toKeyState)
    (h : plainResolve earlyRelease now p = .ok (b, p', l)) : TakenAfterPress p.queue l := by
  have hs : Ready RolloverMode { p.toKeyState with useResolvableTime := false } :=
    hp.of_eq rfl rfl rfl
  intro rel code k hmem hedge
  rcases plainResolve_cases h with ⟨_, _, _, rfl⟩ | ⟨ev, rest, s', _, _, _, hh⟩ |
    ⟨ev, rest, newest, s₁, l₁, hqueue, _, hnewest, hh, ⟨_, _, rfl⟩ | ⟨s₂, l₂, hearly, _, rfl⟩⟩
  · exact absurd hmem (by simp)
  · exact absurd hmem (hh.noEarly rel code)
  · exact absurd hmem (hh.noEarly rel code)
  · obtain ⟨rfl, _⟩ := hh.early_eq hearly hmem
    rw [hqueue]
    exact hh.unqueued hs hnewest hedge

/-- **Newest release.** If the newest event is a release of `k` and no press of `k` is queued,
    then that release is the only event of `k` in the queue, and the resolver has `k` down. -/
theorem newest_release {P : DualConfig → Prop} {log : List Effect} {p : PlainResolver}
    {newest : InputEvent} (hp : Alternating P log p)
    (hsplit : p.queue = p.queue.dropLast ++ [newest]) {k : KeyCode}
    (hedge : keyEdge k newest = some false) (hno : true ∉ keyEdges k p.queue) :
    keyEdges k p.queue.dropLast = [] ∧ keyDown k log = true ∧
      physDown p.toKeyState k = false := by
  have hend : keyEdges k p.queue = keyEdges k p.queue.dropLast ++ [false] := by
    calc keyEdges k p.queue = keyEdges k (p.queue.dropLast ++ [newest]) := by rw [← hsplit]
      _ = keyEdges k p.queue.dropLast ++ [false] := by
        rw [keyEdges_append, keyEdges_cons, hedge]
        rfl
  rcases settle_no_press (hp.keys k) hno with ⟨hnil, _⟩ | ⟨hone, hdown, hphys⟩
  · rw [hend] at hnil
    exact absurd hnil (by simp)
  · rw [hend] at hone
    refine ⟨?_, hdown, hphys⟩
    simpa using hone

theorem settle_getD {d b : Bool} {e : Option Bool} {l : List Bool}
    (h : settle d (e.toList ++ l) = some b) : settle (e.getD d) l = some b := by
  cases e with
  | none => exact h
  | some e => exact (settle_cons.mp h).2

/-- **Step.** One call of `resolve` keeps the invariant. -/
theorem plainResolve_alternating {P : DualConfig → Prop} {now : Timeval} {log : List Effect}
    {p p' : PlainResolver} {b : Bool} {l : List Effect} (hp : Alternating P log p)
    (h : plainResolve earlyRelease now p = .ok (b, p', l)) (htaken : TakenAfterPress p.queue l) :
    Alternating P (log ++ l) p' := by
  have hready := plainResolve_ready h hp.ready
  rcases plainResolve_cases h with ⟨_, _, rfl, rfl⟩ | ⟨ev, rest, s', hqueue, _, rfl, hh⟩ |
    ⟨ev, rest, newest, s₁, l₁, hqueue, _, hnewest, hh, hearly⟩
  · -- nothing is queued
    rwa [List.append_nil]
  · -- the first edge of the queue becomes the last one of the log
    have hcounts : s'.inputCounts = p.inputCounts := hh.inputCounts
    refine ⟨hready, fun k => by simp only [hcounts]; exact hp.counts k, fun k => ?_⟩
    have hk := hp.keys k
    unfold KeyAlternates at hk ⊢
    rw [hqueue, keyEdges_cons] at hk
    rw [keyDown_append, hh.foldl_downStep k]
    simp only [physDown, hcounts]
    exact settle_getD hk
  · -- the oldest event waits, and the newest may be taken
    have hcounts : s₁.inputCounts = p.inputCounts := hh.inputCounts
    rcases hearly with ⟨_, rfl, rfl⟩ | ⟨s₂, l₂, hearly, rfl, rfl⟩
    · refine ⟨hready, fun k => by simp only [hcounts]; exact hp.counts k, fun k => ?_⟩
      unfold KeyAlternates
      rw [keyDown_append, hh.foldl_downStep_waiting k]
      simp only [physDown, hcounts]
      exact hp.keys k
    · refine ⟨hready, fun k => ?_, fun k => ?_⟩
      · have hcounts₂ := (earlyRelease_key hearly k false).1
        simp only [hcounts₂, hcounts]
        exact hp.counts k
      · obtain ⟨hcounts₂, _, _, hdown⟩ :=
          earlyRelease_key hearly k (l₁.foldl (downStep k) (keyDown k log))
        have hphys : physDown s₂ k = physDown p.toKeyState k := by
          simp only [physDown, hcounts₂, hcounts]
        unfold KeyAlternates
        rw [keyDown_append, List.foldl_append, hdown, hh.foldl_downStep_waiting k, hphys]
        have hsplit := queue_newest hqueue hnewest
        by_cases hedge : keyEdge k newest = some false
        · -- the release of `k` itself
          obtain ⟨code, hmem⟩ := earlyRelease_taken hearly
          obtain ⟨hnil, _, hup⟩ := newest_release hp hsplit hedge
            (htaken newest code k (List.mem_append_right _ hmem) hedge)
          rw [if_pos hedge, hup]
          simp only [hnil, settle]
        · -- the newest event has no edge at `k`
          have hnone : keyEdge k newest = none := by
            cases hk : keyEdge k newest with
            | none => rfl
            | some e =>
              cases e with
              | false => exact absurd hk hedge
              | true =>
                obtain ⟨j, _, hvalue, _⟩ := earlyRelease_eq_some hearly
                have hpr := (keyEdge_eq_some_true hk).2
                rw [isPress_of_value_zero hvalue] at hpr
                exact absurd hpr (by simp)
          have hedges : keyEdges k p.queue.dropLast = keyEdges k p.queue := by
            have hlast := congrArg (keyEdges k) hsplit
            rw [keyEdges_append, keyEdges_cons, hnone, Option.toList_none, keyEdges_nil,
              List.append_nil, List.append_nil] at hlast
            exact hlast.symm
          rw [if_neg hedge]
          simp only [hedges]
          exact hp.keys k

section Input

variable {P : DualConfig → Prop}

theorem alternating_init {root : KeyAction} (hmap : root.isMap = true) (hroot : root.Usable P) :
    Alternating P [] ⟨KeyState.init root, []⟩ :=
  ⟨ready_init hmap hroot, fun _ => le_rfl, fun _ => rfl⟩

theorem alternating_drop {log : List Effect} {p : PlainResolver} {ev : InputEvent} {s : KeyState}
    (hp : Alternating P log p) (h : resolveDedupInput p.toKeyState ev = .ok (false, s)) :
    Alternating P log ⟨s, p.queue⟩ := by
  refine ⟨?_, fun k => (resolveDedupInput_key h hp.counts k).1, fun k => ?_⟩
  · obtain ⟨counts, rfl⟩ := resolveDedupInput_eq h
    exact hp.ready.of_eq rfl rfl rfl
  · have hphys := (resolveDedupInput_key h hp.counts k).2.2 rfl
    unfold KeyAlternates
    rw [hphys]
    exact hp.keys k

theorem alternating_arrive {log : List Effect} {p : PlainResolver} {ev : InputEvent}
    {s : KeyState} (hp : Alternating P log p)
    (h : resolveDedupInput p.toKeyState ev = .ok (true, s)) :
    Alternating P (log ++ [.arrive ev]) ⟨s, p.queue ++ [ev]⟩ := by
  refine ⟨?_, fun k => (resolveDedupInput_key h hp.counts k).1, fun k => ?_⟩
  · obtain ⟨counts, rfl⟩ := resolveDedupInput_eq h
    exact hp.ready.of_eq rfl rfl rfl
  · have hedge := (resolveDedupInput_key h hp.counts k).2.1 rfl
    unfold KeyAlternates
    rw [keyEdges_append, settle_append, keyDown_append]
    refine ⟨physDown p.toKeyState k, hp.keys k, ?_⟩
    rw [keyEdges_cons, keyEdges_nil, List.append_nil]
    exact hedge

end Input

end Sdiol
