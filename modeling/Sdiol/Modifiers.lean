import Sdiol.Ledger
import Sdiol.Serve
import Sdiol.Lib.Thinning

namespace Sdiol

/-!
# Modifiers cover the keys pressed under them

In every dual mode the shared filter counts a modifier code at least as often as `release_map`
entries of all grabs hold it (`mapped`): a simple press adds one to the count and at most one
to the entries, a release gives back the entry of its key, and the early branch leaves the
entries that hold modifiers alone.

The entry of a key stays what its latest press wrote until a release of that key is resolved
at the head of the queue.  `Kept` says so in terms of the order of arrival: the queue is what
arrived after some point, without releases that were taken early (`Thinned`), and every key
whose last edge before that point is a press has the entry its press wrote.

`modifiers_cover` puts the two together: when a press is acted on that arrived between the
press and the release of a modifier, the modifier is counted.
-/

open Alternation (settle settle_append settle_cons)
open Counter (Backs backs_nil backs_press backs_release backs_balanced bump tally tally_change)
open Steps (Along along_nil along_cons)
open Thinning (Thinned)

/-! ### Entries of `release_map` -/

/-- The entry of key `k` in `release_map` is the code `m`. -/
def enters (m : KeyCode) (s : KeyState) (k : KeyCode) : Bool := decide (s.releaseMap k = codeOf m)

/-- The number of keys whose entry in `release_map` is the code `m`. -/
def mapped (m : KeyCode) (s : KeyState) : Nat := tally (enters m s)

theorem mapped_of_eq {m : KeyCode} {s s' : KeyState} (h : s'.releaseMap = s.releaseMap) :
    mapped m s' = mapped m s := by
  have hsame : enters m s' = enters m s := by
    funext k
    rw [enters, enters, h]
  rw [mapped, mapped, hsame]

/-- A new entry for `k` replaces the old one. -/
theorem mapped_update {m k : KeyCode} {s s' : KeyState} {code : UInt16}
    (h : s'.releaseMap = Function.update s.releaseMap k code) :
    mapped m s' + (decide (s.releaseMap k = codeOf m)).toNat
      = mapped m s + (decide (code = codeOf m)).toNat := by
  have hchange : mapped m s' + (enters m s k).toNat = mapped m s + (enters m s' k).toNat := by
    refine tally_change fun j hj => ?_
    rw [enters, enters, h, Function.update_of_ne hj]
  rwa [enters, enters, h, Function.update_self] at hchange

theorem zero_notMem_modifierKeys : (0 : UInt16) ∉ modifierKeys := by decide

theorem ne_zero_of_modifier {m : KeyCode} (hm : codeOf m ∈ modifierKeys) : m ≠ 0 := by
  rintro rfl
  exact zero_notMem_modifierKeys hm

section Backing

variable {P : DualConfig → Prop} {s s' : KeyState} {now : Timeval} {ev : InputEvent}
  {queued : List InputEvent} {l : List Effect} {m : KeyCode}

/-- **Head.** Resolving the oldest event lowers the counter of `m` only by what its key had
    entered. -/
theorem Handled.backs (h : Handled s now ev queued true s' l) (hs : Ready P s) (hm : m ≠ 0) :
    Backs (mapped m s) (keyEdges m (sends l)) (mapped m s') := by
  rcases h.summary hs m with ⟨_, hmap, _, hsent⟩ | ⟨k, _, _, hmap, _, hsent⟩ |
    ⟨k, ka, _, _, _, _, ⟨d, _, hmap, hsent⟩ | ⟨ch, _, hmap, hsent⟩ | ⟨map, _, hmap, hsent⟩⟩
  · -- no edge
    rw [hsent, mapped_of_eq hmap]
    exact backs_nil _
  · -- a release: the entry of its key is cleared
    have hchange := mapped_update (m := m) hmap
    have hzero : ¬ (0 : UInt16) = codeOf m := fun h => codeOf_ne_zero hm h.symm
    rw [decide_eq_false hzero, Bool.toNat_false, add_zero] at hchange
    rw [hsent]
    by_cases hk : s.releaseMap k = codeOf m
    · rw [if_pos ⟨hk, hm⟩, ← hchange, decide_eq_true hk, Bool.toNat_true]
      exact backs_release _
    · rw [if_neg fun h => hk h.1]
      exact (backs_nil _).anti (by omega)
  · have hchange := mapped_update (m := m) hmap
    rw [hsent]
    by_cases hd : d = m
    · rw [if_pos hd]
      rw [decide_eq_true (codeOf_inj.mpr hd), Bool.toNat_true] at hchange
      exact (backs_press _).anti (by omega)
    · rw [if_neg hd]
      rw [decide_eq_false fun h => hd (codeOf_inj.mp h), Bool.toNat_false] at hchange
      exact (backs_nil _).anti (by omega)
  · -- a macro enters nothing
    rw [mapped_of_eq hmap]
    exact backs_balanced _ hsent
  · have hchange := mapped_update (m := m) hmap
    have hreset : ¬ resetKeymap = codeOf m := fun h => codeOf_ne_resetKeymap m h.symm
    rw [decide_eq_false hreset, Bool.toNat_false] at hchange
    rw [hsent]
    exact (backs_nil _).anti (by omega)

/-- **Tail.** A release taken early is no release of a modifier. -/
theorem earlyRelease_backs (h : earlyRelease s ev = some (s', l)) (hm : codeOf m ∈ modifierKeys) :
    keyEdges m (sends l) = [] ∧ mapped m s' = mapped m s := by
  refine ⟨?_, mapped_of_eq (earlyRelease_key h 0 false).2.1⟩
  obtain ⟨k, hcode, ⟨l', hl, _⟩, hsent⟩ := earlyRelease_summary h m
  obtain ⟨j, hj, _, ⟨hreset, _, _⟩ | ⟨_, hmod, _, _⟩⟩ := earlyRelease_eq_some h
  · obtain rfl := codeOf_injective (hj.symm.trans hcode)
    rw [hsent, if_neg fun hc => codeOf_ne_resetKeymap m (hc.2.symm.trans hreset)]
  · obtain rfl := codeOf_injective (hj.symm.trans hcode)
    rw [hsent, if_neg fun hc => hmod (by rw [hc.2]; exact hm)]

/-- **One call.** What `resolve` takes from the counter of `m` was entered for some key. -/
theorem plainResolve_backs {p p' : PlainResolver} {b : Bool} (hp : Ready P p.toKeyState)
    (h : plainResolve earlyRelease now p = .ok (b, p', l)) (hm : codeOf m ∈ modifierKeys) :
    Backs (mapped m p.toKeyState) (keyEdges m (sends l)) (mapped m p'.toKeyState) := by
  have hs : Ready P { p.toKeyState with useResolvableTime := false } := hp.of_eq rfl rfl rfl
  rcases plainResolve_cases h with ⟨_, _, rfl, rfl⟩ | ⟨ev, rest, s', _, _, rfl, hh⟩ |
    ⟨ev, rest, newest, s₁, l₁, _, _, _, hh, hearly⟩
  · exact backs_nil _
  · exact hh.backs hs (ne_zero_of_modifier hm)
  · -- the oldest event waits, and the newest may be taken
    obtain ⟨hmap, _, _, hsent, _, _⟩ := hh.waiting_eq
    have hsame : mapped m s₁ = mapped m p.toKeyState := mapped_of_eq hmap
    rcases hearly with ⟨_, rfl, rfl⟩ | ⟨s₂, l₂, hearly, rfl, rfl⟩
    · rw [hsent, hsame]
      exact backs_nil _
    · obtain ⟨hsent₂, hmap₂⟩ := earlyRelease_backs hearly hm
      rw [sends_append, hsent, List.nil_append, hsent₂, hmap₂, hsame]
      exact backs_nil _

end Backing

/-! ### The order of arrival -/

/-- The resolver has got through `past` and not yet through `future`: the queue is `future`
    without releases that were taken early, the presses of `past` were acted on, and a key
    whose last edge in `past` is a press has the entry that its press wrote. -/
structure Reached (log : List Effect) (p : PlainResolver) (past future : List InputEvent) :
    Prop where
  arrived : arrivals log = past ++ future
  queued : Thinned (fun _ ev => ev.value = 0) [] future p.queue
  acted : (performed log).map Prod.fst = presses past
  entries : ∀ k c, (keyEdges k past).getLast? = some true →
    lastAction k log = some (.ktSimple c) → p.releaseMap k = codeOf c

/-- The resolver has got to some point in the order of arrival. -/
def Kept (log : List Effect) (p : PlainResolver) : Prop := ∃ past future, Reached log p past future

theorem presses_eq_nil {evs : List InputEvent} (h : ∀ ev ∈ evs, ev.value = 0) :
    presses evs = [] := by
  refine List.filter_eq_nil_iff.mpr fun ev hev => ?_
  rw [isPress_of_value_zero (h ev hev)]
  exact Bool.false_ne_true

/-- Events that are no presses do not put a press last. -/
theorem getLast?_of_append {k : KeyCode} {l₁ l₂ : List InputEvent} (hl₂ : presses l₂ = [])
    (h : (keyEdges k (l₁ ++ l₂)).getLast? = some true) : (keyEdges k l₁).getLast? = some true := by
  rw [keyEdges_append, List.getLast?_append] at h
  cases hlast : (keyEdges k l₂).getLast? with
  | none => rwa [hlast, Option.none_or] at h
  | some e =>
    rw [hlast, Option.some_or] at h
    cases h
    obtain ⟨ev, hev, hedge⟩ := List.mem_filterMap.mp (List.mem_of_getLast? hlast)
    have hpress := (keyEdge_eq_some_true hedge).2
    exact absurd hl₂ (List.ne_nil_of_mem (List.mem_filter.mpr ⟨hev, hpress⟩))

section Order

variable {log l : List Effect} {p : PlainResolver} {past future : List InputEvent}

/-- The oldest event of the queue is the next one to arrive that was not taken early. -/
theorem Reached.head (h : Reached log p past future) {ev : InputEvent} {rest : List InputEvent}
    (hqueue : p.queue = ev :: rest) : ∃ past' future', Reached log p past' (ev :: future') ∧
      Thinned (fun _ ev => ev.value = 0) [] future' rest := by
  have hthin := h.queued
  rw [hqueue] at hthin
  obtain ⟨f₁, f₂, rfl, hf₁, hf₂⟩ := hthin.head
  have hvalue : ∀ e ∈ f₁, e.value = 0 := by
    intro e he
    exact (hf₁.mem_or_dropped (fun _ _ hx => hx) e he).resolve_left (by simp)
  have hrest : Thinned (fun _ ev => ev.value = 0) [] f₂ rest := hf₂.mono fun _ _ hx => hx
  refine ⟨past ++ f₁, f₂, ⟨?_, ?_, ?_, fun k c hlast => ?_⟩, hrest⟩
  · rw [h.arrived, List.append_assoc]
  · rw [hqueue]
    exact .keep ev (hrest.mono fun _ _ hx => hx)
  · rw [presses_append, presses_eq_nil hvalue, List.append_nil]
    exact h.acted
  · exact h.entries k c (getLast?_of_append (presses_eq_nil hvalue) hlast)

/-- **Head.** Resolving the oldest event gets one further. -/
theorem Handled.reached {now : Timeval} {ev : InputEvent} {queued : List InputEvent}
    {s s' : KeyState} {P : DualConfig → Prop} (hh : Handled s now ev queued true s' l)
    (hs : Ready P s) (hev : CodeInRange ev) (hmap : s.releaseMap = p.releaseMap)
    (h : Reached log p past (ev :: future))
    (hthin : Thinned (fun _ ev => ev.value = 0) [] future queued) :
    Reached (log ++ l) ⟨s', queued⟩ (past ++ [ev]) future := by
  refine ⟨?_, hthin, ?_, fun k c hlast haction => ?_⟩
  · rw [arrivals_append, hh.arrivals, List.append_nil, h.arrived, List.append_assoc,
      List.singleton_append]
  · rw [performed_append, List.map_append, hh.performed hev, h.acted, presses_append]
  · rw [lastAction_append] at haction
    by_cases hk : ev.code = codeOf k
    · rcases hh.summary hs c with ⟨hedge, hmap', _, _⟩ | ⟨j, hj, hrel, _, _, _⟩ |
        ⟨j, ka, hj, hpress, _, hacts, hcase⟩
      · -- an event of `k` that does not move `k`
        have hidle : presses [ev] = [] := by
          refine List.filter_eq_nil_iff.mpr fun e he hpress => ?_
          obtain rfl := List.mem_singleton.mp he
          have hnone := hedge k
          rw [keyEdge_press hpress, if_pos hk] at hnone
          exact absurd hnone (by simp)
        have hsame : l.foldl (actionStep k) (lastAction k log) = lastAction k log := by
          refine hh.foldl_actionStep ?_ k _
          by_contra hcon
          have hmem : ev ∈ presses [ev] :=
            List.mem_filter.mpr ⟨List.mem_singleton_self ev, by simpa using hcon⟩
          rw [hidle] at hmem
          exact absurd hmem (by simp)
        rw [hsame] at haction
        show s'.releaseMap k = codeOf c
        rw [hmap', hmap]
        exact h.entries k c (getLast?_of_append hidle hlast) haction
      · -- a release of `k` leaves no press last
        have hedge : keyEdges k [ev] = [false] := by
          rw [keyEdges_cons, keyEdge_release hrel, if_pos hk]
          rfl
        rw [keyEdges_append, hedge, List.getLast?_append] at hlast
        exact absurd hlast (by simp)
      · -- a press of `k` writes the entry of its action
        obtain rfl := codeOf_injective (hj.symm.trans hk)
        rw [hacts] at haction
        obtain rfl := Option.some.inj haction
        rcases hcase with ⟨d, hd, hmap', _⟩ | ⟨ch, hch, _⟩ | ⟨map, hm, _⟩
        · obtain rfl := KeyAction.ktSimple.inj hd
          show s'.releaseMap j = codeOf c
          rw [hmap', Function.update_self]
        · exact absurd hch (by simp)
        · exact absurd hm (by simp)
    · -- another key
      obtain ⟨hsame, hacts⟩ := hh.other hk
      have hnone : keyEdges k [ev] = [] := by
        rw [keyEdges_cons, keyEdge_of_code_ne hk]
        rfl
      rw [keyEdges_append, hnone, List.append_nil] at hlast
      rw [hacts] at haction
      show s'.releaseMap k = codeOf c
      rw [hsame, hmap]
      exact h.entries k c hlast haction

/-- Effects that concern no arrival and no press get the resolver nowhere. -/
theorem Reached.idle (h : Reached log p past future) {p' : PlainResolver}
    (harrived : arrivals l = []) (hacted : performed l = [])
    (haction : ∀ k a, l.foldl (actionStep k) a = a) (hmap : p'.releaseMap = p.releaseMap)
    (hqueue : Thinned (fun _ ev => ev.value = 0) [] future p'.queue) :
    Reached (log ++ l) p' past future := by
  refine ⟨?_, hqueue, ?_, fun k c hlast hact => ?_⟩
  · rw [arrivals_append, harrived, List.append_nil]
    exact h.arrived
  · rw [performed_append, hacted, List.append_nil]
    exact h.acted
  · rw [lastAction_append, haction] at hact
    rw [hmap]
    exact h.entries k c hlast hact

/-- **Step.** One call of `resolve` keeps to the order of arrival. -/
theorem plainResolve_kept {P : DualConfig → Prop} {now : Timeval} {p' : PlainResolver} {b : Bool}
    (hp : RunReady P p) (hk : Kept log p) (h : plainResolve earlyRelease now p = .ok (b, p', l)) :
    Kept (log ++ l) p' := by
  have hs : Ready P { p.toKeyState with useResolvableTime := false } := hp.1.of_eq rfl rfl rfl
  obtain ⟨past, future, hk⟩ := hk
  rcases plainResolve_cases h with ⟨_, _, rfl, rfl⟩ | ⟨ev, rest, s', hqueue, _, rfl, hh⟩ |
    ⟨ev, rest, newest, s₁, l₁, hqueue, _, hnewest, hh, hearly⟩
  · rw [List.append_nil]
    exact ⟨past, future, hk⟩
  · -- the head of the queue is the next of the events that arrived
    obtain ⟨past', future', hk, hthin⟩ := hk.head hqueue
    have hev : CodeInRange ev := hp.2 ev (hqueue ▸ List.mem_cons_self)
    exact ⟨_, _, hh.reached hs hev rfl hk hthin⟩
  · -- the oldest event waits: if a release is taken, it is missing from the queue
    obtain ⟨hmap, _, _, _, _, haction⟩ := hh.waiting_eq
    have hk₁ : Reached (log ++ l₁) ⟨s₁, p.queue⟩ past future :=
      hk.idle hh.arrivals hh.performed_waiting haction hmap hk.queued
    rcases hearly with ⟨_, rfl, rfl⟩ | ⟨s₂, l₂, hearly, rfl, rfl⟩
    · exact ⟨past, future, hk₁⟩
    · obtain ⟨_, _, hvalue, _⟩ := earlyRelease_eq_some hearly
      obtain ⟨hacted, harrived⟩ := earlyRelease_performed hearly
      have hthin := hk.queued
      rw [queue_newest hqueue hnewest] at hthin
      rw [← List.append_assoc]
      refine ⟨past, future, hk₁.idle harrived hacted (earlyRelease_actionStep hearly)
        (earlyRelease_key hearly 0 false).2.1 ?_⟩
      exact hthin.drop_last fun _ _ _ => hvalue

end Order

/-! ### The filter while a press is acted on -/

variable {n : Nat}

/-- The presses and releases an action sends never release what they have not pressed. -/
theorem actionSends_covered {P : DualConfig → Prop} {ev : InputEvent} {ka : KeyAction}
    (hpress : ev.isPress = true) (hka : ka.Usable P) (c : KeyCode) :
    Counter.Covered 0 (keyEdges c (actionSends ev ka)) := by
  cases ka with
  | ktSimple d =>
    rw [keyEdges_simple hpress]
    split
    · exact Counter.covered_cons.mpr ⟨le_rfl, Counter.covered_nil (by simp)⟩
    · exact Counter.covered_nil le_rfl
  | ktMacro ch =>
    rw [keyEdges_chain]
    exact (hka.1 c).1
  | _ => exact Counter.covered_nil le_rfl

/-- Where the press `P` of a key is acted on: what arrived before it was got through, and if
    the last edge of some key until then is a press that was acted on as `m`, then `m` is
    counted, before the action and after each event that the action sends. -/
def CountedAt (m : KeyCode) (before : List (Fin n × Effect)) (g : Fin n) (P : InputEvent)
    (act : KeyAction) : Prop :=
  P.isPress = true ∧ (∃ k, P.code = codeOf k) ∧ (∀ e ∈ actionSends P act, CodeInRange e) ∧
  ∃ past future, arrivals (logOf g before) = past ++ P :: future ∧
    (performed (logOf g before)).map Prod.fst = presses past ∧
    ∀ k, (keyEdges k past).getLast? = some true →
      lastAction k (logOf g before) = some (.ktSimple m) →
      ∀ q, q <+: actionSends P act → 1 ≤ (keyEdges m (allSends before ++ q)).foldl bump 0

/-- `CountedAt` for every press a run acts on. -/
def Covering (m : KeyCode) (before : List (Fin n × Effect)) (x : Fin n × Effect)
    (_after : List (Fin n × Effect)) : Prop :=
  ∀ P act, x.2 = .keypress P act → CountedAt m before x.1 P act

/-- Effects that act on no press. -/
theorem covering_of_performed {m : KeyCode} {log : List (Fin n × Effect)} {g : Fin n}
    {l : List Effect} (h : performed l = []) :
    Along (fun l₁ => Covering m (log ++ l₁)) (l.map (Prod.mk g)) := by
  refine Steps.along_of_forall fun x hx _ _ P act hkey => ?_
  obtain ⟨e, he, rfl⟩ := List.mem_map.mp hx
  have hmem : (P, act) ∈ performed l :=
    List.mem_filterMap.mpr ⟨e, he, by simp only at hkey; rw [hkey]⟩
  rw [h] at hmem
  exact absurd hmem (by simp)

/-- The invariant of all grabs: what the filter counts for the modifier `m` is at least what
    the grabs have entered for it. -/
structure Guarded (m : KeyCode) (log : List (Fin n × Effect)) (ps : Fin n → PlainResolver) :
    Prop where
  ready : ∀ g, RunReady (fun _ => True) (ps g)
  kept : ∀ g, Kept (logOf g log) (ps g)
  bound : ∑ g, (mapped m (ps g).toKeyState : Int) ≤ (keyEdges m (allSends log)).foldl bump 0
  covering : Along (Covering m) log

section Global

variable {m : KeyCode} {log : List (Fin n × Effect)} {ps : Fin n → PlainResolver} {g : Fin n}
  {l : List Effect}

/-- A step of one grab. -/
theorem Guarded.step (h : Guarded m log ps) {p : PlainResolver}
    (hready : RunReady (fun _ => True) p) (hkept : Kept (logOf g log ++ l) p)
    (hbacks : Backs (mapped m (ps g).toKeyState) (keyEdges m (sends l)) (mapped m p.toKeyState))
    (hcovering : Along (fun l₁ => Covering m (log ++ l₁)) (l.map (Prod.mk g))) :
    Guarded m (log ++ l.map (Prod.mk g)) (Function.update ps g p) := by
  refine ⟨fun j => ?_, forall_update h.kept hkept, ?_, ?_⟩
  · by_cases hj : j = g
    · subst hj
      rw [Function.update_self]
      exact hready
    · rw [Function.update_of_ne hj]
      exact h.ready j
  · have hshared := hbacks.shared (fun j => mapped m (ps j).toKeyState) h.bound
    rw [← stakes_update (fun _ p => mapped m p.toKeyState) log ps g l p] at hshared
    rw [allSends_append, allSends_map, keyEdges_append, List.foldl_append]
    exact hshared
  · exact h.covering.append (fun _ _ _ _ hc => hc) hcovering

/-- A code that a grab has entered is counted, also on the way through an action. -/
theorem Guarded.counted (h : Guarded m log ps) {k : KeyCode}
    (hk : (ps g).releaseMap k = codeOf m) {sent q : List InputEvent}
    (hsent : Counter.Covered 0 (keyEdges m sent)) (hq : q <+: sent) :
    1 ≤ (keyEdges m (allSends log ++ q)).foldl bump 0 := by
  have hone : 1 ≤ mapped m (ps g).toKeyState :=
    Counter.one_le_tally (i := k) (by rw [enters]; exact decide_eq_true hk)
  have hle : (mapped m (ps g).toKeyState : Int) ≤ ∑ j, (mapped m (ps j).toKeyState : Int) :=
    Finset.single_le_sum (f := fun j => (mapped m (ps j).toKeyState : Int))
      (fun _ _ => Int.natCast_nonneg _) (Finset.mem_univ g)
  have hcount := Counter.foldl_bump_nonneg le_rfl (keyEdges m (allSends log))
  have hway := Counter.le_foldl_bump hcount hsent (hq.filterMap (keyEdge m))
  rw [keyEdges_append, List.foldl_append]
  have hbound := h.bound
  unfold keyEdges at hbound hway ⊢
  omega

/-- The press at the head of the queue, when it is acted on. -/
theorem Guarded.countedAt (h : Guarded m log ps) {now : Timeval} {ev : InputEvent}
    {rest : List InputEvent} (hqueue : (ps g).queue = ev :: rest) (hpress : ev.isPress = true)
    {k : KeyCode} (hcode : ev.code = codeOf k) {s s₁ s' : KeyState}
    (hs : Ready (fun _ => True) s) {ka : KeyAction} {pre post : List Effect} {t : LastTap}
    (hchosen : Chosen s now ev rest k ka pre t)
    (hacted : Acted s₁ ev k ka s' post) : CountedAt m (log ++ pre.map (Prod.mk g)) g ev ka := by
  obtain ⟨past, future, hk⟩ := h.kept g
  obtain ⟨past, future, hk, _⟩ := hk.head hqueue
  have hsent : allSends (log ++ pre.map (Prod.mk g)) = allSends log := by
    rw [allSends_append, allSends_map, hchosen.sends, List.append_nil]
  refine ⟨hpress, ⟨k, hcode⟩, ?_, past, future, ?_, ?_, fun j hlast hact q hq => ?_⟩
  · rw [← hacted.sends]
    exact hacted.sends_inRange
  · rw [logOf_append, logOf_map_self, arrivals_append, hchosen.arrivals, List.append_nil]
    exact hk.arrived
  · rw [logOf_append, logOf_map_self, performed_append, hchosen.performed, List.append_nil]
    exact hk.acted
  · rw [logOf_append, logOf_map_self, lastAction_append, hchosen.foldl_actionStep] at hact
    rw [hsent]
    exact h.counted (hk.entries j m hlast hact)
      (actionSends_covered hpress (hchosen.usable hs).1 m) hq

/-- **Step.** One call of `resolve` keeps the invariant. -/
theorem Guarded.resolve (h : Guarded m log ps) (hm : codeOf m ∈ modifierKeys) {now : Timeval}
    {b : Bool} {p : PlainResolver} (hstep : plainResolve earlyRelease now (ps g) = .ok (b, p, l)) :
    Guarded m (log ++ l.map (Prod.mk g)) (Function.update ps g p) := by
  refine h.step (plainResolve_runReady hstep (h.ready g))
    (plainResolve_kept (h.ready g) (h.kept g) hstep)
    (plainResolve_backs (h.ready g).1 hstep hm) ?_
  rcases plainResolve_cases hstep with ⟨_, _, _, rfl⟩ | ⟨ev, rest, s', hqueue, _, rfl, hh⟩ |
    ⟨ev, rest, newest, s₁, l₁, _, _, _, hh, ⟨_, _, rfl⟩ | ⟨s₂, l₂, hearly, _, rfl⟩⟩
  · exact along_nil _
  · -- only the press at the head of the queue is acted on
    cases hh with
    | @pressed j ka pre post _ _ hpress hcode hchosen hacted =>
      have hs : Ready (fun _ => True) { (ps g).toKeyState with useResolvableTime := false } :=
        (h.ready g).1.of_eq rfl rfl rfl
      have hcounted : CountedAt m (log ++ pre.map (Prod.mk g)) g ev ka :=
        h.countedAt hqueue hpress hcode hs hchosen hacted
      rw [hacted.log_eq, List.map_append, List.map_cons]
      refine (covering_of_performed hchosen.performed).append (fun _ _ _ _ hc => hc)
        (along_cons.mpr ⟨?_, ?_⟩)
      · intro P act hkey
        cases hkey
        rw [List.append_nil]
        exact hcounted
      · refine Steps.along_of_forall fun x hx _ _ P act hkey => ?_
        obtain ⟨e, he, rfl⟩ := List.mem_map.mp hx
        obtain ⟨e', _, rfl⟩ := List.mem_map.mp he
        exact absurd hkey (by simp)
    | _ => exact covering_of_performed rfl
  · exact covering_of_performed hh.performed_waiting
  · refine covering_of_performed ?_
    rw [performed_append, hh.performed_waiting, (earlyRelease_performed hearly).1]
    rfl

end Global

/-- **Run.** The invariant holds after every run, in every dual mode. -/
theorem serve_guarded {roots : Fin n → KeyAction} (hmap : ∀ g, (roots g).isMap = true)
    (hroots : ∀ g, (roots g).Usable fun _ => True) {inputs : List (GrabReading n)}
    (hin : ∀ i ∈ inputs, CodeInRange i.ev) {s : ServeState n} {log : List (Fin n × Effect)}
    (h : serve roots inputs = .ok (s, log)) {m : KeyCode} (hm : codeOf m ∈ modifierKeys) :
    Guarded m log s.plain := by
  refine serve_inv (Guarded m) CodeInRange ?_ ?_ ?_ hin ?_ h
  · -- an event that is dropped
    intro log ps g ev s hinv hd
    have hready := (hinv.ready g).dedup hd
    obtain ⟨counts, rfl⟩ := resolveDedupInput_eq hd
    have hkept : Kept (logOf g log ++ []) ⟨{ (ps g).toKeyState with inputCounts := counts },
        (ps g).queue⟩ := by
      obtain ⟨past, future, hk⟩ := hinv.kept g
      exact ⟨past, future, hk.idle rfl rfl (fun _ _ => rfl) rfl hk.queued⟩
    have hstep := hinv.step hready hkept (backs_nil _) (along_nil _)
    rwa [List.map_nil, List.append_nil] at hstep
  · -- an event that arrives comes last
    intro log ps g ev s hinv hev ha
    have hready := ((hinv.ready g).dedup ha).push hev
    obtain ⟨counts, rfl⟩ := resolveDedupInput_eq ha
    refine hinv.step (l := [.arrive ev]) hready ?_ (backs_nil _) (covering_of_performed rfl)
    obtain ⟨past, future, hk⟩ := hinv.kept g
    refine ⟨past, future ++ [ev], ?_, hk.queued.push ev, ?_, fun k c hlast hact => ?_⟩
    · rw [arrivals_append, hk.arrived, List.append_assoc]
      rfl
    · rw [performed_append, List.map_append, hk.acted]
      exact List.append_nil _
    · rw [lastAction_append] at hact
      exact hk.entries k c hlast hact
  · intro now log ps g b p l hinv hstep
    exact hinv.resolve hm hstep
  · -- at the start nothing is entered
    refine ⟨fun g => ⟨ready_init (hmap g) (hroots g), by simp⟩, fun g => ⟨[], [], rfl, .nil _, rfl,
      fun k c hlast => absurd hlast (by simp)⟩, ?_, along_nil _⟩
    have hnone : ∀ g, mapped m (KeyState.init (roots g)) = 0 := by
      intro g
      refine Counter.tally_eq_zero fun k => ?_
      have hzero : ¬ (0 : UInt16) = codeOf m :=
        fun h => codeOf_ne_zero (ne_zero_of_modifier hm) h.symm
      exact decide_eq_false hzero
    simp [hnone, allSends, sends]

/-! ### What arrives alternates -/

/-- The events of each key that got past the input filter alternate, up to where the key
    physically is. -/
def ArrivalsAlternate (log : List Effect) (p : PlainResolver) : Prop :=
  ∀ k, 0 ≤ p.inputCounts k ∧
    settle false (keyEdges k (arrivals log)) = some (physDown p.toKeyState k)

theorem runPlain_arrivalsAlternate {capacity : Option Nat} {root : KeyAction}
    {inputs : List Reading} {p : PlainResolver} {log : List Effect}
    (h : runPlain earlyRelease capacity root inputs = .ok (p, log)) :
    ArrivalsAlternate log p := by
  refine runPlain_inv ArrivalsAlternate (fun _ => True) ?_ ?_ ?_ (fun _ _ => trivial)
    (fun k => ⟨le_rfl, rfl⟩) h
  · intro log p ev s hp hd k
    obtain ⟨hnonneg, _, hsame⟩ := resolveDedupInput_key hd (fun j => (hp j).1) k
    refine ⟨hnonneg, ?_⟩
    rw [(hp k).2, hsame rfl]
  · intro log p ev s hp _ ha k
    obtain ⟨hnonneg, hmove, _⟩ := resolveDedupInput_key ha (fun j => (hp j).1) k
    refine ⟨hnonneg, ?_⟩
    have harr : keyEdges k (arrivals [.arrive ev]) = (keyEdge k ev).toList := by
      show keyEdges k [ev] = _
      rw [keyEdges_cons, keyEdges_nil, List.append_nil]
    rw [arrivals_append, keyEdges_append, harr]
    exact settle_append.mpr ⟨_, (hp k).2, hmove rfl⟩
  · intro now log p b p' l hp hstep k
    obtain ⟨harr, hcounts⟩ := plainResolve_arrivals hstep
    rw [arrivals_append, harr, List.append_nil, physDown, hcounts]
    exact hp k

/-- A press that is not released before the events in `v` end is the last edge of its key. -/
theorem getLast?_of_held {k : KeyCode} {u v w : List InputEvent} {M : InputEvent} {b : Bool}
    (h : settle false (keyEdges k (u ++ M :: (v ++ w))) = some b) (hM : M.isPress = true)
    (hk : M.code = codeOf k) (hv : ∀ r ∈ v, r.isRelease = true → r.code ≠ codeOf k) :
    keyEdges k v = [] ∧ (keyEdges k (u ++ M :: v)).getLast? = some true := by
  have hedge : keyEdge k M = some true := by rw [keyEdge_press hM, if_pos hk]
  have hsplit : keyEdges k (u ++ M :: (v ++ w))
      = keyEdges k u ++ (true :: keyEdges k v ++ keyEdges k w) := by
    rw [keyEdges_append, keyEdges_cons, hedge, keyEdges_append]
    rfl
  rw [hsplit] at h
  obtain ⟨_, _, h⟩ := settle_append.mp h
  obtain ⟨_, h, _⟩ := settle_append.mp h
  have hno : false ∉ keyEdges k v := by
    intro hmem
    obtain ⟨r, hr, hrel⟩ := List.mem_filterMap.mp hmem
    obtain ⟨hcode, hrel⟩ := keyEdge_eq_some_false hrel
    exact hv r hr hrel hcode
  have hnil := Alternation.settle_press_alone h hno
  refine ⟨hnil, ?_⟩
  rw [keyEdges_append, keyEdges_cons, hedge, hnil]
  simp

/-! ### Modifiers cover the keys pressed under them -/

/-- A place before which there are no more presses than before an earlier press is that
    place. -/
theorem eq_nil_of_presses_length {l d r r' : List InputEvent} {P P' : InputEvent}
    (h : P :: r = d ++ P' :: r') (hP : P.isPress = true)
    (hlen : (presses (l ++ d)).length = (presses l).length) : d = [] := by
  cases d with
  | nil => rfl
  | cons x d =>
    obtain ⟨rfl, _⟩ := List.cons.inj h
    have hfirst : presses (P :: d) = P :: presses d := List.filter_cons_of_pos hP
    rw [presses_append, List.length_append, hfirst, List.length_cons] at hlen
    omega

/-- Two places in one list where a press stands after equally many presses are the same. -/
theorem eq_of_presses_length {l₁ l₂ r₁ r₂ : List InputEvent} {P P' : InputEvent}
    (h : l₁ ++ P :: r₁ = l₂ ++ P' :: r₂) (hP : P.isPress = true) (hP' : P'.isPress = true)
    (hlen : (presses l₁).length = (presses l₂).length) : l₁ = l₂ := by
  rcases List.append_eq_append_iff.mp h with ⟨d, rfl, hd⟩ | ⟨d, rfl, hd⟩
  · rw [eq_nil_of_presses_length hd hP hlen.symm, List.append_nil]
  · rw [eq_nil_of_presses_length hd hP' hlen, List.append_nil]

/-- In grab `g`, the press `M` was acted on as the simple key `m`, and after the effects
    `before` the press `P` is acted on as `act`; `P` arrived after `M`, and no release of the
    key of `M` arrived in between.  Presses are acted on in the order they arrive, so counting
    presses says which arrival is meant. -/
def PressedUnder (g : Fin n) (m : KeyCode) (M P : InputEvent) (act : KeyAction)
    (before log : List (Fin n × Effect)) : Prop :=
  ∃ a b after u v w,
    before = a ++ (g, .keypress M (.ktSimple m)) :: b ∧
    log = before ++ (g, .keypress P act) :: after ∧
    arrivals (logOf g log) = u ++ M :: (v ++ P :: w) ∧
    (performed (logOf g a)).length = (presses u).length ∧
    (performed (logOf g before)).length = (presses (u ++ M :: v)).length ∧
    ∀ r ∈ v, r.isRelease = true → r.code ≠ M.code

/-- The presses acted on up to `P`: those that arrived before it, `M` at its place. -/
theorem PressedUnder.performed {g : Fin n} {m : KeyCode} {M : InputEvent}
    {u v : List InputEvent} {a b : List (Fin n × Effect)} (hM : M.isPress = true)
    (hlen : (performed (logOf g a)).length = (presses u).length)
    (h : (performed (logOf g (a ++ (g, .keypress M (.ktSimple m)) :: b))).map Prod.fst
      = presses (u ++ M :: v)) : (performed (logOf g b)).map Prod.fst = presses v := by
  have hM' : presses (M :: v) = M :: presses v := List.filter_cons_of_pos hM
  have hlog : Sdiol.performed (logOf g (a ++ (g, .keypress M (.ktSimple m)) :: b))
      = Sdiol.performed (logOf g a) ++ (M, .ktSimple m) :: Sdiol.performed (logOf g b) := by
    rw [logOf_append, performed_append]
    congr 1
    simp [logOf, Sdiol.performed]
  rw [hlog, List.map_append, List.map_cons, presses_append, hM'] at h
  obtain ⟨_, hrest⟩ := List.append_inj h (by rw [List.length_map, hlen])
  exact (List.cons.inj hrest).2

/-- **Modifiers cover the keys pressed under them.** For any grabs, in all dual modes, and any
    events with codes below `KEY_MAX` at any clock readings that do not overflow a queue: when
    a press is acted on that arrived between a press acted on as the modifier `m` and the
    release of that key, the shared filter counts `m` at least once, before the action and
    after every event that the action sends. -/
theorem modifiers_cover (keymaps : Fin n → Keymap) (inputs : List (GrabReading n))
    (hin : ∀ i ∈ inputs, CodeInRange i.ev) :
    serve (fun g => (keymaps g).root) inputs = .error .overflow ∨
    ∃ s log, serve (fun g => (keymaps g).root) inputs = .ok (s, log) ∧
      ∀ g m M P act before, codeOf m ∈ modifierKeys → PressedUnder g m M P act before log →
        ∀ q, q <+: actionSends P act →
          ∃ d out, sendAll (allSends before ++ q) SendDedup.init = .ok (d, out) ∧
            1 ≤ d.pressCountMap m := by
  have hroots : ∀ g, (keymaps g).root.Usable fun _ => True := fun g =>
    (keymaps g).root_usable_true
  rcases serve_total (fun _ => rfl) hroots hin with h | ⟨s, log, h⟩
  · exact .inl h
  refine .inr ⟨s, log, h, ?_⟩
  rintro g m M P act before hm ⟨a, b, after, u, v, w, rfl, rfl, harr, hlenA, hlenB, hrel⟩ q hq
  have hguard := serve_guarded (fun _ => rfl) hroots hin h hm
  -- what is known where `M` and where `P` are acted on
  obtain ⟨hM, ⟨k, hk⟩, _⟩ := hguard.covering a (g, .keypress M (.ktSimple m))
    (b ++ (g, .keypress P act) :: after) (by simp) M _ rfl
  obtain ⟨hP, _, hrange, past, future, hpast, hacted, hcount⟩ :=
    hguard.covering _ (g, .keypress P act) after rfl P act rfl
  -- what arrived before `P` ends with `M` and what arrived after it
  have hpasteq : past = u ++ M :: v := by
    have hsplit : past ++ P :: (future ++ arrivals (logOf g ((g, .keypress P act) :: after)))
        = (u ++ M :: v) ++ P :: w := by
      rw [List.append_assoc, List.cons_append, ← harr, logOf_append, arrivals_append, hpast,
        List.append_assoc, List.cons_append]
    refine eq_of_presses_length hsplit hP hP ?_
    rw [← hlenB, ← hacted, List.length_map]
  subst hpasteq
  have halternate := (runPlain_arrivalsAlternate (serve_grab_plain h g) k).2
  rw [harr] at halternate
  obtain ⟨hnone, hlast⟩ := getLast?_of_held halternate hM hk (fun r hr hr' => hk ▸ hrel r hr hr')
  -- `M` is the latest press of its key that was acted on
  have hothers : ∀ p ∈ performed (logOf g b), p.1.code ≠ codeOf k := by
    intro p hp hcode
    have hmem : p.1 ∈ presses v := by
      rw [← PressedUnder.performed hM hlenA hacted]
      exact List.mem_map_of_mem hp
    obtain ⟨hmem, hpress⟩ := List.mem_filter.mp hmem
    have hedge : true ∈ keyEdges k v :=
      List.mem_filterMap.mpr ⟨p.1, hmem, by rw [keyEdge_press hpress, if_pos hcode]⟩
    rw [hnone] at hedge
    exact absurd hedge (by simp)
  have haction : lastAction k (logOf g (a ++ (g, .keypress M (.ktSimple m)) :: b))
      = some (.ktSimple m) := by
    have hlog : logOf g (a ++ (g, .keypress M (.ktSimple m)) :: b)
        = logOf g a ++ ([.keypress M (.ktSimple m)] ++ logOf g b) := by
      rw [logOf_append]
      congr 1
      simp [logOf]
    rw [hlog, lastAction_append, List.foldl_append, foldl_actionStep_of_performed hothers]
    simp [actionStep, hk]
  -- the filter accepts everything that was sent until then
  have hsent : ∀ e ∈ allSends (a ++ (g, .keypress M (.ktSimple m)) :: b) ++ q,
      CodeInRange e := by
    intro e he
    rcases List.mem_append.mp he with he | he
    · refine serve_sends_inRange (fun _ => rfl) hroots hin h e ?_
      rw [allSends_append]
      exact List.mem_append_left _ he
    · exact hrange e (hq.subset he)
  obtain ⟨d, out, hd⟩ := sendAll_total hsent SendDedup.init
  refine ⟨d, out, hd, ?_⟩
  rw [sendAll_pressCountMap hd m]
  exact hcount k hlast haction q hq

/-- A press that was acted on as a simple key, with the code. -/
def simplePress (x : Fin n × Effect) : Option (Fin n × InputEvent × KeyCode) :=
  match x.2 with
  | .keypress ev (.ktSimple c) => some (x.1, ev, c)
  | _ => none

theorem eq_of_simplePress {x : Fin n × Effect} {g : Fin n} {ev : InputEvent} {c : KeyCode}
    (h : simplePress x = some (g, ev, c)) : x = (g, .keypress ev (.ktSimple c)) := by
  obtain ⟨j, e⟩ := x
  unfold simplePress at h
  split at h
  · rename_i hx
    cases hx
    cases h
    rfl
  · exact absurd h (by simp)

/-- The place of a simple press in a log. -/
theorem split_of_simplePress {log : List (Fin n × Effect)} {i : Nat} {g : Fin n}
    {ev : InputEvent} {c : KeyCode} (h : log[i]?.bind simplePress = some (g, ev, c)) :
    log = log.take i ++ (g, .keypress ev (.ktSimple c)) :: log.drop (i + 1) := by
  obtain ⟨x, hx, hpress⟩ := Option.bind_eq_some_iff.mp h
  obtain ⟨hi, hget⟩ := List.getElem?_eq_some_iff.mp hx
  rw [← eq_of_simplePress hpress, ← hget, ← List.drop_eq_getElem_cons, List.take_append_drop]

/-- Key 45 is held as a shift when key 30 is pressed: the shift is down where 30 is sent. -/
theorem modifiers_cover_held :
    let roots := fun _ : Fin 1 => (shiftOn45 .holdOnRollover).root
    let inputs : List (GrabReading 1) := [⟨keyAt 0 45 1, 0⟩, ⟨keyAt 20 30 1, 0⟩]
    ∃ s log before d out, serve roots inputs = .ok (s, log) ∧
      PressedUnder 0 42 (keyAt 0 45 1).ev (keyAt 20 30 1).ev (.ktSimple 30) before log ∧
      sendAll (allSends before ++ actionSends (keyAt 20 30 1).ev (.ktSimple 30)) SendDedup.init
        = .ok (d, out) ∧ 1 ≤ d.pressCountMap 42 := by
  intro roots inputs
  have hin : ∀ i ∈ inputs, CodeInRange i.ev := by decide
  have hrun : (serve roots inputs).map (fun x =>
      decide (x.2[6]?.bind simplePress = some (0, (keyAt 20 30 1).ev, 30) ∧
        (x.2.take 6)[4]?.bind simplePress = some (0, (keyAt 0 45 1).ev, 42) ∧
        arrivals (logOf 0 x.2) = [(keyAt 0 45 1).ev, (keyAt 20 30 1).ev] ∧
        (performed (logOf 0 ((x.2.take 6).take 4))).length = 0 ∧
        (performed (logOf 0 (x.2.take 6))).length = 1)) = .ok true := by
    decide +kernel
  obtain ⟨⟨s, log⟩, hok, hshape⟩ := Steps.map_eq_ok hrun
  obtain ⟨hP, hM, harr, hlenA, hlenB⟩ := of_decide_eq_true hshape
  rcases modifiers_cover (fun _ => shiftOn45 .holdOnRollover) inputs hin with
    h | ⟨s', log', h, hcover⟩
  · exact absurd (h.symm.trans hok) (by simp)
  · cases h.symm.trans hok
    have hunder : PressedUnder 0 42 (keyAt 0 45 1).ev (keyAt 20 30 1).ev (.ktSimple 30)
        (log.take 6) log :=
      ⟨_, _, _, [], [], [], split_of_simplePress hM, split_of_simplePress hP, harr, hlenA, hlenB,
        by simp⟩
    obtain ⟨d, out, hd, hone⟩ := hcover 0 42 _ _ _ _ (by decide) hunder _ (List.prefix_refl _)
    exact ⟨s, log, _, d, out, h, hunder, hd, hone⟩

end Sdiol
