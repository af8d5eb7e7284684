import Sdiol.Ledger
import Sdiol.Serve

namespace Sdiol

/-!
# No stuck keys

For any number of grabs without `TIMEOUT_ONLY` keys:

* a key whose press was sent as `KT_SIMPLE c` is released as `c`, whatever happened to the
  keymap in between (`AnsweredWith`), and no release of a key is lost (`Answered`);
* once all keys are up, every queue is empty, every grab is back in its root keymap, and the
  shared filter holds no code (`no_stuck_keys`).

The last part puts four invariants together.  A waiting oldest event is a press whose release
is not queued (`Settled`), so its key would be down; hence the queues are empty.  Then no
resolver has a key down, which leaves `LayerHeld` the root keymap only, and leaves nothing
owed to the counters.
-/

open Alternation (settle settle_cons settle_press)
open Steps (Along along_nil along_cons)

/-! ### Releases are answered -/

/-- The releases of key `k` in a list of events. -/
def releasesOf (k : KeyCode) (evs : List InputEvent) : List InputEvent :=
  evs.filter fun ev => ev.isRelease && decide (ev.code = codeOf k)

@[simp] theorem releasesOf_append (k : KeyCode) (l₁ l₂ : List InputEvent) :
    releasesOf k (l₁ ++ l₂) = releasesOf k l₁ ++ releasesOf k l₂ := List.filter_append ..

theorem releasesOf_eq_nil {k : KeyCode} {evs : List InputEvent}
    (h : false ∉ keyEdges k evs) : releasesOf k evs = [] := by
  refine List.filter_eq_nil_iff.mpr fun ev hev hrel => h ?_
  obtain ⟨hrel, hcode⟩ : ev.isRelease = true ∧ ev.code = codeOf k := by simpa using hrel
  refine List.mem_filterMap.mpr ⟨ev, hev, ?_⟩
  rw [keyEdge_release hrel, if_pos hcode]

theorem releasesOf_of_edge_ne {k : KeyCode} {ev : InputEvent} (h : keyEdge k ev ≠ some false) :
    releasesOf k [ev] = [] := by
  refine releasesOf_eq_nil fun hmem => ?_
  obtain ⟨e, he, hedge⟩ := List.mem_filterMap.mp hmem
  rw [List.mem_singleton.mp he] at hedge
  exact h hedge

/-- A release taken from the queue for a key whose latest press was sent as `KT_SIMPLE c`:
    the resolver had the key down, and the next thing it does is to send that release as
    `c`. -/
def AnsweredWith (before : List Effect) (x : Effect) (after : List Effect) : Prop :=
  ∀ ev code early k c, x = .released ev code early → ev.isRelease = true → ev.code = codeOf k →
    lastAction k before = some (.ktSimple c) → c ≠ 0 →
    keyDown k before = true ∧ ∃ rest, after = .send { ev with code := codeOf c } :: rest

/-- No release of `k` is lost: those taken from the queue, then those still in it, are those
    that arrived. -/
def Answered (k : KeyCode) (log : List Effect) (p : PlainResolver) : Prop :=
  releasesOf k (released log) ++ releasesOf k p.queue = releasesOf k (arrivals log)

/-- What is known of one grab. -/
structure Accounted (P : DualConfig → Prop) (log : List Effect) (p : PlainResolver) : Prop where
  alternating : Alternating P log p
  recorded : Recorded log p.toKeyState
  layerHeld : LayerHeld log p.toKeyState
  answeredWith : Along AnsweredWith log
  answered : ∀ k, Answered k log p

/-! ### One step keeps it -/

section Step

variable {log l : List Effect} {s s' : KeyState} {now : Timeval} {ev : InputEvent}
  {queued : List InputEvent}

/-- Entries that are no releases have nothing to answer. -/
theorem answeredWith_of_ne (before : List Effect → List Effect) (l₁ : List Effect) (x : Effect)
    (l₂ : List Effect) (h : ∀ ev code early, x ≠ .released ev code early) :
    AnsweredWith (before l₁) x l₂ := by
  intro ev code early k c hx
  exact absurd hx (h ev code early)

/-- What the oldest event takes from the queue is itself, if it is a release. -/
theorem Handled.releasesOf (h : Handled s now ev queued true s' l) (k : KeyCode) :
    Sdiol.releasesOf k (released l) = Sdiol.releasesOf k [ev] := by
  cases h with
  | ignored hcode => rw [releasesOf_of_edge_ne (by rw [keyEdge_of_ignored hcode]; simp)]; rfl
  | passed hkey => rw [releasesOf_of_edge_ne (by rw [keyEdge_of_not_key hkey]; simp)]; rfl
  | repeated j hvalue _ _ _ =>
    rw [releasesOf_of_edge_ne (by rw [keyEdge_of_repeat hvalue]; simp)]
    rfl
  | releasedLayer _ _ _ _ => rfl
  | releasedNothing _ _ _ _ => rfl
  | releasedCode _ _ _ _ _ => rfl
  | pressed hpress _ hchosen hacted =>
    rw [released_append, hchosen.released, hacted.released, releasesOf_of_edge_ne]
    · rfl
    · rw [keyEdge_press hpress]
      split <;> simp

/-- A release is taken from the queue, followed by what is sent for the entry of its key. -/
theorem along_answeredWith_taken {k : KeyCode} {code : UInt16} {early : Bool}
    (evs : List InputEvent) (hs : Recorded log s) (hcode : ev.code = codeOf k)
    (hdown : ev.isRelease = true → keyDown k log = true)
    (hsent : ∀ c, c ≠ 0 → s.releaseMap k = codeOf c →
      ∃ rest, evs = { ev with code := codeOf c } :: rest) :
    Along (fun l₁ => AnsweredWith (log ++ l₁))
      (.released ev code early :: evs.map Effect.send) := by
  refine along_cons.mpr
    ⟨?_, along_of_released_eq_nil (answeredWith_of_ne _) (released_map_send evs)⟩
  intro ev' code' early' j c hx hrel hj hlast hc
  cases hx
  rw [List.append_nil] at hlast ⊢
  obtain rfl := codeOf_injective (hcode.symm.trans hj)
  obtain ⟨rest, rfl⟩ := hsent c hc (hs.simple (hdown hrel) hlast)
  exact ⟨hdown hrel, rest.map Effect.send, rfl⟩

theorem Handled.answeredWith (h : Handled s now ev queued true s' l) (hs : Recorded log s)
    (hmoves : Moves log ev) : Along (fun l₁ => AnsweredWith (log ++ l₁)) l := by
  have hdown : ev.isRelease = true → ∀ k, ev.code = codeOf k → keyDown k log = true := by
    intro hrel k hk
    simpa using hmoves k false (by rw [keyEdge_release hrel, if_pos hk])
  cases h with
  | ignored _ => exact along_nil _
  | passed _ => exact along_of_released_eq_nil (answeredWith_of_ne _) rfl
  | repeated _ _ _ _ _ => exact along_of_released_eq_nil (answeredWith_of_ne _) rfl
  | releasedLayer k hrel hcode hmap =>
    refine along_answeredWith_taken [] hs hcode (fun _ => hdown hrel k hcode) fun c _ hc => ?_
    exact absurd (hc.symm.trans hmap) (codeOf_ne_resetKeymap c)
  | releasedNothing k hrel hcode hmap =>
    refine along_answeredWith_taken [] hs hcode (fun _ => hdown hrel k hcode) fun c hne hc => ?_
    exact absurd (hc.symm.trans hmap) (codeOf_ne_zero hne)
  | releasedCode k hrel hcode hmap hzero =>
    refine along_answeredWith_taken [{ ev with code := s.releaseMap k }] hs hcode
      (fun _ => hdown hrel k hcode) fun c _ hc => ⟨[], ?_⟩
    rw [hc]
  | pressed _ _ hchosen hacted =>
    refine along_of_released_eq_nil (answeredWith_of_ne _) ?_
    rw [released_append, hchosen.released, hacted.released]
    rfl

theorem earlyRelease_answeredWith (h : earlyRelease s ev = some (s', l)) (hs : Recorded log s)
    (hdown : ev.isRelease = true → ∀ k, ev.code = codeOf k → keyDown k log = true) :
    Along (fun l₁ => AnsweredWith (log ++ l₁)) l := by
  obtain ⟨k, hcode, _, ⟨hmap, _, rfl⟩ | ⟨_, _, _, rfl⟩⟩ := earlyRelease_eq_some h
  · refine along_answeredWith_taken [] hs hcode (fun hrel => hdown hrel k hcode) fun c _ hc => ?_
    exact absurd (hc.symm.trans hmap) (codeOf_ne_resetKeymap c)
  · refine along_answeredWith_taken [{ ev with code := s.releaseMap k }, synEvent] hs hcode
      (fun hrel => hdown hrel k hcode) fun c _ hc => ⟨[synEvent], ?_⟩
    rw [hc]

end Step

section Resolve

variable {P : DualConfig → Prop} {now : Timeval} {log l : List Effect} {p p' : PlainResolver}
  {b : Bool}

/-- Along a log, later entries do not matter to what is answered. -/
theorem answeredWith_mono (l₁ : List Effect) (x : Effect) (l₂ l : List Effect)
    (h : AnsweredWith l₁ x l₂) : AnsweredWith l₁ x (l₂ ++ l) := by
  intro ev code early k c hx hrel hcode hlast hc
  obtain ⟨hdown, rest, rfl⟩ := h ev code early k c hx hrel hcode hlast hc
  exact ⟨hdown, rest ++ l, rfl⟩

/-- **Step.** One call of `resolve` keeps what is known of a grab. -/
theorem plainResolve_accounted (hp : Accounted P log p)
    (h : plainResolve earlyRelease now p = .ok (b, p', l)) (htaken : TakenAfterPress p.queue l) :
    Accounted P (log ++ l) p' := by
  have halt := plainResolve_alternating hp.alternating h htaken
  rcases plainResolve_cases h with ⟨_, _, rfl, rfl⟩ | ⟨ev, rest, s', hqueue, _, rfl, hh⟩ |
    ⟨ev, rest, newest, s₁, l₁, hqueue, _, hnewest, hh, hearly⟩
  · -- nothing is queued
    rwa [List.append_nil]
  · -- the oldest event is resolved, and what is released is its own
    have hmoves := hp.alternating.moves hqueue
    refine ⟨halt, hh.recorded hp.recorded, hh.layerHeld hmoves hp.layerHeld,
      hp.answeredWith.append answeredWith_mono (hh.answeredWith hp.recorded hmoves),
      fun k => ?_⟩
    have hk := hp.answered k
    unfold Answered at hk ⊢
    rw [released_append, releasesOf_append, hh.releasesOf, arrivals_append, hh.arrivals,
      List.append_nil, ← hk, hqueue, List.append_assoc, ← releasesOf_append]
    rfl
  · -- the oldest event waits: only the check of it is added to the log
    obtain ⟨hmap, hcur, hroot, _, hdown, haction⟩ := hh.waiting_eq
    have hreleased : released l₁ = [] := by
      cases hh with
      | waiting _ _ _ _ => rfl
    have hrec : Recorded (log ++ l₁) s₁ :=
      hp.recorded.of_eq (fun k hd => by rwa [keyDown_append, hdown] at hd)
        (fun k => by rw [lastAction_append, haction]) hmap
    have hlayer : LayerHeld (log ++ l₁) s₁ := by
      rcases hp.layerHeld with hr | ⟨k, hd, hm⟩
      · exact .inl (by rw [hcur, hroot]; exact hr)
      · exact .inr ⟨k, by rw [keyDown_append, hdown]; exact hd, by rw [hmap]; exact hm⟩
    have hwith : Along AnsweredWith (log ++ l₁) :=
      hp.answeredWith.append answeredWith_mono
        (along_of_released_eq_nil (answeredWith_of_ne _) hreleased)
    rcases hearly with ⟨_, rfl, rfl⟩ | ⟨s₂, l₂, hearly, rfl, rfl⟩
    · -- the newest event is left alone
      refine ⟨halt, hrec, hlayer, hwith, fun k => ?_⟩
      have hk := hp.answered k
      unfold Answered at hk ⊢
      rw [released_append, hreleased, arrivals_append, hh.arrivals, List.append_nil,
        List.append_nil]
      exact hk
    · -- the newest event is taken before those in front of it
      rw [← List.append_assoc] at halt ⊢
      have hsplit := queue_newest hqueue hnewest
      have hnew : newest.isRelease = true → ∀ k, newest.code = codeOf k →
          keyEdges k p.queue.dropLast = [] ∧ keyDown k log = true := by
        intro hrel k hk
        have hedge : keyEdge k newest = some false := by rw [keyEdge_release hrel, if_pos hk]
        obtain ⟨code, hmem⟩ := earlyRelease_taken hearly
        have hno := htaken newest code k (List.mem_append_right _ hmem) hedge
        obtain ⟨hnil, hd, _⟩ := newest_release hp.alternating hsplit hedge hno
        exact ⟨hnil, hd⟩
      refine ⟨halt, earlyRelease_recorded hearly hrec, earlyRelease_layerHeld hearly hlayer,
        hwith.append answeredWith_mono (earlyRelease_answeredWith hearly hrec ?_), fun k => ?_⟩
      · intro hrel k hk
        rw [keyDown_append, hdown]
        exact (hnew hrel k hk).2
      · have hk := hp.answered k
        have hswap : releasesOf k [newest] ++ releasesOf k p.queue.dropLast
            = releasesOf k p.queue.dropLast ++ releasesOf k [newest] := by
          by_cases hedge : keyEdge k newest = some false
          · -- the release of `k` is the only event of `k` in the queue
            obtain ⟨hcode, hrel⟩ := keyEdge_eq_some_false hedge
            have hnil : releasesOf k p.queue.dropLast = [] :=
              releasesOf_eq_nil (by rw [(hnew hrel k hcode).1]; simp)
            rw [hnil]
            simp
          · rw [releasesOf_of_edge_ne hedge]
            simp
        unfold Answered at hk ⊢
        rw [hsplit, releasesOf_append] at hk
        rw [released_append, released_append, hreleased, earlyRelease_released hearly,
          List.append_nil, releasesOf_append, arrivals_append, arrivals_append, hh.arrivals,
          (earlyRelease_performed hearly).2, List.append_nil, List.append_nil, ← hk,
          List.append_assoc, hswap]

theorem accounted_drop {ev : InputEvent} {s : KeyState} (hp : Accounted P log p)
    (h : resolveDedupInput p.toKeyState ev = .ok (false, s)) : Accounted P log ⟨s, p.queue⟩ := by
  have halt := alternating_drop hp.alternating h
  obtain ⟨counts, rfl⟩ := resolveDedupInput_eq h
  exact ⟨halt, hp.recorded, hp.layerHeld, hp.answeredWith, hp.answered⟩

theorem accounted_arrive {ev : InputEvent} {s : KeyState} (hp : Accounted P log p)
    (h : resolveDedupInput p.toKeyState ev = .ok (true, s)) :
    Accounted P (log ++ [.arrive ev]) ⟨s, p.queue ++ [ev]⟩ := by
  have halt := alternating_arrive hp.alternating h
  obtain ⟨counts, rfl⟩ := resolveDedupInput_eq h
  refine ⟨halt, ?_, ?_, hp.answeredWith.append answeredWith_mono
    (along_of_released_eq_nil (answeredWith_of_ne _) rfl), fun k => ?_⟩
  · refine hp.recorded.of_eq (fun k hdown => ?_) (fun k => ?_) rfl
    · rwa [keyDown_append] at hdown
    · rw [lastAction_append]
      rfl
  · rcases hp.layerHeld with hroot | ⟨k, hdown, hmap⟩
    · exact .inl hroot
    · exact .inr ⟨k, by rw [keyDown_append]; exact hdown, hmap⟩
  · have hk := hp.answered k
    have harr : arrivals [.arrive ev] = [ev] := rfl
    have hrel : released [.arrive ev] = [] := rfl
    unfold Answered at hk ⊢
    rw [released_append, hrel, List.append_nil, arrivals_append, harr, releasesOf_append,
      releasesOf_append, ← hk, List.append_assoc]

end Resolve

/-! ### Runs -/

/-- If the oldest event still waits, it is a press, and no release of its key is queued. -/
def Settled (queue : List InputEvent) : Prop :=
  queue = [] ∨ ∃ ev rest k, queue = ev :: rest ∧ ev.isPress = true ∧ ev.code = codeOf k ∧
    ∀ rel ∈ rest, rel.isRelease = true → rel.code ≠ ev.code

theorem plainResolve_settled {now : Timeval} {p p' : PlainResolver} {l : List Effect}
    (hp : Ready RolloverMode p.toKeyState)
    (h : plainResolve earlyRelease now p = .ok (false, p', l)) : Settled p'.queue := by
  have hs : Ready RolloverMode { p.toKeyState with useResolvableTime := false } :=
    hp.of_eq rfl rfl rfl
  rcases plainResolve_cases h with ⟨hnil, _, rfl, _⟩ | ⟨_, _, _, _, hb, _⟩ |
    ⟨ev, rest, newest, s₁, l₁, hqueue, _, hnewest, hh, hearly⟩
  · exact .inl hnil
  · exact absurd hb (by simp)
  · -- a release of its key behind the press would have resolved it
    have hpress : ev.isPress = true := by
      cases hh with
      | waiting hpress _ _ _ => exact hpress
    obtain ⟨k, hk⟩ : ∃ k, ev.code = codeOf k := by
      cases hh with
      | waiting _ hcode _ _ => exact ⟨_, hcode⟩
    have hbehind : ∀ rel ∈ rest, rel.isRelease = true → rel.code ≠ ev.code := by
      intro rel hmem hrel hcode
      obtain ⟨l₁, l₂, hsplit⟩ := List.append_of_mem hmem
      exact hh.no_press_before hs hsplit hrel (hcode.trans hk) ev List.mem_cons_self hpress hk
    rcases hearly with ⟨_, rfl, _⟩ | ⟨s₂, l₂, hearly, rfl, _⟩
    · exact .inr ⟨ev, rest, k, hqueue, hpress, hk, hbehind⟩
    · refine .inr ⟨ev, rest.dropLast, k, ?_, hpress, hk, fun rel hmem => ?_⟩
      · rw [hqueue]
        exact dropLast_of_early hearly hnewest hpress
      · exact hbehind rel (List.mem_of_mem_dropLast hmem)

section Runs

variable {capacity : Option Nat} {root : KeyAction} {inputs : List Reading} {p : PlainResolver}
  {log : List Effect}

/-- **Run.** After every event, one grab is accounted for and its queue settled. -/
theorem runPlain_accounted (hmap : root.isMap = true) (hroot : root.Usable RolloverMode)
    (h : runPlain earlyRelease capacity root inputs = .ok (p, log)) :
    Accounted RolloverMode log p ∧ Settled p.queue := by
  have hinit : Accounted RolloverMode [] ⟨KeyState.init root, []⟩ :=
    ⟨alternating_init hmap hroot, recorded_init root, .inl rfl, along_nil _, fun _ => rfl⟩
  have hdrop : ∀ log p ev s, Accounted RolloverMode log p →
      resolveDedupInput p.toKeyState ev = .ok (false, s) →
      Accounted RolloverMode log ⟨s, p.queue⟩ :=
    fun _ _ _ _ hp hd => accounted_drop hp hd
  have harrive : ∀ log p ev s, Accounted RolloverMode log p → True →
      resolveDedupInput p.toKeyState ev = .ok (true, s) →
      Accounted RolloverMode (log ++ [.arrive ev]) ⟨s, p.queue ++ [ev]⟩ :=
    fun _ _ _ _ hp _ ha => accounted_arrive hp ha
  have hresolve : ∀ now log p b p' l, Accounted RolloverMode log p →
      plainResolve earlyRelease now p = .ok (b, p', l) → Accounted RolloverMode (log ++ l) p' :=
    fun _ _ _ _ _ _ hp hstep => plainResolve_accounted hp hstep
      (plainResolve_takenAfterPress hp.alternating.ready hstep)
  constructor
  · exact runPlain_inv _ (fun _ => True) hdrop harrive hresolve (fun _ _ => trivial) hinit h
  · -- the queue is settled only when `resolve` answers `false`
    exact runPlain_settled _ (fun _ => True) hdrop harrive hresolve
      (fun _ p => Settled p.queue) (fun _ _ _ _ hp _ => hp)
      (fun _ _ _ _ _ hp hstep => plainResolve_settled hp.alternating.ready hstep)
      (fun _ _ => trivial) hinit (.inl rfl) h

/-- **All keys up.** Then the queue is empty, no key is down as far as the resolver knows, and
    the current keymap is the root. -/
theorem Accounted.at_rest (hp : Accounted P log p) (hq : Settled p.queue)
    (hup : ∀ k, p.inputCounts k = 0) :
    p.queue = [] ∧ (∀ k, keyDown k log = false) ∧ p.currentKeymap = p.rootKeymap := by
  have hphys : ∀ k, physDown p.toKeyState k = false := by
    intro k
    simp [physDown, hup k]
  have hempty : p.queue = [] := by
    rcases hq with hnil | ⟨ev, rest, k, hqueue, hpress, hk, hbehind⟩
    · exact hnil
    · -- the key of the waiting press would be down
      have halt := hp.alternating.keys k
      unfold KeyAlternates at halt
      rw [hqueue, keyEdges_cons, keyEdge_press hpress, if_pos hk, hphys k] at halt
      have hno : false ∉ keyEdges k rest := by
        intro hmem
        obtain ⟨rel, hrel, hedge⟩ := List.mem_filterMap.mp hmem
        obtain ⟨hcode, hrel'⟩ := keyEdge_eq_some_false hedge
        exact hbehind rel hrel hrel' (hcode.trans hk.symm)
      exact absurd (settle_press halt hno).2 (by simp)
  have hdown : ∀ k, keyDown k log = false := by
    intro k
    have halt := hp.alternating.keys k
    unfold KeyAlternates at halt
    rw [hempty, hphys k] at halt
    exact Option.some.inj halt
  refine ⟨hempty, hdown, ?_⟩
  -- the current keymap would be a layer that some key is held for
  rcases hp.layerHeld with hroot | ⟨k, hd, _⟩
  · exact hroot
  · rw [hdown k] at hd
    exact absurd hd (by simp)

end Runs

/-! ### The shared counts -/

variable {n : Nat}

/-- What is owed depends on the effects of a grab and on its `release_map`. -/
def stakeOf (c : KeyCode) (log : List Effect) (p : PlainResolver) : Nat :=
  owed c log p.toKeyState

/-- The shared filter counts at most what the keys of all grabs owe. -/
structure SharedOwed (c : KeyCode) (log : List (Fin n × Effect)) (ps : Fin n → PlainResolver) :
    Prop where
  alternating : ∀ g, Alternating RolloverMode (logOf g log) (ps g)
  bound : (keyEdges c (allSends log)).foldl Counter.bump 0
    ≤ ∑ g, (stakeOf c (logOf g log) (ps g) : Int)

/-- A step of one grab keeps the bound, if it is capped by the stake of the grab. -/
theorem SharedOwed.step {c : KeyCode} {log : List (Fin n × Effect)} {ps : Fin n → PlainResolver}
    (h : SharedOwed c log ps) {g : Fin n} {l : List Effect} {p : PlainResolver}
    (halt : Alternating RolloverMode (logOf g log ++ l) p)
    (hcaps : Counter.Caps (stakeOf c (logOf g log) (ps g)) (keyEdges c (sends l))
      (stakeOf c (logOf g log ++ l) p)) :
    SharedOwed c (log ++ l.map (Prod.mk g)) (Function.update ps g p) := by
  refine ⟨forall_update h.alternating halt, ?_⟩
  have hnonneg : (0 : Int) ≤ (keyEdges c (allSends log)).foldl Counter.bump 0 :=
    Counter.foldl_bump_nonneg le_rfl _
  have hshared := Counter.Caps.shared (fun j => stakeOf c (logOf j log) (ps j)) hcaps hnonneg
    h.bound
  rw [← stakes_update (stakeOf c) log ps g l p] at hshared
  rw [allSends_append, allSends_map, keyEdges_append, List.foldl_append]
  exact hshared

/-- **Stakes.** What the shared filter counts for `c` is owed by keys of the grabs. -/
theorem serve_owed {roots : Fin n → KeyAction} (hmap : ∀ g, (roots g).isMap = true)
    (hroots : ∀ g, (roots g).Usable RolloverMode) {inputs : List (GrabReading n)}
    {s : ServeState n} {log : List (Fin n × Effect)} (h : serve roots inputs = .ok (s, log))
    {c : KeyCode} (hc : c ≠ 0) : SharedOwed c log s.plain := by
  refine serve_inv (SharedOwed c) (fun _ => True) ?_ ?_ ?_ (fun _ _ => trivial) ?_ h
  · -- an event that is dropped
    intro log ps g ev s hinv hd
    have halt := alternating_drop (hinv.alternating g) hd
    obtain ⟨counts, rfl⟩ := resolveDedupInput_eq hd
    have hstep := hinv.step (g := g) (l := []) (p := ⟨_, (ps g).queue⟩)
      (by rw [List.append_nil]; exact halt) (by rw [List.append_nil]; exact Counter.caps_nil _)
    rwa [List.map_nil, List.append_nil] at hstep
  · -- an event that is queued changes nothing that is owed
    intro log ps g ev s hinv _ ha
    have halt := alternating_arrive (hinv.alternating g) ha
    obtain ⟨counts, rfl⟩ := resolveDedupInput_eq ha
    have hstake : stakeOf c (logOf g log ++ [.arrive ev])
        ⟨{ (ps g).toKeyState with inputCounts := counts }, (ps g).queue ++ [ev]⟩
          = stakeOf c (logOf g log) (ps g) := by
      unfold stakeOf owed
      congr 1
      funext k
      simp only [owes, keyDown_append]
      rfl
    refine hinv.step (l := [.arrive ev]) halt ?_
    rw [hstake]
    exact Counter.caps_nil _
  · -- a call of `resolve`
    intro now log ps g b p' l hinv hstep
    exact hinv.step (plainResolve_alternating (hinv.alternating g) hstep
      (plainResolve_takenAfterPress (hinv.alternating g).ready hstep))
      (plainResolve_caps (hinv.alternating g) hstep hc)
  · refine ⟨fun g => alternating_init (hmap g) (hroots g), ?_⟩
    exact Finset.sum_nonneg fun g _ => Int.natCast_nonneg _

/-- **No stuck keys.** For any grabs whose filled keymaps have no `TIMEOUT_ONLY` key, and any
    events with codes below `KEY_MAX` at any clock readings that do not overflow a queue:
    a key that was pressed as `KT_SIMPLE c`, `c ≠ 0`, is released as `c`, and no release is
    lost; and whenever all keys are up, every queue is empty, every grab is in its root keymap,
    and the output filter holds no code but possibly 0. -/
theorem no_stuck_keys (keymaps : Fin n → Keymap)
    (hmode : ∀ g, (keymaps g).root.NoTimeoutOnly) (inputs : List (GrabReading n))
    (hin : ∀ i ∈ inputs, CodeInRange i.ev) :
    serve (fun g => (keymaps g).root) inputs = .error .overflow ∨
    ∃ s log, serve (fun g => (keymaps g).root) inputs = .ok (s, log) ∧
      (∀ g, Along AnsweredWith (logOf g log)) ∧
      (∀ g k, releasesOf k (released (logOf g log)) ++ releasesOf k (s.resolvers g).queue
        = releasesOf k (arrivals (logOf g log))) ∧
      ((∀ g k, (s.resolvers g).inputCounts k = 0) →
        (∀ g, (s.resolvers g).urLen = 0 ∧
          (s.resolvers g).currentKeymap = (s.resolvers g).rootKeymap) ∧
        ∀ c, c ≠ 0 → s.deduper.pressCountMap c = 0) := by
  have hroots : ∀ g, (keymaps g).root.Usable RolloverMode := fun g =>
    ⟨(keymaps g).root_filled, hmode g⟩
  rcases serve_total (fun _ => rfl) hroots hin with h | ⟨s, log, h⟩
  · exact .inl h
  have hgrab := fun g => runPlain_accounted rfl (hroots g) (serve_grab_plain h g)
  refine .inr ⟨s, log, h, fun g => (hgrab g).1.answeredWith, fun g k => (hgrab g).1.answered k,
    fun hup => ?_⟩
  have hrest := fun g => (hgrab g).1.at_rest (hgrab g).2 (hup g)
  refine ⟨fun g => ⟨?_, (hrest g).2.2⟩, fun c hc => ?_⟩
  · have hlen := congrArg List.length (hrest g).1
    rwa [Resolver.plain_queue, Resolver.length_queue] at hlen
  · -- nothing is owed, and no count is negative
    have hbound := (serve_owed (fun _ => rfl) hroots h hc).bound
    have howed : ∀ g, stakeOf c (logOf g log) (s.plain g) = 0 := by
      intro g
      unfold stakeOf owed
      exact Counter.tally_eq_zero fun k => by rw [owes, (hrest g).2.1 k, Bool.false_and]
    have hsum : ∑ g, (stakeOf c (logOf g log) (s.plain g) : Int) = 0 :=
      Finset.sum_eq_zero fun g _ => by rw [howed g]; rfl
    rw [hsum] at hbound
    rw [serve_pressCountMap h]
    exact le_antisymm hbound (Counter.foldl_bump_nonneg le_rfl _)

/-- Key 45 is held as a shift while key 30 is tapped; both are released. -/
def shiftedTap : List (GrabReading 1) :=
  [⟨keyAt 0 45 1, soleGrab⟩, ⟨keyAt 20 30 1, soleGrab⟩, ⟨keyAt 60 30 0, soleGrab⟩,
    ⟨keyAt 90 45 0, soleGrab⟩]

/-- After a shifted tap the shift is up again. -/
theorem no_stuck_keys_shiftedTap :
    ∃ s log, serve (fun _ : Fin 1 => (shiftOn45 .tapOnRollover).root) shiftedTap = .ok (s, log) ∧
      (s.resolvers 0).urLen = 0 ∧ s.deduper.pressCountMap 42 = 0 := by
  have hmode : ∀ g : Fin 1, (shiftOn45 .tapOnRollover).root.NoTimeoutOnly := fun _ =>
    shiftOn45_allDuals (by decide)
  have hin : ∀ i ∈ shiftedTap, CodeInRange i.ev := by decide
  have hrun : (serve (fun _ : Fin 1 => (shiftOn45 .tapOnRollover).root) shiftedTap).map
      (fun x => decide (∀ g k, (x.1.resolvers g).inputCounts k = 0)) = .ok true := by
    decide +kernel
  obtain ⟨⟨s, log⟩, hok, hup⟩ := Steps.map_eq_ok hrun
  rcases no_stuck_keys (fun _ => shiftOn45 .tapOnRollover) hmode shiftedTap hin with
    h | ⟨s', log', h, _, _, hrest⟩
  · exact absurd (h.symm.trans hok) (by simp)
  · cases h.symm.trans hok
    have hdone := hrest (of_decide_eq_true hup)
    exact ⟨s, log, h, (hdone.1 0).1, hdone.2 42 (by decide)⟩

end Sdiol
