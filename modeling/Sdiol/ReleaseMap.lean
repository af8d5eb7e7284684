import Sdiol.Passthrough

namespace Sdiol

/-!
# What `release_map` says about the keys

`release_map` is meant to hold, for every key that is down, what its release has to send, and
so to tell which keys are down: `Tells`.  A press enters a code or `RESET_KEYMAP` and
`resolve_release` clears the entry, but a release that `resolve` takes early leaves it in
place, and a press that is mapped to code 0 enters what stands for "not pressed".

A call of `resolve` that does neither is `Tidy`, in terms of its effects, and `Keeps` is the
condition on the state before a call that makes it so (`plainResolve_tidy`).  From a state in
which `release_map` tells, it tells after a call exactly if the call is tidy
(`plainResolve_tells`); `release_map_tells` is about every state of a run.
-/

/-! ### What an entry should be -/

/-- What key `k` is down as: the action of its latest press, until its release is taken from
    the queue. -/
def heldAs (k : KeyCode) (log : List Effect) : Option KeyAction :=
  if keyDown k log = true then lastAction k log else none

/-- `release_map` holds the code of every key that is down as a simple key and `RESET_KEYMAP`
    for every key that is down as a layer, neither of which is 0, and 0 for all other keys. -/
structure Tells (log : List Effect) (s : KeyState) : Prop where
  simple : ∀ k c, heldAs k log = some (.ktSimple c) →
    s.releaseMap k = codeOf c ∧ s.releaseMap k ≠ 0
  layer : ∀ k map, heldAs k log = some (.ktMap map) →
    s.releaseMap k = resetKeymap ∧ s.releaseMap k ≠ 0
  other : ∀ k, (∀ c, heldAs k log ≠ some (.ktSimple c)) →
    (∀ map, heldAs k log ≠ some (.ktMap map)) → s.releaseMap k = 0

/-- What a press enters into `release_map`, over the entry `old`. -/
def entered (old : UInt16) : Option KeyAction → UInt16
  | some (.ktSimple c) => codeOf c
  | some (.ktMap _) => resetKeymap
  | _ => old

theorem tells_iff {log : List Effect} {s : KeyState} :
    Tells log s ↔ (∀ k, s.releaseMap k = entered 0 (heldAs k log)) ∧
      ∀ k, heldAs k log ≠ some (.ktSimple 0) := by
  constructor
  · intro h
    refine ⟨fun k => ?_, fun k hk => ?_⟩
    · cases hheld : heldAs k log with
      | none =>
        apply h.other k <;> simp [hheld]
      | some ka =>
        cases ka with
        | ktSimple c => exact (h.simple k c hheld).1
        | ktMap map => exact (h.layer k map hheld).1
        | _ => apply h.other k <;> simp [hheld]
    · obtain ⟨hcode, hne⟩ := h.simple k 0 hk
      have h0 : codeOf 0 = 0 := by decide
      exact hne (hcode.trans h0)
  · -- only the code 0 cannot be told from an entry that is empty
    rintro ⟨hentry, hzero⟩
    constructor
    · intro k c hk
      have hcode : s.releaseMap k = codeOf c := by rw [hentry, hk]; rfl
      refine ⟨hcode, ?_⟩
      rw [hcode]
      apply codeOf_ne_zero
      rintro rfl
      exact hzero k hk
    · intro k map hk
      have hreset : s.releaseMap k = resetKeymap := by rw [hentry, hk]; rfl
      refine ⟨hreset, ?_⟩
      rw [hreset]
      decide
    · intro k hsimple hlayer
      rw [hentry]
      cases hheld : heldAs k log with
      | none => rfl
      | some ka =>
        cases ka with
        | ktSimple c => exact absurd hheld (hsimple c)
        | ktMap map => exact absurd hheld (hlayer map)
        | _ => rfl

theorem tells_init (root : KeyAction) : Tells [] (KeyState.init root) := by
  apply tells_iff.mpr
  exact ⟨fun k => rfl, fun k => by simp [heldAs, keyDown]⟩

theorem Tells.of_eq {log log' : List Effect} {s s' : KeyState} (h : Tells log s)
    (hheld : ∀ k, heldAs k log' = heldAs k log) (hmap : s'.releaseMap = s.releaseMap) :
    Tells log' s' := by
  obtain ⟨hentry, hzero⟩ := tells_iff.mp h
  apply tells_iff.mpr
  refine ⟨fun k => ?_, fun k => ?_⟩
  · rw [hmap, hheld]
    exact hentry k
  · rw [hheld]
    exact hzero k

/-! ### Tidy calls -/

/-- No release of a key is taken early whose entry is not 0, and no press is mapped to
    code 0. -/
def Tidy : Effect → Prop
  | .released ev code true => ev.isRelease = true → code = 0
  | .keypress _ ka => ka.code ≠ some 0
  | _ => True

instance (x : Effect) : Decidable (Tidy x) :=
  match x with
  | .released ev code true => inferInstanceAs (Decidable (ev.isRelease = true → code = 0))
  | .keypress _ ka => inferInstanceAs (Decidable (ka.code ≠ some 0))
  | .released _ _ false | .arrive _ | .checked .. | .send _ => isTrue trivial

/-- In the state before a call of `resolve`: the call does not take the release of a key early
    unless its entry is 0, and does not map a press to code 0. -/
structure Keeps (now : Timeval) (p : PlainResolver) : Prop where
  early : HeadWaits now p → ∀ ev k, p.queue.getLast? = some ev → ev.isRelease = true →
    ev.code = codeOf k → p.releaseMap k ∈ modifierKeys ∨ p.releaseMap k = 0
  press : ∀ X rest k ka pre t, p.queue = X :: rest → X.isPress = true → X.code = codeOf k →
    Chosen { p.toKeyState with useResolvableTime := false } now X rest k ka pre t →
      ka.code ≠ some 0

section Call

variable {now : Timeval} {s s' : KeyState} {X : InputEvent} {rest : List InputEvent}
  {k : KeyCode} {ka : KeyAction} {pre l : List Effect} {t : LastTap} {p p' : PlainResolver}

/-- An oldest event that is resolved does not wait. -/
theorem Handled.not_headWaits (hqueue : p.queue = X :: rest)
    (h : Handled { p.toKeyState with useResolvableTime := false } now X rest true s l) :
    ¬ HeadWaits now p := by
  rintro ⟨Y, rest', k, tap, hold, dual, hq, hpress, hcode, hget, hnone⟩
  obtain ⟨rfl, rfl⟩ := List.cons.inj (hqueue.symm.trans hq)
  obtain ⟨_, _, _, _, _, hchosen, _⟩ := h.acted hpress hcode
  exact hchosen.decided hget hnone

/-- `resolve_press` settles on one action. -/
theorem Chosen.unique (h : Chosen s now X rest k ka pre t) {ka' : KeyAction}
    {pre' : List Effect} {t' : LastTap} (h' : Chosen s now X rest k ka' pre' t') : ka' = ka := by
  cases h with
  | plain hget hdual =>
    cases h' with
    | plain hget' _ => exact Except.ok.inj (hget'.symm.trans hget)
    | tap hget' _ | hold hget' _ =>
      cases hget.symm.trans hget'
      exact absurd hdual (by simp [KeyAction.isDual])
  | tap hget hcheck | hold hget hcheck =>
    cases h' with
    | plain hget' hdual =>
      cases hget.symm.trans hget'
      exact absurd hdual (by simp [KeyAction.isDual])
    | tap hget' hcheck' | hold hget' hcheck' =>
      cases hget.symm.trans hget'
      first
        | rfl
        | exact absurd (congrArg Prod.fst (hcheck.symm.trans hcheck')) (by simp)

/-- Acting on a press is tidy unless it is mapped to code 0. -/
theorem Acted.tidy (h : Acted s X k ka s' l) {s₀ : KeyState}
    (hchosen : Chosen s₀ now X rest k ka pre t) :
    (∀ x ∈ pre ++ l, Tidy x) ↔ ka.code ≠ some 0 := by
  rw [h.log_eq]
  constructor
  · intro hall
    exact hall (.keypress X ka) (List.mem_append_right _ List.mem_cons_self)
  · intro hcode x hx
    rcases List.mem_append.mp hx with hx | hx
    · rcases hchosen.log_eq with rfl | ⟨_, _, _, rfl⟩
      · exact absurd hx (by simp)
      · rw [List.mem_singleton.mp hx]
        trivial
    · rcases List.mem_cons.mp hx with rfl | hx
      · exact hcode
      · obtain ⟨ev, _, rfl⟩ := List.mem_map.mp hx
        trivial

/-- Whatever is not the press of a key is resolved tidily. -/
theorem Handled.tidy (h : Handled s now X rest true s' l)
    (hpress : ¬ (X.isPress = true ∧ ∃ k, X.code = codeOf k)) : ∀ x ∈ l, Tidy x := by
  intro x hx
  cases h with
  | ignored _ => exact absurd hx (by simp)
  | passed _ | repeated _ _ _ _ _ | releasedLayer _ _ _ _ | releasedNothing _ _ _ _ =>
    rw [List.mem_singleton.mp hx]
    trivial
  | releasedCode _ _ _ _ _ =>
    rcases List.mem_pair.mp hx with rfl | rfl <;> trivial
  | pressed hp hcode _ _ => exact absurd ⟨hp, _, hcode⟩ hpress

/-- What is taken early is taken tidily if it is no release of a key, or if its entry is 0. -/
theorem earlyRelease_tidy (h : earlyRelease s X = some (s', l)) (hcode : X.code = codeOf k) :
    (∀ x ∈ l, Tidy x) ↔ (X.isRelease = true → s.releaseMap k = 0) := by
  obtain ⟨j, hcode', _, hcase⟩ := earlyRelease_eq_some h
  obtain rfl := codeOf_injective (hcode'.symm.trans hcode)
  rcases hcase with ⟨_, _, rfl⟩ | ⟨_, _, _, rfl⟩
  · simp [Tidy]
  · simp [Tidy]

/-- Of the releases, only those of modifiers are left in the queue. -/
theorem earlyRelease_eq_none (h : earlyRelease s X = none) (hcode : X.code = codeOf k)
    (hvalue : X.value = 0) : s.releaseMap k ∈ modifierKeys := by
  unfold earlyRelease at h
  rw [hcode, asKey_codeOf] at h
  simp only [hvalue, if_true] at h
  split at h
  · exact absurd h (by simp)
  · split at h
    · rename_i hmod
      exact hmod
    · exact absurd h (by simp)

/-- **Condition.** A call of `resolve` is tidy exactly if `Keeps` holds before it. -/
theorem plainResolve_tidy {b : Bool} (h : plainResolve earlyRelease now p = .ok (b, p', l)) :
    (∀ x ∈ l, Tidy x) ↔ Keeps now p := by
  rcases plainResolve_cases h with ⟨hnil, _, _, rfl⟩ | ⟨X, rest, s', hq, _, _, hh⟩ |
    ⟨X, rest, newest, s₁, l₁, hq, _, hnewest, hh, hearly⟩
  · -- nothing is queued
    refine iff_of_true (by simp) ⟨fun hwait => ?_, fun X rest _ _ _ _ hq => ?_⟩
    · obtain ⟨_, _, _, _, _, _, hq, _⟩ := hwait
      exact absurd (hnil.symm.trans hq) (by simp)
    · exact absurd (hnil.symm.trans hq) (by simp)
  · -- the oldest event is resolved, and only a press of a key may be untidy
    have hwait := hh.not_headWaits hq
    by_cases hpress : X.isPress = true ∧ ∃ k, X.code = codeOf k
    · obtain ⟨hpr, k, hcode⟩ := hpress
      obtain ⟨ka, pre, t, l', rfl, hchosen, hacted⟩ := hh.acted hpr hcode
      rw [hacted.tidy hchosen]
      constructor
      · intro hne
        refine ⟨fun h => absurd h hwait, fun X' rest' k' ka' pre' t' hq' _ hcode' hchosen' => ?_⟩
        obtain ⟨rfl, rfl⟩ := List.cons.inj (hq.symm.trans hq')
        obtain rfl := codeOf_injective (hcode'.symm.trans hcode)
        rw [hchosen.unique hchosen']
        exact hne
      · intro hkeeps
        exact hkeeps.press X rest k ka pre t hq hpr hcode hchosen
    · refine iff_of_true (hh.tidy hpress) ⟨fun h => absurd h hwait, ?_⟩
      intro X' rest' k' _ _ _ hq' hpr' hcode' _
      obtain ⟨rfl, rfl⟩ := List.cons.inj (hq.symm.trans hq')
      exact absurd ⟨hpr', k', hcode'⟩ hpress
  · -- the oldest event waits, so it is not acted on
    obtain ⟨hwait, hmap, _, _, dual, t, rfl⟩ := hh.headWaits hq
    have hpress : ∀ X' rest' k' ka' pre' t', p.queue = X' :: rest' → X'.isPress = true →
        X'.code = codeOf k' → Chosen { p.toKeyState with useResolvableTime := false } now X' rest'
          k' ka' pre' t' → ka'.code ≠ some 0 := by
      intro X' rest' k' ka' pre' t' hq' _ hcode' hchosen'
      obtain ⟨Y, _, k, _, _, _, hqY, _, hcodeY, hget, hnone⟩ := hwait
      obtain ⟨rfl, rfl⟩ := List.cons.inj (hq'.symm.trans hqY)
      obtain rfl := codeOf_injective (hcode'.symm.trans hcodeY)
      exact absurd hnone (hchosen'.decided hget)
    have hlast : p.queue.getLast? = some newest := by
      rw [queue_newest hq hnewest, List.getLast?_concat]
    rcases hearly with ⟨hnone, _, rfl⟩ | ⟨s₂, l₂, hsome, _, rfl⟩
    · -- the newest event is left alone
      refine iff_of_true (fun x hx => ?_) ⟨fun _ ev k hev hrel hcode => ?_, hpress⟩
      · rw [List.mem_singleton.mp hx]
        trivial
      · obtain rfl := Option.some.inj (hlast.symm.trans hev)
        left
        rw [← hmap]
        exact earlyRelease_eq_none hnone hcode (InputEvent.isRelease_iff.mp hrel).2
    · -- the newest event is taken early
      obtain ⟨k, hcode, _, _⟩ := earlyRelease_eq_some hsome
      have hmod := earlyRelease_not_modifier hsome hcode
      have htidy := earlyRelease_tidy hsome hcode
      rw [hmap] at hmod htidy
      have hsplit : (∀ x ∈ [.checked X dual now t .noneYet] ++ l₂, Tidy x) ↔ ∀ x ∈ l₂, Tidy x := by
        simp [Tidy]
      rw [hsplit, htidy]
      constructor
      · intro hzero
        refine ⟨fun _ ev j hev hrel hcodej => ?_, hpress⟩
        obtain rfl := Option.some.inj (hlast.symm.trans hev)
        obtain rfl := codeOf_injective (hcode.symm.trans hcodej)
        exact .inr (hzero hrel)
      · intro hkeeps hrel
        exact (hkeeps.early hwait newest k hlast hrel hcode).resolve_left hmod

end Call

/-! ### One step -/

section Step

variable {now : Timeval} {s s' : KeyState} {ev : InputEvent} {queued : List InputEvent}
  {k : KeyCode} {ka : KeyAction} {log l : List Effect} {t : LastTap}

theorem heldAs_append (k : KeyCode) (log l : List Effect) :
    heldAs k (log ++ l) = if l.foldl (downStep k) (keyDown k log) = true
      then l.foldl (actionStep k) (lastAction k log) else none := by
  unfold heldAs
  rw [keyDown_append, lastAction_append]

/-- Effects that move no key do not change what it is down as. -/
theorem heldAs_of_idle (hdown : ∀ d, l.foldl (downStep k) d = d)
    (haction : ∀ a, l.foldl (actionStep k) a = a) : heldAs k (log ++ l) = heldAs k log := by
  rw [heldAs_append, hdown, haction]
  rfl

/-- The entry of a key after its press was acted on. -/
theorem Acted.entered (h : Acted s ev k ka s' l) :
    s'.releaseMap k = entered (s.releaseMap k) (some ka) := by
  cases h with
  | simple c => exact Function.update_self ..
  | chain ch => rfl
  | layer map => exact Function.update_self ..

/-- **Press.** Acting on a press of a key that is up, `release_map` keeps telling unless the
    press is mapped to code 0. -/
theorem Handled.tells_press (h : Handled s now ev queued true s' l)
    (hpress : ev.isPress = true) (hcode : ev.code = codeOf k) (hup : keyDown k log = false)
    (hs : Tells log s) : Tells (log ++ l) s' ↔ ∀ x ∈ l, Tidy x := by
  obtain ⟨hentry, hzero⟩ := tells_iff.mp hs
  have hother : ∀ j, j ≠ k → heldAs j (log ++ l) = heldAs j log ∧
      s'.releaseMap j = s.releaseMap j := by
    intro j hj
    have hne : ev.code ≠ codeOf j := fun he => hj (codeOf_injective (he.symm.trans hcode))
    obtain ⟨hmap, haction⟩ := h.other hne
    refine ⟨heldAs_of_idle (fun d => ?_) haction, hmap⟩
    rw [h.foldl_downStep, keyEdge_of_code_ne hne]
    rfl
  have hdown := h.foldl_downStep k (keyDown k log)
  rw [keyEdge_press hpress, if_pos hcode, Option.getD_some] at hdown
  obtain ⟨ka, pre, t, l', rfl, hchosen, hacted⟩ := h.acted hpress hcode
  have hheld : heldAs k (log ++ (pre ++ l')) = some ka := by
    rw [heldAs_append, hdown, List.foldl_append, hchosen.foldl_actionStep,
      hacted.foldl_actionStep, if_pos hcode]
    rfl
  -- the press finds the entry cleared, so that a macro leaves 0
  have hnone : s.releaseMap k = 0 := by
    have hk := hentry k
    rw [heldAs, hup] at hk
    exact hk
  have hentered : s'.releaseMap k = entered 0 (some ka) := by
    rw [hacted.entered]
    show entered (s.releaseMap k) (some ka) = _
    rw [hnone]
  rw [hacted.tidy hchosen, tells_iff]
  constructor
  · rintro ⟨_, hne⟩ hka
    apply hne k
    rw [hheld]
    cases ka with
    | ktSimple c => exact congrArg (some ∘ KeyAction.ktSimple) (Option.some.inj hka)
    | _ => exact absurd hka (by simp [KeyAction.code])
  · intro hka
    refine ⟨fun j => ?_, fun j => ?_⟩
    · by_cases hj : j = k
      · rw [hj, hheld]
        exact hentered
      · rw [(hother j hj).1, (hother j hj).2]
        exact hentry j
    · by_cases hj : j = k
      · rw [hj, hheld]
        intro heq
        rw [Option.some.inj heq] at hka
        exact hka rfl
      · rw [(hother j hj).1]
        exact hzero j

/-- **Head.** Any other event that is resolved leaves the entries as they should be. -/
theorem Handled.tells (h : Handled s now ev queued true s' l)
    (hpress : ¬ (ev.isPress = true ∧ ∃ k, ev.code = codeOf k)) (hs : Tells log s) :
    Tells (log ++ l) s' := by
  obtain ⟨hentry, hzero⟩ := tells_iff.mp hs
  have hkey : ∀ j, (heldAs j (log ++ l) = none ∧ s'.releaseMap j = 0) ∨
      (heldAs j (log ++ l) = heldAs j log ∧ s'.releaseMap j = s.releaseMap j) := by
    intro j
    -- an event of another key leaves the entry alone
    by_cases hj : ev.code = codeOf j
    · have hdown := h.foldl_downStep j
      have hcleared : ev.isRelease = true → heldAs j (log ++ l) = none := by
        intro hrel
        rw [heldAs_append, hdown, keyEdge_release hrel, if_pos hj]
        rfl
      -- a release of the key clears its entry, whatever it was
      cases h with
      | ignored hidle =>
        right
        rw [List.append_nil]
        exact ⟨rfl, rfl⟩
      | passed hne => exact .inr ⟨heldAs_of_idle (fun _ => rfl) fun _ => rfl, rfl⟩
      | repeated _ _ _ _ _ => exact .inr ⟨heldAs_of_idle (fun _ => rfl) fun _ => rfl, rfl⟩
      | releasedLayer i hrel hi _ | releasedNothing i hrel hi _ | releasedCode i hrel hi _ _ =>
        obtain rfl := codeOf_injective (hi.symm.trans hj)
        exact .inl ⟨hcleared hrel, Function.update_self ..⟩
      | pressed hp hi _ _ => exact absurd ⟨hp, _, hi⟩ hpress
    · obtain ⟨hmap, haction⟩ := h.other hj
      refine .inr ⟨heldAs_of_idle (fun d => ?_) haction, hmap⟩
      rw [h.foldl_downStep, keyEdge_of_code_ne hj]
      rfl
  apply tells_iff.mpr
  refine ⟨fun j => ?_, fun j => ?_⟩
  · rcases hkey j with ⟨hheld, hmap⟩ | ⟨hheld, hmap⟩
    · rw [hheld, hmap]
      rfl
    · rw [hheld, hmap]
      exact hentry j
  · rcases hkey j with ⟨hheld, _⟩ | ⟨hheld, _⟩
    · rw [hheld]
      simp
    · rw [hheld]
      exact hzero j

/-- **Newest.** Taking an event early, `release_map` keeps telling exactly if the call is
    tidy. -/
theorem earlyRelease_tells (h : earlyRelease s ev = some (s', l)) (hs : Tells log s) :
    Tells (log ++ l) s' ↔ ∀ x ∈ l, Tidy x := by
  obtain ⟨hentry, hzero⟩ := tells_iff.mp hs
  obtain ⟨k, hcode, _, _⟩ := earlyRelease_eq_some h
  have hmap := (earlyRelease_key h k false).2.1
  have hheld : ∀ j, heldAs j (log ++ l) =
      if keyEdge j ev = some false then none else heldAs j log := by
    intro j
    rw [heldAs_append, (earlyRelease_key h j _).2.2.2, earlyRelease_actionStep h]
    by_cases hedge : keyEdge j ev = some false
    · rw [if_pos hedge, if_pos hedge]
      rfl
    · rw [if_neg hedge, if_neg hedge]
      rfl
  -- an early release does not clear the entry, so that it has to be 0 already
  rw [earlyRelease_tidy h hcode, tells_iff]
  constructor
  · rintro ⟨hafter, _⟩ hrel
    have hk := hafter k
    rw [hmap, hheld, if_pos (by rw [keyEdge_release hrel, if_pos hcode])] at hk
    exact hk
  · intro hclear
    refine ⟨fun j => ?_, fun j => ?_⟩
    · rw [hmap, hheld]
      by_cases hedge : keyEdge j ev = some false
      · obtain ⟨hj, hrel⟩ := keyEdge_eq_some_false hedge
        obtain rfl := codeOf_injective (hj.symm.trans hcode)
        rw [if_pos hedge]
        exact hclear hrel
      · rw [if_neg hedge]
        exact hentry j
    · rw [hheld]
      split
      · simp
      · exact hzero j

/-- **Step.** From a state in which `release_map` tells, it tells after a call of `resolve`
    exactly if the call is tidy. -/
theorem plainResolve_tells {P : DualConfig → Prop} {p p' : PlainResolver} {b : Bool}
    (hp : Alternating P log p) (hs : Tells log p.toKeyState)
    (h : plainResolve earlyRelease now p = .ok (b, p', l)) :
    Tells (log ++ l) p'.toKeyState ↔ ∀ x ∈ l, Tidy x := by
  have hs' : Tells log { p.toKeyState with useResolvableTime := false } :=
    hs.of_eq (fun _ => rfl) rfl
  rcases plainResolve_cases h with ⟨_, _, rfl, rfl⟩ | ⟨X, rest, s', hq, _, rfl, hh⟩ |
    ⟨X, rest, newest, s₁, l₁, hq, _, hnewest, hh, hearly⟩
  · rw [List.append_nil]
    exact iff_of_true hs (by simp)
  · by_cases hpress : X.isPress = true ∧ ∃ k, X.code = codeOf k
    · obtain ⟨hpr, k, hcode⟩ := hpress
      refine hh.tells_press hpr hcode ?_ hs'
      exact hp.moves hq k true (by rw [keyEdge_press hpr, if_pos hcode])
    · exact iff_of_true (hh.tells hpress hs') (hh.tidy hpress)
  · obtain ⟨hmap, _, _, _, hdown, haction⟩ := hh.waiting_eq
    have hwaiting : Tells (log ++ l₁) s₁ :=
      hs'.of_eq (fun k => heldAs_of_idle (hdown k) (haction k)) hmap
    obtain ⟨_, _, _, _, dual, t, rfl⟩ := hh.headWaits hq
    rcases hearly with ⟨_, rfl, rfl⟩ | ⟨s₂, l₂, hearly, rfl, rfl⟩
    · exact iff_of_true hwaiting (by simp [Tidy])
    · rw [← List.append_assoc, earlyRelease_tells hearly hwaiting]
      simp [Tidy]

end Step

/-! ### Whole runs -/

/-- The resolver of a grab can be in state `r`, before or after a call, with the effects `log`
    behind it, if every call of `resolve` starts where `C` holds. -/
inductive Traced (root : KeyAction) (C : Timeval → Resolver → Prop) :
    List Effect → Resolver → Prop
  | init : Traced root C [] (resolverInit root)
  | dropped {log : List Effect} {r : Resolver} {ev : InputEvent} {s : KeyState}
      (h : Traced root C log r) (hdedup : resolveDedupInput r.toKeyState ev = .ok (false, s)) :
      Traced root C log { r with toKeyState := s }
  | queued {log : List Effect} {r : Resolver} {ev : InputEvent} {s : KeyState}
      (h : Traced root C log r) (hdedup : resolveDedupInput r.toKeyState ev = .ok (true, s))
      (hroom : r.urLen ≠ urMax) :
      Traced root C (log ++ [.arrive ev]) (({ r with toKeyState := s } : Resolver).push ev)
  | resolved {log : List Effect} {r r' : Resolver} {now : Timeval} {b : Bool} {l : List Effect}
      (h : Traced root C log r) (hC : C now r) (hstep : resolve now r = .ok (b, r', l)) :
      Traced root C (log ++ l) r'

section Run

variable {root : KeyAction} {C : Timeval → Resolver → Prop} {r : Resolver} {log : List Effect}

theorem Traced.visited (h : Traced root C log r) : Visited root (fun _ => True) r := by
  induction h with
  | init => exact .init
  | dropped _ hdedup ih => exact ih.filtered trivial hdedup
  | queued _ hdedup hroom ih => exact (ih.filtered trivial hdedup).queued trivial hroom
  | resolved _ _ hstep ih => exact ih.resolved hstep

/-- **Runs trace.** The state after each event of a run is traced. -/
theorem runResolver_traced {inputs : List Reading} (h : runResolver root inputs = .ok (r, log))
    (hall : Steps.RunAll (fun (i : Reading) => serveEvent i.clk i.ev) (CallsAll C) inputs
      (resolverInit root)) : Traced root C log r := by
  refine Steps.run_inv_all (fun log r => Traced root C log r) ?_ [] .init hall h
  intro i log r r' l hr hcalls hstep
  unfold serveEvent at hstep
  obtain ⟨⟨pass, s⟩, hdedup, hstep⟩ := Steps.bind_eq_ok.mp hstep
  simp only at hstep
  cases pass with
  | false =>
    cases hstep
    rw [List.append_nil]
    exact hr.dropped hdedup
  | true =>
    simp only [if_true] at hstep
    split at hstep
    · exact absurd hstep (by simp)
    · rename_i hroom
      obtain ⟨⟨r₁, l₁⟩, hloop, hstep⟩ := Steps.bind_eq_ok.mp hstep
      cases hstep
      have hlog : log ++ .arrive i.ev :: l₁ = log ++ [.arrive i.ev] ++ l₁ := by simp
      rw [hlog]
      refine Steps.loop_inv_all (fun log r => Traced root C log r) ?_ _
        (hr.queued hdedup hroom) (hcalls s hdedup hroom) hloop
      exact fun _ _ _ _ _ _ h hC hres => h.resolved hC hres

/-- Outside `TIMEOUT_ONLY`, the events of each key alternate in every state. -/
theorem Traced.alternating (hmap : root.isMap = true) (hroot : root.Usable RolloverMode)
    (h : Traced root C log r) : Alternating RolloverMode log r.plain := by
  induction h with
  | init => exact alternating_init hmap hroot
  | dropped _ hdedup ih => exact alternating_drop ih hdedup
  | @queued log r ev s h hdedup hroom ih =>
    have hlt : ({ r with toKeyState := s } : Resolver).urLen < urMax :=
      lt_of_le_of_ne h.visited.inBounds.2 hroom
    rw [Resolver.plain_push hlt]
    exact alternating_arrive ih hdedup
  | resolved _ _ hstep ih =>
    have hplain := resolve_plain_ok hstep
    exact plainResolve_alternating ih hplain (plainResolve_takenAfterPress ih.ready hplain)

/-- Neither the input filter nor the queue touches an entry. -/
theorem Tells.filtered {s s' : KeyState} {ev : InputEvent} {pass : Bool} (h : Tells log s)
    (hdedup : resolveDedupInput s ev = .ok (pass, s')) : Tells log s' := by
  obtain ⟨counts, rfl⟩ := resolveDedupInput_eq hdedup
  exact h.of_eq (fun _ => rfl) rfl

/-- **Invariant.** If every call starts where `Keeps` holds, `release_map` always tells. -/
theorem Traced.tells (hmap : root.isMap = true) (hroot : root.Usable RolloverMode)
    (h : Traced root (fun now r => Keeps now r.plain) log r) : Tells log r.toKeyState := by
  induction h with
  | init => exact tells_init root
  | dropped _ hdedup ih => exact ih.filtered hdedup
  | queued _ hdedup _ ih =>
    exact (ih.filtered hdedup).of_eq (fun _ => heldAs_of_idle (fun _ => rfl) fun _ => rfl) rfl
  | resolved h hkeeps hstep ih =>
    have hplain := resolve_plain_ok hstep
    exact (plainResolve_tells (h.alternating hmap hroot) ih hplain).mpr
      ((plainResolve_tidy hplain).mpr hkeeps)

/-- Every call of `resolve` in the run of the inputs starts where `Keeps` holds. -/
def KeepingRun (root : KeyAction) (inputs : List Reading) : Prop :=
  Steps.RunAll (fun (i : Reading) => serveEvent i.clk i.ev)
    (CallsAll fun now r => Keeps now r.plain) inputs (resolverInit root)

/-- A run keeps the entries exactly if all that it does is tidy. -/
theorem keepingRun_iff {inputs : List Reading} (h : runResolver root inputs = .ok (r, log)) :
    KeepingRun root inputs ↔ ∀ x ∈ log, Tidy x := by
  refine Steps.runAll_iff (fun i r r' l hstep => ?_) h
  unfold serveEvent at hstep
  obtain ⟨⟨pass, s⟩, hdedup, hstep⟩ := Steps.bind_eq_ok.mp hstep
  simp only at hstep
  cases pass with
  | false =>
    cases hstep
    refine iff_of_true (fun s' hs' => ?_) (by simp)
    exact absurd (hdedup.symm.trans hs') (by simp)
  | true =>
    simp only [if_true] at hstep
    split at hstep
    · exact absurd hstep (by simp)
    · rename_i hroom
      obtain ⟨⟨r₁, l₁⟩, hloop, hstep⟩ := Steps.bind_eq_ok.mp hstep
      cases hstep
      have hcalls := Steps.loopAll_iff (P := fun now r => Keeps now r.plain) (Q := Tidy)
        (fun now b r r' l hres => (plainResolve_tidy (resolve_plain_ok hres)).symm) hloop
      constructor
      · intro hall x hx
        rcases List.mem_cons.mp hx with rfl | hx
        · trivial
        · exact hcalls.mp (hall s hdedup hroom) x hx
      · intro htidy s' hs' _
        cases hdedup.symm.trans hs'
        exact hcalls.mpr fun x hx => htidy x (List.mem_cons_of_mem _ hx)

end Run

/-- **Which keys are down.** Without `TIMEOUT_ONLY` keys, in a run whose calls of `resolve` all
    start where `Keeps` holds, `release_map` tells which keys are down, and as what, after each
    event and after each call.  In such a run a next call leaves it telling exactly if `Keeps`
    holds there as well. -/
theorem release_map_tells (km : Keymap) (hmode : km.root.NoTimeoutOnly) :
    (∀ inputs r log, runResolver km.root inputs = .ok (r, log) → KeepingRun km.root inputs →
      Tells log r.toKeyState) ∧
    ∀ log r, Traced km.root (fun now r => Keeps now r.plain) log r → Tells log r.toKeyState ∧
      ∀ now b r' l, resolve now r = .ok (b, r', l) →
        (Tells (log ++ l) r'.toKeyState ↔ Keeps now r.plain) := by
  have hroot : km.root.Usable RolloverMode := ⟨km.root_filled, hmode⟩
  refine ⟨fun inputs r log hrun hall => ?_, fun log r htraced => ?_⟩
  · exact (runResolver_traced hrun hall).tells rfl hroot
  · have htells := htraced.tells rfl hroot
    refine ⟨htells, fun now b r' l hstep => ?_⟩
    have hplain := resolve_plain_ok hstep
    rw [← plainResolve_tidy hplain]
    exact plainResolve_tells (htraced.alternating rfl hroot) htells hplain

/-- Key 38 is down as a layer, in which key 30 is down as 48. -/
theorem release_map_tells_layer :
    ∃ r log, runResolver layerOn38.root [keyAt 0 38 1, keyAt 10 30 1] = .ok (r, log) ∧
      Tells log r.toKeyState := by
  have hrun : (runResolver layerOn38.root [keyAt 0 38 1, keyAt 10 30 1]).map
      (fun x => decide (∀ e ∈ x.2, Tidy e)) = .ok true := by
    decide +kernel
  obtain ⟨⟨r, log⟩, hok, htidy⟩ := Steps.map_eq_ok hrun
  refine ⟨r, log, hok, ?_⟩
  exact (release_map_tells layerOn38 layerOn38_noTimeoutOnly).1 _ r log hok
    ((keepingRun_iff hok).mpr (of_decide_eq_true htidy))

/-- Key 30 types 0. -/
def reservedOn30 : Keymap :=
  .ofTable [(30, .ktSimple 0)] (by
    intro b hb
    obtain rfl := List.mem_singleton.mp hb
    trivial)

/-- Key 30 is released behind the undecided key 45, and its entry stays.  A key that types 0
    is down, and its entry is that of a key that is not. -/
theorem stale_and_reserved :
    (shiftOn45 .tapOnRollover).root.NoTimeoutOnly ∧ reservedOn30.root.NoTimeoutOnly ∧
    (∃ r log, runResolver (shiftOn45 .tapOnRollover).root
        [keyAt 0 30 1, keyAt 10 45 1, keyAt 20 30 0] = .ok (r, log) ∧
      heldAs 30 log = none ∧ r.releaseMap 30 = codeOf 30 ∧ ¬ Tells log r.toKeyState) ∧
    ∃ r log, runResolver reservedOn30.root [keyAt 0 30 1] = .ok (r, log) ∧
      (heldAs 30 log).map KeyAction.code = some (some 0) ∧ r.releaseMap 30 = 0 ∧
      ¬ Tells log r.toKeyState := by
  have hreserved : reservedOn30.root.NoTimeoutOnly := by
    refine Keymap.root_allDuals _ (tableMap_forall trivial fun b hb => ?_)
    obtain rfl := List.mem_singleton.mp hb
    trivial
  refine ⟨shiftOn45_allDuals (by decide), hreserved, ?_, ?_⟩
  · have hrun : (runResolver (shiftOn45 .tapOnRollover).root
        [keyAt 0 30 1, keyAt 10 45 1, keyAt 20 30 0]).map
          (fun x => ((heldAs 30 x.2).isNone, x.1.releaseMap 30)) = .ok (true, codeOf 30) := by
      decide +kernel
    obtain ⟨⟨r, log⟩, hok, heq⟩ := Steps.map_eq_ok hrun
    obtain ⟨hnone, hmap⟩ := Prod.mk.inj heq
    have hheld : heldAs 30 log = none := Option.isNone_iff_eq_none.mp hnone
    refine ⟨r, log, hok, hheld, hmap, fun htells => ?_⟩
    have hzero := htells.other 30 (by simp [hheld]) (by simp [hheld])
    exact absurd (hmap.symm.trans hzero) (by decide)
  · have hrun : (runResolver reservedOn30.root [keyAt 0 30 1]).map
        (fun x => ((heldAs 30 x.2).map KeyAction.code, x.1.releaseMap 30))
          = .ok (some (some 0), 0) := by
      decide +kernel
    obtain ⟨⟨r, log⟩, hok, heq⟩ := Steps.map_eq_ok hrun
    obtain ⟨hheld, hmap⟩ := Prod.mk.inj heq
    refine ⟨r, log, hok, hheld, hmap, fun htells => ?_⟩
    obtain ⟨ka, hka, hcode⟩ := Option.map_eq_some_iff.mp hheld
    cases ka with
    | ktSimple c => exact (htells.simple 30 c hka).2 hmap
    | _ => exact absurd hcode (by simp [KeyAction.code])

end Sdiol
