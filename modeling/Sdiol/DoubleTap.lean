import Sdiol.LastTap

namespace Sdiol

/-!
# Double taps

`last_tap_code` and `last_tap_time` are written in four places and, as a side effect of checks
that decide nothing, by the scan.  If what they stand for holds of the history (`Remembered`),
they have its values.  The converse fails, because a press that is no dual key leaves them
alone; but then the key of that press is not a dual key in the root keymap, and the next press
of it finds the root keymap (`Known`).  `Memory` is the invariant, with a lemma for each kind
of step, and `double_tap_history` reads the rule off it.
-/

open Steps (Along along_nil along_cons)
open Thinning (Thinned)
open Alternation (settle_cons settle_press_alone)

/-! ### The queue and the order of arrival -/

/-- What may have left the queue before the events in front of it: an event that is no press
    and, if it is a release, not that of a press in front of it. -/
def TakenEarly (before : List InputEvent) (x : InputEvent) : Prop :=
  x.isPress = false ∧
    (x.isRelease = true → ∀ e ∈ before, e.isPress = true → e.code ≠ x.code)

/-- The queue is what arrived after the last press that was acted on, without events that were
    taken early. -/
def Ahead (log : List Effect) (p : PlainResolver) : Prop :=
  ∃ past future, arrivals log = past ++ future ∧
    (presses past).length = (performed log).length ∧ Thinned TakenEarly [] future p.queue

section Ahead

variable {log l : List Effect} {p p' : PlainResolver} {ev Q R : InputEvent}
  {rest : List InputEvent}

theorem presses_of_dropped {seen full : List InputEvent} (h : Thinned TakenEarly seen full []) :
    presses full = [] := by
  refine List.filter_eq_nil_iff.mpr fun e he => ?_
  rcases h.mem_or_dropped (fun _ _ hx => hx.1) e he with hmem | hpress
  · exact absurd hmem (by simp)
  · simp [hpress]

/-- The oldest event of the queue is the next one to arrive that was not taken early. -/
theorem Ahead.head (h : Ahead log p) (hqueue : p.queue = ev :: rest) :
    ∃ past future, arrivals log = past ++ ev :: future ∧
      (presses past).length = (performed log).length ∧ Thinned TakenEarly [ev] future rest := by
  obtain ⟨past, future, harr, hlen, hthin⟩ := h
  rw [hqueue] at hthin
  obtain ⟨f₁, f₂, rfl, hf₁, hf₂⟩ := hthin.head
  refine ⟨past ++ f₁, f₂, by rw [harr, List.append_assoc], ?_, ?_⟩
  · rw [presses_append, presses_of_dropped hf₁, List.append_nil, hlen]
  · refine hf₂.mono fun l x hx => ⟨hx.1, fun hrel e he => hx.2 hrel e ?_⟩
    rw [List.nil_append, List.append_assoc]
    exact List.mem_append_right _ he

theorem Ahead.arrive (h : Ahead log p) (s : KeyState) :
    Ahead (log ++ [.arrive ev]) ⟨s, p.queue ++ [ev]⟩ := by
  obtain ⟨past, future, harr, hlen, hthin⟩ := h
  refine ⟨past, future ++ [ev], ?_, ?_, hthin.push ev⟩
  · rw [arrivals_append, harr, List.append_assoc]
    rfl
  · rw [performed_append, hlen]
    show _ = (performed log ++ []).length
    rw [List.append_nil]

theorem Ahead.idle (h : Ahead log p) (hacted : performed l = []) (harrived : arrivals l = [])
    (hqueue : p'.queue = p.queue) : Ahead (log ++ l) p' := by
  obtain ⟨past, future, harr, hlen, hthin⟩ := h
  rw [← hqueue] at hthin
  refine ⟨past, future, ?_, ?_, hthin⟩
  · rw [arrivals_append, harrived, List.append_nil, harr]
  · rw [performed_append, hacted, List.append_nil, hlen]

/-- The oldest event is resolved. -/
theorem Ahead.pop (h : Ahead log p) (hqueue : p.queue = ev :: rest)
    (hacted : (performed l).map Prod.fst = presses [ev]) (harrived : arrivals l = [])
    (hrest : p'.queue = rest) : Ahead (log ++ l) p' := by
  obtain ⟨past, future, harr, hlen, hthin⟩ := h.head hqueue
  refine ⟨past ++ [ev], future, ?_, ?_, ?_⟩
  · rw [arrivals_append, harrived, List.append_nil, harr, List.append_assoc]
    rfl
  · have hone := congrArg List.length hacted
    rw [List.length_map] at hone
    rw [presses_append, List.length_append, performed_append, List.length_append, hlen, hone]
  · rw [hrest]
    exact hthin.mono fun l x hx =>
      ⟨hx.1, fun hrel e he => hx.2 hrel e (List.mem_append_right _ he)⟩

/-- The newest event is taken early. -/
theorem Ahead.early (h : Ahead log p) (hqueue : p.queue = p'.queue ++ [ev])
    (hvalue : ev.value = 0)
    (hpress : ∀ k, keyEdge k ev = some false → true ∉ keyEdges k p.queue)
    {k : KeyCode} (hk : ev.code = codeOf k) (hacted : performed l = [])
    (harrived : arrivals l = []) : Ahead (log ++ l) p' := by
  obtain ⟨past, future, harr, hlen, hthin⟩ := h
  refine ⟨past, future, ?_, ?_, ?_⟩
  · rw [arrivals_append, harrived, List.append_nil, harr]
  · rw [performed_append, hacted, List.append_nil, hlen]
  · rw [hqueue] at hthin
    refine hthin.drop_last fun f₁ f₂ hsplit =>
      ⟨isPress_of_value_zero hvalue, fun hrel e he hp => ?_⟩
    -- a press in front of it would still be in the queue
    have hmem : e ∈ p.queue := by
      have he' : e ∈ future := by
        rw [hsplit]
        exact List.mem_append_left _ (by simpa using he)
      rw [hqueue]
      refine (hthin.mem_or_dropped (fun _ _ hx => hx.1) e he').resolve_right fun hno => ?_
      rw [hp] at hno
      exact absurd hno (by simp)
    intro hcode
    refine hpress k (by rw [keyEdge_release hrel, if_pos hk]) ?_
    refine List.mem_filterMap.mpr ⟨e, hmem, ?_⟩
    rw [keyEdge_press hp, if_pos (by rw [hcode, hk])]

/-- The first release of the oldest event's key in the queue is the first one to arrive. -/
theorem Ahead.nextRelease (h : Ahead log p) (hqueue : p.queue = Q :: rest)
    (hpress : Q.isPress = true) {l₁ l₂ : List InputEvent} (hsplit : rest = l₁ ++ R :: l₂)
    (hR : R.isRelease = true ∧ R.code = Q.code)
    (hfirst : ∀ e ∈ l₁, e.isRelease = true → e.code ≠ Q.code) :
    NextRelease (arrivals log) (performed log).length Q R := by
  obtain ⟨past, future, harr, hlen, hthin⟩ := h.head hqueue
  rw [hsplit] at hthin
  obtain ⟨f₁, f₂, rfl, hf₁⟩ := hthin.split
  refine ⟨past, f₁, f₂, harr, hlen, hpress, hR.1, hR.2, fun e he hrel => ?_⟩
  rcases hf₁.mem_or_drop e he with hmem | ⟨l, hdrop⟩
  · exact hfirst e hmem hrel
  · exact (hdrop.2 hrel Q (by simp) hpress).symm

end Ahead

/-! ### The invariant -/

/-- Key `k` is a dual key in the keymap. -/
def DualIn (keymap : KeyAction) (k : KeyCode) : Prop :=
  ∃ tap hold dual, keyActionGet keymap k = .ok (.ktDual tap hold dual)

/-- What is known when `last_tap_code` is the code of key `k`: the tap is remembered, and unless
    the root keymap was returned to since, the key is still a dual key; or the latest press of
    the key was that of a key which is not a dual key in the root keymap, and the keymap is the
    root keymap again when the key is up. -/
inductive Known (log : List Effect) (s : KeyState) (k : KeyCode) : Prop
  | tapped {T : Timeval} (h : Remembered log (codeOf k) T)
      (hmap : s.currentKeymap = s.rootKeymap ∨ DualIn s.currentKeymap k)
  | stale (h : ¬ DualIn s.rootKeymap k)
      (hmap : s.currentKeymap = s.rootKeymap ∨
        keyDown k log = true ∧ s.releaseMap k = resetKeymap)

/-- What `last_tap_code` and `last_tap_time` stand for. -/
structure Memory (log : List Effect) (s : KeyState) : Prop where
  undecideds : Undecideds log
  remembered : ∀ c T, Remembered log c T → s.lastTap = ⟨(c.toNat : Int), T⟩
  known : ∀ k, codeOf k ≠ 0 → s.lastTap.code = ((codeOf k).toNat : Int) → Known log s k

section Memory

variable {log l : List Effect} {s s' : KeyState} {Q : InputEvent} {k j : KeyCode}
  {ka : KeyAction} {now : Timeval} {dual : DualConfig} {rest : List InputEvent} {w : Waveform}
  {t' : LastTap}

theorem maybeInvalidateLastTap_code {t : LastTap} {code : UInt16}
    (h : (maybeInvalidateLastTap t code).code = ((codeOf k).toNat : Int)) :
    code = codeOf k ∧ maybeInvalidateLastTap t code = t := by
  unfold maybeInvalidateLastTap at h ⊢
  split at h
  · have hneg : (-1 : Int) = ((codeOf k).toNat : Int) := h
    omega
  · rename_i heq
    rw [if_neg heq]
    refine ⟨UInt16.toNat_inj.mp ?_, rfl⟩
    rw [not_not, h] at heq
    exact_mod_cast heq

theorem maybeInvalidateLastTap_eq {T : Timeval} {code : UInt16} :
    maybeInvalidateLastTap ⟨(code.toNat : Int), T⟩ code = ⟨(code.toNat : Int), T⟩ :=
  if_neg (not_not.mpr rfl)

theorem undecideds_idle (h : Undecideds log) (hl : Unchecked l) (hacted : performed l = []) :
    Undecideds (log ++ l) := by
  intro before X d n w hX
  rw [performed_append, hacted, List.append_nil] at hX
  exact h before X d n w ((checkedAt_unchecked hl).mp hX)

/-- After a press was acted on, the next one has not been checked. -/
theorem undecideds_acted (hl : Unchecked l) (hacted : (performed l).length = 1) :
    Undecideds (log ++ l) := by
  intro before X d n w hX
  rw [performed_append, List.length_append, hacted] at hX
  exact absurd ((checkedAt_unchecked hl).mp hX).le (by omega)

theorem undecideds_decided {t : LastTap} (hl : Unchecked l) (hacted : (performed l).length = 1) :
    Undecideds (log ++ .checked Q dual now t w :: l) := by
  have happ : log ++ .checked Q dual now t w :: l = (log ++ [.checked Q dual now t w]) ++ l := by
    rw [List.append_assoc, List.singleton_append]
  rw [happ]
  exact undecideds_acted hl hacted

/-- At first nothing is remembered, and `last_tap_code` is 0, which is no key's code here. -/
theorem memory_init (root : KeyAction) : Memory [] (KeyState.init root) := by
  refine ⟨?_, ?_, fun k hk hcode => ?_⟩
  · rintro before X d n w ⟨t, after, hsplit, _⟩
    simp at hsplit
  · rintro c T ⟨i, P, R, hi, _⟩
    exact absurd hi (by simp [performed])
  · have hzero : (0 : Int) = ((codeOf k).toNat : Int) := hcode
    refine absurd (UInt16.toNat_inj.mp ?_) hk
    exact_mod_cast hzero.symm

/-- **Idle steps.** Effects that neither check nor act on a press keep what is known, if the
    keymap only ever changes to the root keymap and a key that held a layer resets it. -/
theorem Memory.idle (h : Memory log s)
    (hlen : (performed log).length ≤ (presses (arrivals log)).length) (hl : Unchecked l)
    (hacted : performed l = []) (htap : s'.lastTap = s.lastTap)
    (hroot : s'.rootKeymap = s.rootKeymap)
    (hcur : s'.currentKeymap = s.currentKeymap ∨ s'.currentKeymap = s.rootKeymap)
    (hlayer : ∀ k, keyDown k log = true → s.releaseMap k = resetKeymap →
      s'.currentKeymap = s.rootKeymap ∨
        keyDown k (log ++ l) = true ∧ s'.releaseMap k = resetKeymap) :
    Memory (log ++ l) s' := by
  refine ⟨undecideds_idle h.undecideds hl hacted, fun c T hrem => ?_, fun k hk hcode => ?_⟩
  · rw [htap]
    exact h.remembered c T ((remembered_idle hl hacted hlen).mp hrem)
  · rw [htap] at hcode
    cases h.known k hk hcode with
    -- a tap is remembered until a press is acted on
    | tapped hrem hmap =>
      refine .tapped ((remembered_idle hl hacted hlen).mpr hrem) ?_
      rw [hroot]
      rcases hcur with hsame | hreset
      · rw [hsame]
        exact hmap
      · exact .inl hreset
    -- in a layer the key may be another one
    | stale hdual hmap =>
      refine .stale (by rw [hroot]; exact hdual) ?_
      rw [hroot]
      rcases hmap with hmap | ⟨hdown, hreset⟩
      · rcases hcur with hsame | hreset
        · exact .inl (hsame.trans hmap)
        · exact .inl hreset
      · exact hlayer k hdown hreset

/-- `check_waveform` answers by the clock alone or by the scan. -/
theorem checkWaveform_cases {t : LastTap} (hmode : dual.mode ≠ .timeoutOnly)
    (h : checkWaveform t now Q dual rest = (w, t')) :
    (TimedOut dual now Q ∧ t'.code = -1 ∧
        (w = .tap ∧ DoubleTap dual t Q ∨ w = .hold ∧ ¬ DoubleTap dual t Q)) ∨
      (¬ TimedOut dual now Q ∧ Scanned Q t rest w t') := by
  by_cases hlate : TimedOut dual now Q
  · obtain ⟨hdouble, hsingle⟩ := checkWaveform_timedOut hlate t rest
    refine .inl ⟨hlate, ?_⟩
    by_cases hd : DoubleTap dual t Q
    · cases (hdouble hd).symm.trans h
      exact ⟨rfl, .inl ⟨rfl, hd⟩⟩
    · cases (hsingle hd).symm.trans h
      exact ⟨rfl, .inr ⟨rfl, hd⟩⟩
  · rw [checkWaveform_of_not_timedOut hmode (not_lt.mp hlate)] at h
    exact .inr ⟨hlate, scanWaveform_scanned h⟩

/-- **Waiting.** A check that decides nothing keeps what is known. -/
theorem Memory.waiting (h : Memory log s) {t : LastTap} (hyoung : ¬ TimedOut dual now Q)
    (hscan : Scanned Q (maybeInvalidateLastTap s.lastTap Q.code) rest .noneYet t')
    (hbehind : (presses (arrivals log)).drop ((performed log).length + 1) = presses rest)
    (hother : ∀ e ∈ rest, e.isPress = true → asKey e.code ≠ none ∧ e.code ≠ Q.code)
    (htap : s'.lastTap = t') (hroot : s'.rootKeymap = s.rootKeymap)
    (hcur : s'.currentKeymap = s.currentKeymap) (hrel : s'.releaseMap = s.releaseMap) :
    Memory (log ++ [.checked Q dual now t .noneYet]) s' := by
  have hnil : Unchecked [] := fun _ _ _ _ _ hmem => absurd hmem (by simp)
  have hsame : performed (log ++ [.checked Q dual now t .noneYet]) = performed log := by
    rw [performed_append]
    exact List.append_nil _
  have hdown : ∀ k, keyDown k (log ++ [.checked Q dual now t .noneYet]) = keyDown k log :=
    fun k => keyDown_append k log _
  refine ⟨fun before X d n w hX => ?_, fun c T hrem => ?_, fun k hk hcode => ?_⟩
  · rw [hsame] at hX
    rcases (checkedAt_checked hnil).mp hX with hX | ⟨_, rfl, rfl, rfl, rfl, _⟩
    · exact h.undecideds before X d n w hX
    · exact ⟨rfl, hyoung⟩
  · obtain ⟨hrem, rfl, hnone⟩ := (remembered_waiting hnil rfl rfl).mp hrem
    rw [hbehind] at hnone
    have hlast := h.remembered _ T hrem
    rw [hlast, maybeInvalidateLastTap_eq] at hscan
    rw [htap]
    cases hscan with
    | quiet _ => rfl
    | disturbed hpress _ =>
      -- the press of another key would have been seen
      obtain ⟨e, he, hp, _⟩ := hpress
      exact absurd (hnone e (List.mem_filter.mpr ⟨he, hp⟩)) (hother e he hp).2
  · rw [htap] at hcode
    cases hscan with
    | disturbed _ hforgot =>
      rw [hforgot] at hcode
      omega
    | quiet hquiet =>
      obtain ⟨hQ, hkept⟩ := maybeInvalidateLastTap_code hcode
      rw [hkept] at hcode
      have hnone : presses rest = [] := by
        refine List.filter_eq_nil_iff.mpr fun e he hp => ?_
        exact (hother e he hp).1 (hquiet e he hp)
      cases h.known k hk hcode with
      | tapped hrem hmap =>
        refine .tapped ((remembered_waiting hnil rfl rfl).mpr ⟨hrem, hQ, ?_⟩) ?_
        · rw [hbehind, hnone]
          simp
        · rw [hcur, hroot]
          exact hmap
      | stale hdual hmap =>
        refine .stale (by rw [hroot]; exact hdual) ?_
        rw [hcur, hroot, hdown, hrel]
        exact hmap

/-- **Plain press.** The press of a key that is no dual key keeps what is known. -/
theorem Memory.plain (h : Memory log s) (hQ : Q.code = codeOf j) (hup : keyDown j log = false)
    (hget : keyActionGet s.currentKeymap j = .ok ka) (hdual : ka.isDual = false)
    (hacted : Acted { s with lastTap := maybeInvalidateLastTap s.lastTap Q.code } Q j ka s' l) :
    Memory (log ++ l) s' := by
  have hl : Unchecked l := hacted.not_checked
  have hone : (performed l).length = 1 := by
    rw [hacted.performed]
    rfl
  have htap : s'.lastTap = maybeInvalidateLastTap s.lastTap Q.code := by
    cases hacted <;> rfl
  have hroot : s'.rootKeymap = s.rootKeymap := by
    cases hacted <;> rfl
  have hplain : ¬ DualIn s.currentKeymap j := by
    rintro ⟨tap, hold, dual, hget'⟩
    cases hget.symm.trans hget'
    exact absurd hdual (by simp [KeyAction.isDual])
  refine ⟨undecideds_acted hl hone, fun c T hrem => ?_, fun k hk hcode => ?_⟩
  · exact absurd hrem (not_remembered_plain hl hone h.undecideds)
  · rw [htap] at hcode
    obtain ⟨hk', hkept⟩ := maybeInvalidateLastTap_code hcode
    obtain rfl := codeOf_injective (hQ.symm.trans hk')
    rw [hkept] at hcode
    -- the key was looked up in the root keymap
    have hcur : s.currentKeymap = s.rootKeymap := by
      cases h.known j hk hcode with
      | tapped _ hmap => exact hmap.resolve_right hplain
      | stale _ hmap =>
        refine hmap.resolve_right fun hdown => ?_
        rw [hup] at hdown
        exact absurd hdown.1 (by simp)
    refine .stale ?_ ?_
    · rw [hroot, ← hcur]
      exact hplain
    · rw [hroot, keyDown_append, hacted.foldl_downStep, if_pos hQ]
      cases hacted with
      | simple c => exact .inl hcur
      | chain ch => exact .inl hcur
      | layer map => exact .inr ⟨rfl, Function.update_self ..⟩

/-- **Decision.** The press of a dual key that is decided keeps what is known. -/
theorem Memory.decided (h : Memory log s) {t : LastTap} (hmode : dual.mode ≠ .timeoutOnly)
    (hQ : Q.code = codeOf j) (hdualin : DualIn s.currentKeymap j)
    (hcheck : checkWaveform (maybeInvalidateLastTap s.lastTap Q.code) now Q dual rest = (w, t'))
    (hw : w ≠ .noneYet) (hnext : (presses (arrivals log))[(performed log).length]? = some Q)
    (hrelease : ∀ l₁ l₂ R, rest = l₁ ++ R :: l₂ → R.isRelease = true ∧ R.code = Q.code →
      (∀ e ∈ l₁, e.isRelease = true → e.code ≠ Q.code) →
      NextRelease (arrivals log) (performed log).length Q R)
    (hka : w = .tap → ka.isMap = false)
    (hacted : Acted { s with lastTap := t' } Q j ka s' l) :
    Memory (log ++ .checked Q dual now t w :: l) s' := by
  have hl : Unchecked l := hacted.not_checked
  have hone : (performed l).length = 1 := by
    rw [hacted.performed]
    rfl
  have htap : s'.lastTap = t' := by
    cases hacted <;> rfl
  have hroot : s'.rootKeymap = s.rootKeymap := by
    cases hacted <;> rfl
  have hiff : ∀ c T, Remembered (log ++ .checked Q dual now t w :: l) c T ↔ _ :=
    fun c T => remembered_decided hl hone hacted.arrivals h.undecideds hnext
  -- only a tap that the scan decides leaves a last tap
  rcases checkWaveform_cases hmode hcheck with ⟨hlate, hforgot, _⟩ | ⟨hyoung, hscan⟩
  · refine ⟨undecideds_decided hl hone, fun c T hrem => ?_, fun k hk hcode => ?_⟩
    · exact absurd hlate ((hiff c T).mp hrem).2.1
    · rw [htap, hforgot] at hcode
      omega
  cases hscan with
  | hold hforgot =>
    refine ⟨undecideds_decided hl hone, fun c T hrem => ?_, fun k hk hcode => ?_⟩
    · exact absurd ((hiff c T).mp hrem).1 (by simp)
    · rw [htap, hforgot] at hcode
      omega
  | quiet _ => exact absurd rfl hw
  | disturbed _ _ => exact absurd rfl hw
  | tap l₁ l₂ R hsplit hR hfirst =>
    have hnat := hrelease l₁ l₂ R hsplit hR hfirst
    refine ⟨undecideds_decided hl hone, fun c T hrem => ?_, fun k hk hcode => ?_⟩
    · obtain ⟨_, _, rfl, R', hR', rfl⟩ := (hiff c T).mp hrem
      obtain rfl := hnat.unique hR'
      rw [htap, trackLastTap, hR.2]
    · have hk' : Q.code = codeOf k := by
        rw [htap, trackLastTap, hR.2] at hcode
        have hcast : (Q.code.toNat : Int) = ((codeOf k).toNat : Int) := hcode
        exact UInt16.toNat_inj.mp (by exact_mod_cast hcast)
      obtain rfl := codeOf_injective (hQ.symm.trans hk')
      refine .tapped ((hiff _ R.time).mpr ⟨rfl, hyoung, hQ, R, hnat, rfl⟩) ?_
      have hcur : s'.currentKeymap = s.currentKeymap := by
        cases hacted with
        | simple c => rfl
        | chain ch => rfl
        | layer map => exact absurd (hka rfl) (by simp [KeyAction.isMap])
      rw [hcur]
      exact .inr hdualin

/-- The invariant speaks about the last tap, the keymaps and `release_map` only. -/
theorem Memory.of_eq (h : Memory log s) (htap : s'.lastTap = s.lastTap)
    (hroot : s'.rootKeymap = s.rootKeymap) (hcur : s'.currentKeymap = s.currentKeymap)
    (hrel : s'.releaseMap = s.releaseMap) : Memory log s' := by
  refine ⟨h.undecideds, fun c T hrem => ?_, fun k hk hcode => ?_⟩
  · rw [htap]
    exact h.remembered c T hrem
  · rw [htap] at hcode
    cases h.known k hk hcode with
    | tapped hrem hmap => exact .tapped hrem (by rw [hcur, hroot]; exact hmap)
    | stale hdual hmap =>
      exact .stale (by rw [hroot]; exact hdual) (by rw [hcur, hroot, hrel]; exact hmap)

/-- A release that is handled, or any other event that is no press, keeps what is known. -/
theorem Handled.memory {ev : InputEvent} (hh : Handled s now ev rest true s' l)
    (hpress : ev.isPress = false) (h : Memory log s)
    (hlen : (Sdiol.performed log).length ≤ (presses (Sdiol.arrivals log)).length) :
    Memory (log ++ l) s' := by
  have hsame : ∀ {l : List Effect} (k : KeyCode), l.foldl (downStep k) (keyDown k log)
      = keyDown k log → keyDown k log = true → keyDown k (log ++ l) = true := by
    intro l k hl hdown
    rw [keyDown_append, hl, hdown]
  -- the release of a key that holds no layer leaves the keys that hold one
  have hother : ∀ {j k : KeyCode} {code : UInt16} (evs : List InputEvent), ev.code = codeOf k →
      s.releaseMap k ≠ resetKeymap → keyDown j log = true → s.releaseMap j = resetKeymap →
      keyDown j (log ++ .released ev code false :: evs.map Effect.send) = true ∧
        Function.update s.releaseMap k 0 j = resetKeymap := by
    intro j k code evs hcode hmap hdown hreset
    have hjk : j ≠ k := by
      rintro rfl
      exact hmap hreset
    refine ⟨?_, by rw [Function.update_of_ne hjk]; exact hreset⟩
    rw [keyDown_append, List.foldl_cons, foldl_downStep_sends, hdown]
    refine if_neg fun hj => hjk ?_
    exact codeOf_injective (hj.1.symm.trans hcode)
  cases hh with
  | ignored _ =>
    exact h.idle hlen (by simp [Unchecked]) rfl rfl rfl (.inl rfl)
      fun k hdown hreset => .inr ⟨hsame k rfl hdown, hreset⟩
  | passed _ =>
    exact h.idle hlen (by simp [Unchecked]) rfl rfl rfl (.inl rfl)
      fun k hdown hreset => .inr ⟨hsame k rfl hdown, hreset⟩
  | repeated _ _ _ _ _ =>
    exact h.idle hlen (by simp [Unchecked]) rfl rfl rfl (.inl rfl)
      fun k hdown hreset => .inr ⟨hsame k rfl hdown, hreset⟩
  | releasedLayer k _ _ _ =>
    exact h.idle hlen (by simp [Unchecked]) rfl rfl rfl (.inr rfl) fun k _ _ => .inl rfl
  | releasedNothing k _ hcode hmap =>
    have hne : s.releaseMap k ≠ resetKeymap := by
      rw [hmap]
      decide
    exact h.idle hlen (by simp [Unchecked]) rfl rfl rfl (.inl rfl)
      fun j hdown hreset => .inr (hother [] hcode hne hdown hreset)
  | releasedCode k _ hcode hmap _ =>
    exact h.idle hlen (by simp [Unchecked]) rfl rfl rfl (.inl rfl)
      fun j hdown hreset => .inr (hother [_] hcode hmap hdown hreset)
  | pressed hp _ _ _ =>
    rw [hpress] at hp
    exact absurd hp (by simp)

/-- An event that is taken early keeps what is known. -/
theorem earlyRelease_memory {ev : InputEvent} (hearly : earlyRelease s ev = some (s', l))
    (h : Memory log s) (hlen : (performed log).length ≤ (presses (arrivals log)).length) :
    Memory (log ++ l) s' := by
  obtain ⟨k, hcode, _, ⟨_, rfl, rfl⟩ | ⟨hmap, _, rfl, rfl⟩⟩ := earlyRelease_eq_some hearly
  · exact h.idle hlen (by simp [Unchecked]) rfl rfl rfl (.inr rfl) fun k _ _ => .inl rfl
  · refine h.idle hlen (by simp [Unchecked]) rfl rfl rfl (.inl rfl)
      fun j hdown hreset => .inr ⟨?_, hreset⟩
    have hjk : j ≠ k := by
      rintro rfl
      exact hmap hreset
    rw [keyDown_append, List.foldl_cons, List.foldl_cons, List.foldl_cons, List.foldl_nil]
    show (if ev.code = codeOf j ∧ ev.isRelease = true then false else keyDown j log) = true
    rw [if_neg fun hj => hjk (codeOf_injective (hj.1.symm.trans hcode))]
    exact hdown

/-- **The rule.** In a state that stands for its history, the press in hand follows a natural
    tap exactly if `check_waveform` finds a double tap. -/
theorem Memory.followsTap_iff {root : KeyAction} (h : Memory log s)
    (hdecides : Along (Decides root) log)
    (hnext : (presses (arrivals log))[(performed log).length]? = some Q) (hQ : Q.code = codeOf k)
    (hk : codeOf k ≠ 0) (hdualin : DualIn s.currentKeymap k) (hup : keyDown k log = false) :
    FollowsTap log Q dual ↔ DoubleTap dual s.lastTap Q := by
  constructor
  · rintro ⟨hms, i, P, R, hi, hP, hc, hnat, htime, hnot⟩
    have hrem : Remembered log Q.code R.time := by
      refine ⟨i, P, R, hi, hP, hc, hnat, rfl, fun before X d n w hX => ?_⟩
      -- every check of this press was about `Q`
      have hXQ : X = Q := by
        obtain ⟨later, hlater⟩ := hX.arrivals_prefix
        obtain ⟨t, after, hsplit, hlen⟩ := id hX
        obtain ⟨hget, _⟩ := hdecides before _ after hsplit X d n t w rfl
        obtain ⟨hlt, _⟩ := List.getElem?_eq_some_iff.mp hget
        rw [hlater, presses_append, hi, ← hlen, List.getElem?_append_left hlt, hget] at hnext
        exact Option.some.inj hnext
      refine ⟨by rw [hXQ], fun e he => ?_⟩
      by_contra hne
      exact hnot ⟨before, X, d, n, w, hX, (h.undecideds before X d n w (hi ▸ hX)).2, e, he, hne⟩
    rw [h.remembered _ _ hrem]
    exact ⟨by omega, rfl, htime⟩
  · rintro ⟨hms, hcode, htime⟩
    rw [hQ] at hcode
    cases h.known k hk hcode with
    | tapped hrem _ =>
      have hlast := h.remembered _ _ hrem
      obtain ⟨i, P, R, hi, hP, hc, hnat, rfl, hchecks⟩ := hrem
      rw [hlast] at htime
      refine ⟨by omega, i, P, R, hi, hP, hc.trans hQ.symm, hnat, htime, ?_⟩
      rintro ⟨before, X, d, n, w, hX, _, e, he, hne⟩
      exact hne ((hchecks before X d n w hX).2 e he)
    | stale hdual hmap =>
      -- the key is up, so that the keymap is the root keymap
      rcases hmap with hmap | ⟨hdown, _⟩
      · rw [hmap] at hdualin
        exact absurd hdualin hdual
      · rw [hup] at hdown
        exact absurd hdown (by simp)

end Memory

/-! ### Runs -/

/-- A press with a code that is not 0, or another event. -/
def NonzeroPress (ev : InputEvent) : Prop := ev.isPress = true → ev.code ≠ 0

instance : DecidablePred NonzeroPress := fun ev =>
  inferInstanceAs (Decidable (ev.isPress = true → ev.code ≠ 0))

/-- A press that is checked when it is more than `hold_ms` old is a tap if it follows a natural
    tap, and a hold otherwise. -/
def DecidedByHistory (before : List Effect) (x : Effect) (_after : List Effect) : Prop :=
  ∀ Q dual now t w, x = .checked Q dual now t w → TimedOut dual now Q →
    w = .tap ∧ FollowsTap before Q dual ∨ w = .hold ∧ ¬ FollowsTap before Q dual

/-- What is known of one grab. -/
structure TapMemory (root : KeyAction) (log : List Effect) (p : PlainResolver) : Prop where
  timed : Timed root log p
  alternating : Alternating RolloverMode log p
  ahead : Ahead log p
  nonzero : ∀ ev ∈ p.queue, NonzeroPress ev
  memory : Memory log p.toKeyState
  history : Along DecidedByHistory log

section Runs

variable {root : KeyAction} {log l : List Effect} {p p' : PlainResolver} {now : Timeval}
  {ev : InputEvent} {rest : List InputEvent} {k : KeyCode}

theorem along_decidedByHistory_unchecked (before : List Effect → List Effect)
    (hl : Unchecked l) : Along (fun l₁ => DecidedByHistory (before l₁)) l := by
  refine Steps.along_of_forall fun x hmem l₁ l₂ Q dual now t w hx => ?_
  rw [hx] at hmem
  exact absurd hmem (hl Q dual now t w)

theorem decidedByHistory_mono (l₁ : List Effect) (x : Effect) (l₂ l : List Effect)
    (h : DecidedByHistory l₁ x l₂) : DecidedByHistory l₁ x (l₂ ++ l) := h

theorem TapMemory.length_le (h : TapMemory root log p) :
    (performed log).length ≤ (presses (arrivals log)).length := by
  have horder : (performed log).map Prod.fst ++ presses p.queue = presses (arrivals log) :=
    h.timed.inOrder
  rw [← horder, List.length_append, List.length_map]
  exact Nat.le_add_right _ _

/-- The resolver has the key of the oldest event up, if that is a press. -/
theorem TapMemory.up (h : TapMemory root log p) (hqueue : p.queue = ev :: rest)
    (hpress : ev.isPress = true) (hcode : ev.code = codeOf k) : keyDown k log = false := by
  have hk := h.alternating.keys k
  unfold KeyAlternates at hk
  rw [hqueue, keyEdges_cons, keyEdge_press hpress, if_pos hcode] at hk
  have hne := (settle_cons.mp hk).1
  cases hdown : keyDown k log with
  | false => rfl
  | true => exact absurd hdown.symm hne

/-- Behind an undecided press only other keys are pressed. -/
theorem TapMemory.other (h : TapMemory root log p) (hqueue : p.queue = ev :: rest)
    (hpress : ev.isPress = true) (hcode : ev.code = codeOf k)
    (hnone : ∀ e ∈ rest, e.isRelease = true → e.code ≠ codeOf k) :
    ∀ e ∈ rest, e.isPress = true → asKey e.code ≠ none ∧ e.code ≠ ev.code := by
  intro e he hp
  have hin : CodeInRange e := h.timed.inRange e (by rw [hqueue]; exact List.mem_cons_of_mem ev he)
  obtain ⟨j, hj⟩ := exists_codeOf (hin (InputEvent.isPress_iff.mp hp).1)
  refine ⟨by rw [hj, asKey_codeOf]; simp, fun hsame => ?_⟩
  have hk := h.alternating.keys k
  unfold KeyAlternates at hk
  rw [hqueue, keyEdges_cons, keyEdge_press hpress, if_pos hcode] at hk
  have halone := settle_press_alone hk fun hmem => ?_
  · have hedge : keyEdge k e = some true := by
      rw [keyEdge_press hp, if_pos (hsame.trans hcode)]
    have hin : true ∈ keyEdges k rest := List.mem_filterMap.mpr ⟨e, he, hedge⟩
    rw [show keyEdges k rest = [] from halone] at hin
    exact absurd hin (by simp)
  · obtain ⟨R, hR, hedge⟩ := List.mem_filterMap.mp hmem
    obtain ⟨hcodeR, hrelR⟩ := keyEdge_eq_some_false hedge
    exact hnone R hR hrelR hcodeR

/-- **Head.** Resolving the oldest event keeps what the last tap stands for, and decides by
    the history. -/
theorem TapMemory.resolved (h : TapMemory root log p) (hqueue : p.queue = ev :: rest)
    {s s' : KeyState} (htap : s.lastTap = p.lastTap) (hroot : s.rootKeymap = p.rootKeymap)
    (hcur : s.currentKeymap = p.currentKeymap) (hrel : s.releaseMap = p.releaseMap)
    (hh : Handled s now ev rest true s' l) :
    Memory (log ++ l) s' ∧ Along (fun l₁ => DecidedByHistory (log ++ l₁)) l := by
  have hmem : Memory log s := h.memory.of_eq htap hroot hcur hrel
  have hready : Ready RolloverMode s := h.alternating.ready.of_eq hroot hcur hrel
  by_cases hpress : ev.isPress = true
  swap
  · -- no press
    have hpress := Bool.not_eq_true _ ▸ hpress
    refine ⟨hh.memory hpress hmem h.length_le, along_decidedByHistory_unchecked _ ?_⟩
    cases hh with
    | pressed hp _ _ _ =>
      rw [hpress] at hp
      exact absurd hp (by simp)
    | _ => simp [Unchecked]
  have hin : CodeInRange ev := h.timed.inRange ev (hqueue ▸ List.mem_cons_self)
  obtain ⟨j, ka, pre, l, t, hcode, hchosen, hacted, rfl⟩ := hh.of_press hin hpress
  have hup := h.up hqueue hpress hcode
  have hnext := h.timed.inOrder.next hqueue hpress
  have hk : codeOf j ≠ 0 := hcode ▸ h.nonzero ev (hqueue ▸ List.mem_cons_self) hpress
  -- a check that decides, followed by what comes of it
  have hdecided : ∀ {tap hold : KeyAction} {dual : DualConfig} {w : Waveform},
      keyActionGet s.currentKeymap j = .ok (.ktDual tap hold dual) →
      checkWaveform (maybeInvalidateLastTap s.lastTap ev.code) now ev dual rest = (w, t) →
      w ≠ .noneYet → (w = .tap → ka.isMap = false) →
      Memory (log ++ .checked ev dual now (maybeInvalidateLastTap s.lastTap ev.code) w :: l) s' ∧
        Along (fun l₁ => DecidedByHistory (log ++ l₁))
          (.checked ev dual now (maybeInvalidateLastTap s.lastTap ev.code) w :: l) := by
    intro tap hold dual w hget hcheck hw hka
    have hmode : dual.mode ≠ .timeoutOnly := (hready.lookup_usable hget).2.1
    have hdualin : DualIn s.currentKeymap j := ⟨tap, hold, dual, hget⟩
    refine ⟨hmem.decided hmode hcode hdualin hcheck hw hnext ?_ hka hacted,
      along_cons.mpr ⟨?_, along_decidedByHistory_unchecked _ hacted.not_checked⟩⟩
    · exact fun l₁ l₂ R hsplit hR hfirst => h.ahead.nextRelease hqueue hpress hsplit hR hfirst
    · intro Q d n t' w' hx hlate
      cases hx
      rw [List.append_nil, hmem.followsTap_iff h.timed.decides hnext hcode hk hdualin hup,
        ← doubleTap_maybeInvalidate]
      rcases checkWaveform_cases hmode hcheck with ⟨_, _, hcase⟩ | ⟨hyoung, _⟩
      · exact hcase
      · exact absurd hlate hyoung
  cases hchosen with
  | plain hget hdual =>
    refine ⟨hmem.plain hcode hup hget hdual hacted, ?_⟩
    exact along_decidedByHistory_unchecked _ hacted.not_checked
  | tap hget hcheck =>
    exact hdecided hget hcheck (by simp) fun _ => (hready.lookup_usable hget).1.1.2.1
  | hold hget hcheck =>
    exact hdecided hget hcheck (by simp) fun h => absurd h (by simp)

/-- **Waiting.** A check that decides nothing is one that is made in time. -/
theorem TapMemory.waited (h : TapMemory root log p) (hqueue : p.queue = ev :: rest)
    {s s' : KeyState} (htap : s.lastTap = p.lastTap) (hroot : s.rootKeymap = p.rootKeymap)
    (hcur : s.currentKeymap = p.currentKeymap) (hrel : s.releaseMap = p.releaseMap)
    (hh : Handled s now ev rest false s' l) :
    Memory (log ++ l) s' ∧ Along (fun l₁ => DecidedByHistory (log ++ l₁)) l := by
  have hmem : Memory log s := h.memory.of_eq htap hroot hcur hrel
  have hready : Ready RolloverMode s := h.alternating.ready.of_eq hroot hcur hrel
  cases hh with
  | @waiting k _ _ _ _ hpress hcode hget hcheck =>
    have hmode := (hready.lookup_usable hget).2.1
    rcases checkWaveform_cases hmode hcheck with ⟨_, _, ⟨hw, _⟩ | ⟨hw, _⟩⟩ | ⟨hyoung, hscan⟩
    · exact absurd hw (by simp)
    · exact absurd hw (by simp)
    -- a release of the key behind the press would have decided
    have hnone : ∀ e ∈ rest, e.isRelease = true → e.code ≠ codeOf k := by
      intro e he hr hc
      obtain ⟨l₁, l₂, hsplit⟩ := List.append_of_mem he
      have hne := (scanWaveform_noneYet (checkWaveform_noneYet hmode hcheck) hsplit hr hc).1
      exact hne hcode
    -- the presses behind the one that waits are those that are queued
    have hbehind : (presses (arrivals log)).drop ((performed log).length + 1) = presses rest := by
      have horder : (performed log).map Prod.fst ++ presses p.queue = presses (arrivals log) :=
        h.timed.inOrder
      have hhead : presses p.queue = ev :: presses rest := by
        rw [hqueue]
        exact List.filter_cons_of_pos hpress
      rw [← horder, hhead, ← List.length_map (f := Prod.fst), List.drop_append]
      simp
    refine ⟨hmem.waiting hyoung hscan hbehind (h.other hqueue hpress hcode hnone) rfl rfl rfl rfl,
      along_cons.mpr ⟨?_, along_nil _⟩⟩
    intro Q d n t' w' hx hlate
    cases hx
    exact absurd hlate hyoung

theorem TapMemory.drop {s : KeyState} (hp : TapMemory root log p)
    (h : resolveDedupInput p.toKeyState ev = .ok (false, s)) : TapMemory root log ⟨s, p.queue⟩ := by
  refine ⟨hp.timed.drop h, alternating_drop hp.alternating h, hp.ahead, hp.nonzero, ?_, hp.history⟩
  obtain ⟨counts, rfl⟩ := resolveDedupInput_eq h
  exact hp.memory.of_eq rfl rfl rfl rfl

theorem TapMemory.arrive {s : KeyState} (hp : TapMemory root log p) (hin : CodeInRange ev)
    (hev : NonzeroPress ev) (h : resolveDedupInput p.toKeyState ev = .ok (true, s)) :
    TapMemory root (log ++ [.arrive ev]) ⟨s, p.queue ++ [ev]⟩ := by
  have hl : Unchecked [.arrive ev] := by simp [Unchecked]
  refine ⟨hp.timed.arrive hin h, alternating_arrive hp.alternating h, hp.ahead.arrive s, ?_, ?_,
    hp.history.append decidedByHistory_mono (along_decidedByHistory_unchecked _ hl)⟩
  · intro e he
    rcases List.mem_append.mp he with he | he
    · exact hp.nonzero e he
    · rw [List.mem_singleton.mp he]
      exact hev
  · obtain ⟨counts, rfl⟩ := resolveDedupInput_eq h
    refine hp.memory.idle hp.length_le hl rfl rfl rfl (.inl rfl) fun k hdown hreset =>
      .inr ⟨?_, hreset⟩
    rw [keyDown_append, hdown]
    rfl

/-- **Step.** One call of `resolve` keeps what the last tap stands for. -/
theorem TapMemory.resolve {b : Bool} (hp : TapMemory root log p)
    (h : plainResolve earlyRelease now p = .ok (b, p', l)) : TapMemory root (log ++ l) p' := by
  have htaken := plainResolve_takenAfterPress hp.alternating.ready h
  have htimed := hp.timed.resolve h
  have halt := plainResolve_alternating hp.alternating h htaken
  have hnonzero : ∀ e ∈ p'.queue, NonzeroPress e :=
    fun e he => hp.nonzero e (mem_of_plainResolve h he)
  rcases plainResolve_cases h with ⟨_, _, rfl, rfl⟩ | ⟨ev, rest, s', hqueue, _, rfl, hh⟩ |
    ⟨ev, rest, newest, s₁, l₁, hqueue, _, hnewest, hh, ⟨_, rfl, rfl⟩ | ⟨s₂, l₂, hearly, rfl, rfl⟩⟩
  · rwa [List.append_nil]
  · -- the oldest event is resolved
    obtain ⟨hmem, hhist⟩ := hp.resolved
      (s := { p.toKeyState with useResolvableTime := false }) hqueue
      rfl rfl rfl rfl hh
    have hin : CodeInRange ev := hp.timed.inRange ev (hqueue ▸ List.mem_cons_self)
    exact ⟨htimed, halt, hp.ahead.pop hqueue (hh.performed hin) hh.arrivals rfl, hnonzero, hmem,
      hp.history.append decidedByHistory_mono hhist⟩
  · -- a check, and nothing else
    obtain ⟨hmem, hhist⟩ := hp.waited (s := { p.toKeyState with useResolvableTime := false }) hqueue
      rfl rfl rfl rfl hh
    exact ⟨htimed, halt, hp.ahead.idle hh.performed_waiting hh.arrivals rfl, hnonzero, hmem,
      hp.history.append decidedByHistory_mono hhist⟩
  · -- a check, and then the newest event is taken
    obtain ⟨hmem, hhist⟩ := hp.waited (s := { p.toKeyState with useResolvableTime := false }) hqueue
      rfl rfl rfl rfl hh
    obtain ⟨hacted, harrived⟩ := earlyRelease_performed hearly
    obtain ⟨k, hcode, hvalue, _⟩ := earlyRelease_eq_some hearly
    obtain ⟨code, evs, hl₂⟩ := earlyRelease_log hearly
    have hl : Unchecked l₂ := by
      rw [hl₂]
      simp [Unchecked]
    have hwait : Ahead (log ++ l₁) ⟨s₁, p.queue⟩ :=
      hp.ahead.idle hh.performed_waiting hh.arrivals rfl
    have hlast := queue_newest hqueue hnewest
    have hlen : (performed (log ++ l₁)).length ≤ (presses (arrivals (log ++ l₁))).length := by
      rw [performed_append, hh.performed_waiting, List.append_nil, arrivals_append, hh.arrivals,
        List.append_nil]
      exact hp.length_le
    rw [← List.append_assoc] at htimed halt ⊢
    refine ⟨htimed, halt, hwait.early hlast hvalue (fun k hedge => ?_) hcode hacted harrived,
      hnonzero, earlyRelease_memory hearly hmem hlen,
      (hp.history.append decidedByHistory_mono hhist).append decidedByHistory_mono
        (along_decidedByHistory_unchecked _ hl)⟩
    refine htaken newest code k (List.mem_append_right _ ?_) hedge
    rw [hl₂]
    exact List.mem_cons_self

/-- **Run.** -/
theorem runPlain_tapMemory {capacity : Option Nat} (hmap : root.isMap = true)
    (hroot : root.Usable RolloverMode) {inputs : List Reading}
    (hin : ∀ i ∈ inputs, CodeInRange i.ev ∧ NonzeroPress i.ev)
    (h : runPlain earlyRelease capacity root inputs = .ok (p, log)) : TapMemory root log p := by
  have htrue : root.Usable fun _ => True := ⟨hroot.1, allDuals_true root⟩
  have hinit : TapMemory root [] ⟨KeyState.init root, []⟩ := by
    refine ⟨timed_init hmap htrue, alternating_init hmap hroot, ⟨[], [], rfl, rfl, .nil _⟩, by simp,
      memory_init root, along_nil _⟩
  exact runPlain_inv (TapMemory root) (fun ev => CodeInRange ev ∧ NonzeroPress ev)
    (fun _ _ _ _ hp hd => hp.drop hd) (fun _ _ _ _ hp hev ha => hp.arrive hev.1 hev.2 ha)
    (fun _ _ _ _ _ _ hp hstep => hp.resolve hstep) hin hinit h

end Runs

/-- **Double taps.** For every keymap without `TIMEOUT_ONLY` keys and events with nonzero codes
    below `KEY_MAX`: every press that `check_waveform` is asked about is the oldest one that was
    not acted on, and what is decided is performed; and a press that is decided because it
    timed out is a tap exactly if it follows a natural tap of its key, and a hold otherwise. -/
theorem double_tap_history (km : Keymap) (hmode : km.root.NoTimeoutOnly) (inputs : List Reading)
    (hin : ∀ i ∈ inputs, CodeInRange i.ev ∧ NonzeroPress i.ev) :
    runResolver km.root inputs = .error .overflow ∨
    ∃ r log, runResolver km.root inputs = .ok (r, log) ∧ Along (Decides km.root) log ∧
      Along DecidedByHistory log := by
  have hroot : km.root.Usable RolloverMode := ⟨km.root_filled, hmode⟩
  rcases runResolver_total rfl km.root_usable_true fun i hi => (hin i hi).1 with h | ⟨r, log, h⟩
  · exact .inl h
  · have hmem := runPlain_tapMemory rfl hroot hin (runPlain_of_runResolver h)
    exact .inr ⟨r, log, h, hmem.timed.decides, hmem.history⟩

/-- Whether the press `X` was taken for a tap when it was more than `hold_ms` old. -/
def Effect.isLateTap (X : InputEvent) : Effect → Bool
  | .checked Q dual now _ .tap => decide (Q = X ∧ msecDiff now Q.time > dual.holdMs)
  | _ => false

/-- Key 45 is tapped, and 100 ms later pressed again and held: the second press is a tap, too. -/
theorem double_tap_history_held :
    ∃ r log l₁ l₂ dual now t, runResolver (shiftOn45 .tapOnRollover).root
        [keyAt 0 45 1, keyAt 50 45 0, keyAt 150 45 1, keyAt 400 45 0] = .ok (r, log) ∧
      log = l₁ ++ .checked (keyAt 150 45 1).ev dual now t .tap :: l₂ ∧
      TimedOut dual now (keyAt 150 45 1).ev ∧ FollowsTap l₁ (keyAt 150 45 1).ev dual := by
  have hrun : (runResolver (shiftOn45 .tapOnRollover).root
      [keyAt 0 45 1, keyAt 50 45 0, keyAt 150 45 1, keyAt 400 45 0]).map
      (fun x => x.2.any (Effect.isLateTap (keyAt 150 45 1).ev)) = .ok true := by
    decide +kernel
  obtain ⟨⟨r, log⟩, hok, hlate⟩ := Steps.map_eq_ok hrun
  obtain ⟨x, hmem, hx⟩ := List.any_eq_true.mp hlate
  obtain ⟨l₁, l₂, hsplit⟩ := List.append_of_mem hmem
  have hin : ∀ i ∈ [keyAt 0 45 1, keyAt 50 45 0, keyAt 150 45 1, keyAt 400 45 0],
      CodeInRange i.ev ∧ NonzeroPress i.ev := by
    decide
  rcases double_tap_history (shiftOn45 .tapOnRollover) (shiftOn45_allDuals (by decide)) _ hin
    with h | ⟨r', log', h, _, hhist⟩
  · exact absurd (h.symm.trans hok) (by simp)
  · cases h.symm.trans hok
    cases x with
    | checked Q dual now t w =>
      cases w with
      | tap =>
        obtain ⟨rfl, hold⟩ := of_decide_eq_true hx
        rcases hhist l₁ _ l₂ hsplit _ dual now t .tap rfl hold with ⟨_, hfollows⟩ | ⟨hw, _⟩
        · exact ⟨r, log, l₁, l₂, dual, now, t, h, hsplit, hold, hfollows⟩
        · exact absurd hw (by simp)
      | hold => exact absurd hx (by simp [Effect.isLateTap])
      | noneYet => exact absurd hx (by simp [Effect.isLateTap])
    | _ => exact absurd hx (by simp [Effect.isLateTap])

end Sdiol
