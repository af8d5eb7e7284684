import Sdiol.Ledger
import Sdiol.Serve

namespace Sdiol

/-!
# Every release has a press

`holders c` counts the keys that are down because their latest press was acted on as
`KT_SIMPLE c`.  As long as every release taken for a key gives back what that key holds, the
releases of `c` that were sent never outnumber its presses, and the difference is at least
`holders c` (`Covers`).

A key whose latest press ran a macro holds nothing, but `do_keypress` leaves its entry in
`release_map` as it was and the early release branch never clears an entry.  Its release then
sends whatever code is left there.  `MacroQuiet` is the condition that it does not happen;
`release_has_press` needs nothing else, and `stale_release_sent` is a run without it.
-/

open Counter (Covered covered_nil covered_cons covered_append balance tally tally_change)
open Steps (Along along_nil along_cons)

/-! ### Holders -/

/-- The action holds the output code `c` down. -/
def holdsCode (c : KeyCode) : Option KeyAction → Bool
  | some (.ktSimple d) => decide (d = c)
  | _ => false

/-- Key `k` is down and its latest press was acted on as `KT_SIMPLE c`. -/
def holds (c : KeyCode) (log : List Effect) (k : KeyCode) : Bool :=
  keyDown k log && holdsCode c (lastAction k log)

/-- The number of keys that hold `c`. -/
def holders (c : KeyCode) (log : List Effect) : Nat := tally (holds c log)

/-- Effects that move no key and act on no press change no holder. -/
theorem holders_of_eq {c : KeyCode} {log log' : List Effect}
    (hdown : ∀ k, keyDown k log' = keyDown k log)
    (hlast : ∀ k, lastAction k log' = lastAction k log) : holders c log' = holders c log := by
  unfold holders
  congr 1
  funext k
  rw [holds, holds, hdown, hlast]

/-- Effects that concern key `k` only change what `k` holds. -/
theorem holders_change {c k : KeyCode} {log log' : List Effect}
    (hdown : ∀ j, j ≠ k → keyDown j log' = keyDown j log)
    (hlast : ∀ j, j ≠ k → lastAction j log' = lastAction j log) :
    holders c log' + (holds c log k).toNat = holders c log + (holds c log' k).toNat := by
  refine tally_change fun j hj => ?_
  rw [holds, holds, hdown j hj, hlast j hj]

/-! ### The condition and the invariant -/

/-- A release taken for a key whose latest press ran a macro sends nothing: its entry in
    `release_map` is `RESET_KEYMAP`, or it is 0 and the release is the oldest event. -/
def MacroQuiet (before : List Effect) (x : Effect) (_after : List Effect) : Prop :=
  ∀ ev code early k ch, x = .released ev code early → ev.isRelease = true →
    ev.code = codeOf k → lastAction k before = some (.ktMacro ch) →
    code = resetKeymap ∨ (code = 0 ∧ early = false)

/-- A release that is sent gives back the code that its own key holds. -/
def OwnRelease (before : List Effect) (x : Effect) (_after : List Effect) : Prop :=
  ∀ ev c early k, x = .released ev (codeOf c) early → ev.isRelease = true →
    ev.code = codeOf k → (early = true ∨ c ≠ 0) →
    keyDown k before = true ∧ lastAction k before = some (.ktSimple c)

/-- The output of code `c` so far: no initial part of it releases more than it presses, and
    what remains pressed covers the keys that hold `c`. -/
def OutputCovers (c : KeyCode) (log : List Effect) : Prop :=
  Covered 0 (keyEdges c (sends log)) ∧ (holders c log : Int) ≤ balance (keyEdges c (sends log))

/-- The invariant of a run that satisfies the condition. -/
structure Covers (log : List Effect) (p : PlainResolver) : Prop where
  alternating : Alternating RolloverMode log p
  recorded : Recorded log p.toKeyState
  own : Along OwnRelease log
  output : ∀ c, OutputCovers c log

section Step

variable {log l : List Effect} {s s' : KeyState} {now : Timeval} {ev : InputEvent}
  {queued : List InputEvent} {c k : KeyCode}

/-- Output that adds nothing and holders that do not grow. -/
theorem OutputCovers.idle (h : OutputCovers c log) (hsent : keyEdges c (sends l) = [])
    (hle : holders c (log ++ l) ≤ holders c log) : OutputCovers c (log ++ l) := by
  unfold OutputCovers
  rw [sends_append, keyEdges_append, hsent, List.append_nil]
  exact ⟨h.1, le_trans (by exact_mod_cast hle) h.2⟩

/-- A release that a holder gives back. -/
theorem OutputCovers.release (h : OutputCovers c log) (hsent : keyEdges c (sends l) = [false])
    (heq : holders c (log ++ l) + 1 = holders c log) : OutputCovers c (log ++ l) := by
  obtain ⟨hcov, hle⟩ := h
  unfold OutputCovers
  rw [sends_append, keyEdges_append, hsent]
  have hpos : (holders c (log ++ l) : Int) + 1 ≤ balance (keyEdges c (sends log)) := by
    rw [← heq] at hle
    exact_mod_cast hle
  refine ⟨covered_append.mpr ⟨hcov, covered_cons.mpr ⟨by omega, covered_nil ?_⟩⟩, ?_⟩
  · simp only [Counter.balance_false, Counter.balance_nil]
    omega
  · simp only [Counter.balance_append, Counter.balance_false, Counter.balance_nil]
    omega

/-- A press by a key that becomes a holder. -/
theorem OutputCovers.press (h : OutputCovers c log) (hsent : keyEdges c (sends l) = [true])
    (heq : holders c (log ++ l) = holders c log + 1) : OutputCovers c (log ++ l) := by
  obtain ⟨hcov, hle⟩ := h
  unfold OutputCovers
  rw [sends_append, keyEdges_append, hsent, heq]
  have hnonneg : 0 ≤ balance (keyEdges c (sends log)) := by omega
  refine ⟨covered_append.mpr ⟨hcov, covered_cons.mpr ⟨by omega, covered_nil ?_⟩⟩, ?_⟩
  · simp only [Counter.balance_true, Counter.balance_nil]
    omega
  · simp only [Counter.balance_append, Counter.balance_true, Counter.balance_nil]
    push_cast
    omega

/-- A macro, which leaves the output as it found it. -/
theorem OutputCovers.balanced (h : OutputCovers c log)
    (hsent : Counter.Balanced (keyEdges c (sends l)))
    (hle : holders c (log ++ l) ≤ holders c log) : OutputCovers c (log ++ l) := by
  obtain ⟨hcov, hbal⟩ := h
  unfold OutputCovers
  rw [sends_append, keyEdges_append]
  have hnonneg : 0 ≤ balance (keyEdges c (sends log)) := by omega
  refine ⟨covered_append.mpr ⟨hcov, hsent.1.mono (by omega)⟩, ?_⟩
  rw [Counter.balance_append, hsent.2, add_zero]
  exact le_trans (by exact_mod_cast hle) hbal

/-- A press adds its key to the holders of the code it is acted on as. -/
theorem holders_press (hup : keyDown k log = false) (hdown : keyDown k (log ++ l) = true)
    {ka : KeyAction} (hlast : lastAction k (log ++ l) = some ka)
    (hothers : ∀ j, j ≠ k → keyDown j (log ++ l) = keyDown j log ∧
      lastAction j (log ++ l) = lastAction j log) :
    holders c (log ++ l) = holders c log + (holdsCode c (some ka)).toNat := by
  have hchange := holders_change (c := c) (fun j hj => (hothers j hj).1)
    (fun j hj => (hothers j hj).2)
  have hbefore : holds c log k = false := by rw [holds, hup, Bool.false_and]
  have hafter : holds c (log ++ l) k = holdsCode c (some ka) := by
    rw [holds, hdown, hlast, Bool.true_and]
  rw [hbefore, hafter] at hchange
  simpa using hchange

/-- A release removes its key from the holders. -/
theorem holders_release (hdown : keyDown k log = true) (hup : keyDown k (log ++ l) = false)
    (hothers : ∀ j, j ≠ k → keyDown j (log ++ l) = keyDown j log)
    (hlast : ∀ j, lastAction j (log ++ l) = lastAction j log) :
    holders c (log ++ l) + (holdsCode c (lastAction k log)).toNat = holders c log := by
  have hchange := holders_change (c := c) hothers (fun j _ => hlast j)
  have hbefore : holds c log k = holdsCode c (lastAction k log) := by
    rw [holds, hdown, Bool.true_and]
  have hafter : holds c (log ++ l) k = false := by rw [holds, hup, Bool.false_and]
  rw [hbefore, hafter] at hchange
  simpa using hchange

/-- If the latest press of `k` ran a macro, a release of `k` taken now sends nothing. -/
def QuietAt (s : KeyState) (log : List Effect) (k : KeyCode) (early : Bool) : Prop :=
  ∀ ch, lastAction k log = some (.ktMacro ch) →
    s.releaseMap k = resetKeymap ∨ (s.releaseMap k = 0 ∧ early = false)

theorem quietAt_of_along {early : Bool} {l' : List Effect} (h : Along MacroQuiet (log ++ l))
    (hl : l = .released ev (s.releaseMap k) early :: l') (hk : ev.code = codeOf k)
    (hrel : ev.isRelease = true) : QuietAt s log k early := by
  rw [hl] at h
  have hentry := (along_cons.mp h.right).1
  rw [List.append_nil] at hentry
  exact fun ch => hentry ev _ early k ch rfl hrel hk

/-- What a key holds when its release is taken: under the condition, the code that is sent for
    it is the one it holds. -/
theorem Recorded.own (hs : Recorded log s) (hdown : keyDown k log = true) {early : Bool}
    (hquiet : QuietAt s log k early)
    (hmap : s.releaseMap k = codeOf c) (hsent : early = true ∨ c ≠ 0) :
    lastAction k log = some (.ktSimple c) := by
  rcases hs k hdown with ⟨d, hlast, hd⟩ | ⟨ch, hlast⟩ | ⟨map, _, hreset⟩
  · rw [hlast, codeOf_injective (hd.symm.trans hmap)]
  · -- a macro: the entry is `RESET_KEYMAP`, or is 0 and is not sent
    rcases hquiet ch hlast with hreset | ⟨hzero, hearly⟩
    · exact absurd (hmap.symm.trans hreset) (codeOf_ne_resetKeymap c)
    · have hc : c ≠ 0 := by
        rcases hsent with he | hc
        · rw [hearly] at he
          exact absurd he (by simp)
        · exact hc
      exact absurd (hmap.symm.trans hzero) (codeOf_ne_zero hc)
  · exact absurd (hmap.symm.trans hreset) (codeOf_ne_resetKeymap c)

/-- The counter of `c` when a release with entry `code` is taken for `k`. -/
theorem OutputCovers.taken (h : OutputCovers c log) {early : Bool} (hs : Recorded log s)
    (hdown : keyDown k log = true) (hup : keyDown k (log ++ l) = false)
    (hothers : ∀ j, j ≠ k → keyDown j (log ++ l) = keyDown j log)
    (hlast : ∀ j, lastAction j (log ++ l) = lastAction j log)
    (hquiet : QuietAt s log k early)
    (hsent : keyEdges c (sends l)
      = if s.releaseMap k = codeOf c ∧ (early = true ∨ c ≠ 0) then [false] else []) :
    OutputCovers c (log ++ l) := by
  have hpaid := holders_release (c := c) hdown hup hothers hlast
  by_cases hck : s.releaseMap k = codeOf c ∧ (early = true ∨ c ≠ 0)
  · rw [if_pos hck] at hsent
    refine h.release hsent ?_
    rw [hs.own hdown hquiet hck.1 hck.2, holdsCode, decide_eq_true rfl] at hpaid
    exact hpaid
  · rw [if_neg hck] at hsent
    exact h.idle hsent (by omega)

/-- Entries that are no releases give nothing back. -/
theorem ownRelease_of_ne (before : List Effect → List Effect) (l₁ : List Effect) (x : Effect)
    (l₂ : List Effect) (h : ∀ ev code early, x ≠ .released ev code early) :
    OwnRelease (before l₁) x l₂ := by
  intro ev c early k hx
  exact absurd hx (h ev (codeOf c) early)

/-- The entry at which a release of `k` is taken. -/
theorem along_ownRelease (hs : Recorded log s) {early : Bool} (hk : ev.code = codeOf k)
    (hdown : ev.isRelease = true → keyDown k log = true)
    (hquiet : ev.isRelease = true → QuietAt s log k early)
    {l' : List Effect} (hl : l = .released ev (s.releaseMap k) early :: l')
    (hl' : released l' = []) : Along (fun l₁ => OwnRelease (log ++ l₁)) l := by
  rw [hl]
  refine along_cons.mpr ⟨?_, along_of_released_eq_nil (ownRelease_of_ne _) hl'⟩
  intro ev' c early' j hx hrel hj hsent
  rw [List.append_nil]
  obtain ⟨rfl, hmap, rfl⟩ := Effect.released.inj hx
  obtain rfl := codeOf_injective (hk.symm.trans hj)
  exact ⟨hdown hrel, hs.own (hdown hrel) (hquiet hrel) hmap hsent⟩

theorem ownRelease_mono (l₁ : List Effect) (x : Effect) (l₂ l : List Effect)
    (h : OwnRelease l₁ x l₂) : OwnRelease l₁ x (l₂ ++ l) := h

/-- **Head.** Resolving the oldest event keeps the output covered. -/
theorem Handled.covers {P : DualConfig → Prop} (h : Handled s now ev queued true s' l)
    (hready : Ready P s) (hs : Recorded log s) (hmoves : Moves log ev)
    (hquiet : Along MacroQuiet (log ++ l)) :
    Along (fun l₁ => OwnRelease (log ++ l₁)) l ∧
      ∀ c, OutputCovers c log → OutputCovers c (log ++ l) := by
  have hmoved : ∀ j, keyDown j (log ++ l) = (keyEdge j ev).getD (keyDown j log) := by
    intro j
    rw [keyDown_append, h.foldl_downStep j]
  have hothers : ∀ k, ev.code = codeOf k → ∀ j, j ≠ k → keyDown j (log ++ l) = keyDown j log ∧
      lastAction j (log ++ l) = lastAction j log := by
    intro k hk j hj
    have hne : ev.code ≠ codeOf j := fun he => hj (codeOf_injective (he.symm.trans hk))
    exact ⟨by rw [hmoved, keyEdge_of_code_ne hne]; rfl,
      by rw [lastAction_append, (h.other hne).2]⟩
  have hunchanged : ev.isPress = false → ∀ j, lastAction j (log ++ l) = lastAction j log := by
    intro hpress j
    rw [lastAction_append, h.foldl_actionStep hpress]
  constructor
  · -- only a release is given back
    rcases h.summary hready 0 with ⟨_, _, hnone, _⟩ | ⟨k, hk, hrel, _, ⟨l', hl, hl'⟩, _⟩ |
      ⟨k, ka, _, _, hnone, _⟩
    · exact along_of_released_eq_nil (ownRelease_of_ne _) hnone
    · have hdown : keyDown k log = true :=
        hmoves k false (by rw [keyEdge_release hrel, if_pos hk])
      exact along_ownRelease hs hk (fun _ => hdown) (quietAt_of_along hquiet hl hk) hl hl'
    · exact along_of_released_eq_nil (ownRelease_of_ne _) hnone
  · intro c hc
    rcases h.summary hready c with ⟨hedge, _, _, hsent⟩ | ⟨k, hk, hrel, _, ⟨l', hl, _⟩, hsent⟩ |
      ⟨k, ka, hk, hpress, _, haction, hcase⟩
    · -- no edge: the keys that hold `c` are the same
      refine hc.idle hsent (holders_of_eq (fun j => by rw [hmoved, hedge]; rfl) fun j => ?_).le
      by_cases hj : ev.code = codeOf j
      · refine hunchanged ?_ j
        by_contra hpress
        rw [Bool.not_eq_false] at hpress
        have hnone := hedge j
        rw [keyEdge_press hpress, if_pos hj] at hnone
        exact absurd hnone (by simp)
      · rw [lastAction_append, (h.other hj).2]
    · -- a release of `c` is sent exactly if its key held `c`
      have hedge : keyEdge k ev = some false := by rw [keyEdge_release hrel, if_pos hk]
      refine hc.taken hs (hmoves k false hedge) (by rw [hmoved, hedge]; rfl)
        (fun j hj => (hothers k hk j hj).1) (hunchanged (isPress_of_isRelease hrel))
        (quietAt_of_along hquiet hl hk hrel) ?_
      simpa using hsent
    · -- a press makes its key hold what its action is
      have hedge : keyEdge k ev = some true := by rw [keyEdge_press hpress, if_pos hk]
      have hheld := holders_press (c := c) (hmoves k true hedge) (by rw [hmoved, hedge]; rfl)
        (by rw [lastAction_append, haction]) (hothers k hk)
      rcases hcase with ⟨d, rfl, _, hsent⟩ | ⟨ch, rfl, _, hsent⟩ | ⟨map, rfl, _, hsent⟩
      · by_cases hdc : d = c
        · rw [if_pos hdc] at hsent
          rw [holdsCode, decide_eq_true hdc] at hheld
          exact hc.press hsent hheld
        · rw [if_neg hdc] at hsent
          rw [holdsCode, decide_eq_false hdc, Bool.toNat_false, add_zero] at hheld
          exact hc.idle hsent hheld.le
      · simp only [holdsCode, Bool.toNat_false, add_zero] at hheld
        exact hc.balanced hsent hheld.le
      · simp only [holdsCode, Bool.toNat_false, add_zero] at hheld
        exact hc.idle hsent hheld.le

/-- **Tail.** So does the release taken early. -/
theorem earlyRelease_covers (h : earlyRelease s ev = some (s', l)) (hs : Recorded log s)
    (hdown : ∀ k, keyEdge k ev = some false → keyDown k log = true)
    (hquiet : Along MacroQuiet (log ++ l)) :
    Along (fun l₁ => OwnRelease (log ++ l₁)) l ∧
      ∀ c, OutputCovers c log → OutputCovers c (log ++ l) := by
  have hkey := fun j => earlyRelease_key h j (keyDown j log)
  have hlast : ∀ j, lastAction j (log ++ l) = lastAction j log := by
    intro j
    rw [lastAction_append, earlyRelease_actionStep h]
  constructor
  · obtain ⟨k, hk, ⟨l', hl, hl'⟩, _⟩ := earlyRelease_summary h 0
    refine along_ownRelease hs hk (fun hrel => ?_) (quietAt_of_along hquiet hl hk) hl hl'
    exact hdown k (by rw [keyEdge_release hrel, if_pos hk])
  · intro c hc
    obtain ⟨k, hk, ⟨l', hl, _⟩, hsent⟩ := earlyRelease_summary h c
    by_cases hrel : ev.isRelease = true
    · have hedge : keyEdge k ev = some false := by rw [keyEdge_release hrel, if_pos hk]
      refine hc.taken hs (hdown k hedge) ?_ (fun j hj => ?_) hlast
        (quietAt_of_along hquiet hl hk hrel) ?_
      · rw [keyDown_append, (hkey k).2.2.2, if_pos hedge]
      · have hne : keyEdge j ev ≠ some false := fun he =>
          hj (codeOf_injective ((keyEdge_eq_some_false he).1.symm.trans hk))
        rw [keyDown_append, (hkey j).2.2.2, if_neg hne]
      · simpa [hrel] using hsent
    · rw [if_neg fun hck => hrel hck.1] at hsent
      refine hc.idle hsent (holders_of_eq (fun j => ?_) hlast).le
      have hne : keyEdge j ev ≠ some false := fun he => hrel (keyEdge_eq_some_false he).2
      rw [keyDown_append, (hkey j).2.2.2, if_neg hne]

end Step

/-! ### Runs -/

theorem plainResolve_covers {now : Timeval} {log : List Effect} {p p' : PlainResolver} {b : Bool}
    {l : List Effect} (hp : Covers log p) (h : plainResolve earlyRelease now p = .ok (b, p', l))
    (hquiet : Along MacroQuiet (log ++ l)) : Covers (log ++ l) p' := by
  have halt := plainResolve_alternating hp.alternating h
    (plainResolve_takenAfterPress hp.alternating.ready h)
  have hs : Ready RolloverMode { p.toKeyState with useResolvableTime := false } :=
    hp.alternating.ready.of_eq rfl rfl rfl
  rcases plainResolve_cases h with ⟨_, _, rfl, rfl⟩ | ⟨ev, rest, s', hqueue, _, rfl, hh⟩ |
    ⟨ev, rest, newest, s₁, l₁, hqueue, _, hnewest, hh, hearly⟩
  · rwa [List.append_nil]
  · -- the oldest event is resolved
    obtain ⟨hown, hout⟩ := hh.covers hs hp.recorded (hp.alternating.moves hqueue) hquiet
    exact ⟨halt, hh.recorded hp.recorded, hp.own.append ownRelease_mono hown,
      fun c => hout c (hp.output c)⟩
  · -- the oldest event waits, which moves no key
    obtain ⟨hmap, _, _, hsent, hdown, haction⟩ := hh.waiting_eq
    have hreleased : released l₁ = [] := by
      cases hh with
      | waiting _ _ _ _ => rfl
    have hdown' : ∀ k, keyDown k (log ++ l₁) = keyDown k log := fun k => by
      rw [keyDown_append, hdown]
    have haction' : ∀ k, lastAction k (log ++ l₁) = lastAction k log := fun k => by
      rw [lastAction_append, haction]
    have hrec : Recorded (log ++ l₁) s₁ :=
      hp.recorded.of_eq (fun k hd => by rwa [hdown'] at hd) haction' hmap
    have hown : Along OwnRelease (log ++ l₁) :=
      hp.own.append ownRelease_mono (along_of_released_eq_nil (ownRelease_of_ne _) hreleased)
    have hout : ∀ c, OutputCovers c (log ++ l₁) := fun c =>
      (hp.output c).idle (by rw [hsent]; rfl) (holders_of_eq hdown' haction').le
    rcases hearly with ⟨_, rfl, rfl⟩ | ⟨s₂, l₂, hearly, rfl, rfl⟩
    · exact ⟨halt, hrec, hown, hout⟩
    · rw [← List.append_assoc] at halt hquiet ⊢
      obtain ⟨hown₂, hout₂⟩ := earlyRelease_covers hearly hrec (fun k hedge => by
        have hno := hh.unqueued hs hnewest hedge
        rw [← hqueue] at hno
        rw [hdown']
        exact (newest_release hp.alternating (queue_newest hqueue hnewest) hedge hno).2.1) hquiet
      exact ⟨halt, earlyRelease_recorded hearly hrec, hown.append ownRelease_mono hown₂,
        fun c => hout₂ c (hout c)⟩

theorem macroQuiet_left {log l : List Effect} (h : Along MacroQuiet (log ++ l)) :
    Along MacroQuiet log :=
  h.left fun _ _ _ _ h => h

/-- An event that arrives or is dropped gives back nothing and moves no key. -/
theorem Covers.of_counts {log l : List Effect} {p : PlainResolver} {counts : KeyCode → Int}
    {queue : List InputEvent} (hp : Covers log p)
    (halt : Alternating RolloverMode (log ++ l)
      ⟨{ p.toKeyState with inputCounts := counts }, queue⟩)
    (hl : l = [] ∨ ∃ ev, l = [.arrive ev]) :
    Covers (log ++ l) ⟨{ p.toKeyState with inputCounts := counts }, queue⟩ := by
  have hdown : ∀ k, keyDown k (log ++ l) = keyDown k log := by
    intro k
    rw [keyDown_append]
    rcases hl with rfl | ⟨ev, rfl⟩ <;> rfl
  have hlast : ∀ k, lastAction k (log ++ l) = lastAction k log := by
    intro k
    rw [lastAction_append]
    rcases hl with rfl | ⟨ev, rfl⟩ <;> rfl
  have hreleased : released l = [] := by rcases hl with rfl | ⟨ev, rfl⟩ <;> rfl
  have hsent : sends l = [] := by rcases hl with rfl | ⟨ev, rfl⟩ <;> rfl
  exact ⟨halt, hp.recorded.of_eq (fun k hd => by rwa [hdown] at hd) hlast rfl,
    hp.own.append ownRelease_mono (along_of_released_eq_nil (ownRelease_of_ne _) hreleased),
    fun c => (hp.output c).idle (by rw [hsent]; rfl) (holders_of_eq hdown hlast).le⟩

/-- **Run.** Every run that satisfies the condition keeps the output covered. -/
theorem runPlain_covers {capacity : Option Nat} {root : KeyAction} (hmap : root.isMap = true)
    (hroot : root.Usable RolloverMode) {inputs : List Reading} {p : PlainResolver}
    {log : List Effect} (h : runPlain earlyRelease capacity root inputs = .ok (p, log))
    (hquiet : Along MacroQuiet log) : Covers log p := by
  refine runPlain_inv (fun log p => Along MacroQuiet log → Covers log p) (fun _ => True)
    ?_ ?_ ?_ (fun _ _ => trivial) ?_ h hquiet
  · intro log p ev s hp hd hquiet
    have halt := alternating_drop (hp hquiet).alternating hd
    obtain ⟨counts, rfl⟩ := resolveDedupInput_eq hd
    rw [← List.append_nil log] at halt ⊢
    exact (hp hquiet).of_counts halt (.inl rfl)
  · intro log p ev s hp _ ha hquiet
    have hp := hp (macroQuiet_left hquiet)
    have halt := alternating_arrive hp.alternating ha
    obtain ⟨counts, rfl⟩ := resolveDedupInput_eq ha
    exact hp.of_counts halt (.inr ⟨ev, rfl⟩)
  · intro now log p b p' l hp hstep hquiet
    exact plainResolve_covers (hp (macroQuiet_left hquiet)) hstep hquiet
  · intro _
    have hnone : ∀ c, holders c [] = 0 := fun c => Counter.tally_eq_zero fun _ => rfl
    exact ⟨alternating_init hmap hroot, recorded_init root, along_nil _, fun c =>
      ⟨covered_nil le_rfl, by rw [hnone c]; rfl⟩⟩

/-- On a covered output `send_dedup` counts presses minus releases. -/
theorem sendAll_covered {c : KeyCode} {evs : List InputEvent} {d : SendDedup}
    {out : List InputEvent} (h : sendAll evs SendDedup.init = .ok (d, out))
    (hcov : Covered 0 (keyEdges c evs)) : d.pressCountMap c = balance (keyEdges c evs) := by
  rw [sendAll_pressCountMap h c]
  show (keyEdges c evs).foldl Counter.bump 0 = _
  rw [Counter.foldl_bump_of_covered hcov, zero_add]

/-- **Every release has a press.** In a run without `TIMEOUT_ONLY` keys in which no release is
    sent for a key whose latest press ran a macro: no initial part of the output releases a
    code more often than it presses it; `send_dedup` never sees a release of a code it does
    not count; a release that is sent is of the code its own key holds; and the filter counts
    every code at least once for each key that holds it. -/
theorem release_has_press (km : Keymap) (hmode : km.root.NoTimeoutOnly) (inputs : List Reading)
    (hin : ∀ i ∈ inputs, CodeInRange i.ev) (r : Resolver) (log : List Effect)
    (hrun : runResolver km.root inputs = .ok (r, log)) (hquiet : Along MacroQuiet log) :
    (∀ c out, out <+: sends log →
      (keyEdges c out).count false ≤ (keyEdges c out).count true) ∧
    (∀ c out ev rest, sends log = out ++ ev :: rest → keyEdge c ev = some false →
      ∃ d fwd, sendAll out SendDedup.init = .ok (d, fwd) ∧ 1 ≤ d.pressCountMap c) ∧
    Along OwnRelease log ∧
    ∃ d fwd, sendAll (sends log) SendDedup.init = .ok (d, fwd) ∧
      ∀ c, (holders c log : Int) ≤ d.pressCountMap c := by
  have hplain := runPlain_of_runResolver hrun
  have hroot : km.root.Usable RolloverMode := ⟨km.root_filled, hmode⟩
  have hcovers := runPlain_covers rfl hroot hplain hquiet
  have hrange := runPlain_sends_inRange rfl hroot hin hplain
  have hinitial : ∀ c out, out <+: sends log → Covered 0 (keyEdges c out) := by
    rintro c out ⟨rest, hrest⟩
    have hcov := (hcovers.output c).1
    rw [← hrest, keyEdges_append] at hcov
    exact (covered_append.mp hcov).1
  refine ⟨fun c out hout => ?_, fun c out ev rest hsplit hedge => ?_, hcovers.own, ?_⟩
  · have hbal := hinitial c out hout _ List.prefix_rfl
    rw [balance] at hbal
    omega
  · have hout : out <+: sends log := ⟨ev :: rest, hsplit.symm⟩
    obtain ⟨d, fwd, hd⟩ := sendAll_total (fun e he => hrange e (hout.subset he)) SendDedup.init
    refine ⟨d, fwd, hd, ?_⟩
    rw [sendAll_covered hd (hinitial c out hout)]
    -- the release that follows is covered as well
    have hnext := hinitial c (out ++ [ev]) ⟨rest, by rw [hsplit]; simp⟩ _ List.prefix_rfl
    rw [keyEdges_append, keyEdges_cons, hedge] at hnext
    simp only [Option.toList_some, keyEdges_nil, List.append_nil, Counter.balance_append,
      Counter.balance_false, Counter.balance_nil] at hnext
    omega
  · obtain ⟨d, fwd, hd⟩ := sendAll_total hrange SendDedup.init
    refine ⟨d, fwd, hd, fun c => ?_⟩
    rw [sendAll_covered hd (hcovers.output c).1]
    exact (hcovers.output c).2

/-- A shifted tap presses whatever it releases. -/
theorem release_has_press_shiftedTap :
    ∃ r log, runResolver (shiftOn45 .holdOnRollover).root
        [keyAt 0 45 1, keyAt 20 30 1, keyAt 60 30 0, keyAt 90 45 0] = .ok (r, log) ∧
      ∀ c out, out <+: sends log →
        (keyEdges c out).count false ≤ (keyEdges c out).count true := by
  have hrun : (runResolver (shiftOn45 .holdOnRollover).root
      [keyAt 0 45 1, keyAt 20 30 1, keyAt 60 30 0, keyAt 90 45 0]).map
      (fun x => (performed x.2).all fun p => !p.2.isMacro) = .ok true := by
    decide +kernel
  obtain ⟨⟨r, log⟩, hok, hplain⟩ := Steps.map_eq_ok hrun
  -- no press ran a macro
  have hquiet : Along MacroQuiet log := by
    intro l₁ x l₂ hlog ev code early k ch _ _ _ hlast
    have hmem := performed_of_lastAction hlast
    rw [hlog, performed_append, List.all_append, Bool.and_eq_true] at hplain
    obtain ⟨p, hp, hp'⟩ := hmem
    have := List.all_eq_true.mp hplain.1 p hp
    rw [hp'] at this
    exact absurd this (by simp [KeyAction.isMacro])
  obtain ⟨hpressed, _⟩ := release_has_press (shiftOn45 .holdOnRollover)
    (shiftOn45_allDuals (by decide)) [keyAt 0 45 1, keyAt 20 30 1, keyAt 60 30 0, keyAt 90 45 0]
    (by decide) r log hok hquiet
  exact ⟨r, log, hok, hpressed⟩

/-- Key 45 as in `shiftOn45`; key 38 selects a layer in which key 30 runs a macro. -/
def macroLayer : Keymap :=
  .ofTable [(45, .ktDual (.ktSimple 45) (.ktSimple 42) ⟨.tapOnRollover, 200, 300⟩),
      (38, .ktMap (tableMap [(30, .ktMacro [⟨48, true⟩, ⟨48, false⟩])]))] (by
    have htimes : (1 : Int) ≤ 200 ∧ (-1 : Int) ≤ 300 := by decide
    intro b hb
    rcases List.mem_pair.mp hb with rfl | rfl
    · exact ⟨⟨rfl, rfl, rfl⟩, htimes, trivial, trivial⟩
    · refine tableMap_forall trivial fun b hb => ?_
      obtain rfl := List.mem_singleton.mp hb
      exact .key 48)

/-- Key 30 is released behind the undecided key 45, and then runs the macro of the layer. -/
def macroAfterEarlyRelease : List Reading :=
  [keyAt 0 30 1, keyAt 10 45 1, keyAt 20 30 0, keyAt 30 45 0, keyAt 40 38 1, keyAt 50 30 1,
    keyAt 60 30 0]

/-- **A release without a press.** The release that ends the macro is sent under the entry
    that the first press of key 30 left behind: 30 is released twice and pressed once. -/
theorem stale_release_sent :
    macroLayer.root.NoTimeoutOnly ∧
    (∀ k, (Alternation.settle false
      (keyEdges k (macroAfterEarlyRelease.map Reading.ev))).isSome = true) ∧
    ∃ r log, runResolver macroLayer.root macroAfterEarlyRelease = .ok (r, log) ∧
      (keyEdges 30 (sends log)).count true < (keyEdges 30 (sends log)).count false := by
  refine ⟨Keymap.root_allDuals _ (tableMap_forall trivial fun b hb => ?_), by decide +kernel, ?_⟩
  · rcases List.mem_pair.mp hb with rfl | rfl
    · exact ⟨by decide, trivial, trivial⟩
    · refine tableMap_forall trivial fun b hb => ?_
      obtain rfl := List.mem_singleton.mp hb
      trivial
  · have hrun : (runResolver macroLayer.root macroAfterEarlyRelease).map (fun x =>
        ((keyEdges 30 (sends x.2)).count true, (keyEdges 30 (sends x.2)).count false))
          = .ok (1, 2) := by
      decide +kernel
    obtain ⟨⟨r, log⟩, hok, hcounts⟩ := Steps.map_eq_ok hrun
    obtain ⟨htrue, hfalse⟩ := Prod.mk.inj hcounts
    refine ⟨r, log, hok, ?_⟩
    rw [htrue, hfalse]
    decide

end Sdiol
