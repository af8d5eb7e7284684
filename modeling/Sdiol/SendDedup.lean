import Sdiol.Event
import Sdiol.Lib.Counter
import Sdiol.Lib.Steps

namespace Sdiol

/-!
# The output filter `send_dedup`

One `send_dedup_t` sits between all resolvers and the output.  It counts, for each output
code, how many sources hold it, and forwards the first press and the last release only.  The
printing it does under `verbose` is left out, as nothing depends on it.

`keyEdges c evs` is what a list of events does to the count of code `c`; the count after any
number of calls is the clamped counter of `Counter` run over these edges
(`sendAll_pressCountMap`).
-/

/-- `send_dedup_t` without the callback it wraps. -/
structure SendDedup where
  pressCountMap : KeyCode → Int
  sentSomething : Bool

/-- The zeroed `deduper` of `serve_loop`. -/
def SendDedup.init : SendDedup := ⟨fun _ => 0, false⟩

/-- `send_dedup`, with the events it forwards to the wrapped callback. -/
def sendDedup (ev : InputEvent) (d : SendDedup) : Except Abort (SendDedup × List InputEvent) :=
  if ev.type = evKey then
    if ev.code.toNat > keyMax then
      -- "invalid ev.code in send_dedup"
      .ok (d, [])
    else if ev.value = 0 then do
      let k ← keyIndex ev.code
      if d.pressCountMap k < 1 then
        -- "invalid key release of %s in send_dedup"
        .ok (d, [])
      else
        let count := d.pressCountMap k - 1
        let counts := Function.update d.pressCountMap k count
        if count = 0 then .ok (⟨counts, true⟩, [ev]) else .ok (⟨counts, d.sentSomething⟩, [])
    else if ev.value = 1 then do
      let k ← keyIndex ev.code
      let count := d.pressCountMap k
      let counts := Function.update d.pressCountMap k (count + 1)
      if count = 0 then .ok (⟨counts, true⟩, [ev]) else .ok (⟨counts, d.sentSomething⟩, [])
    else if ev.value = 2 then
      .ok (⟨d.pressCountMap, true⟩, [ev])
    else
      -- "dropping invalid ev.value %d in send_dedup"
      .ok (d, [])
  else if ev.type = evSyn then
    if d.sentSomething then .ok (⟨d.pressCountMap, false⟩, [ev]) else .ok (d, [])
  else
    .ok (⟨d.pressCountMap, true⟩, [ev])

/-- `send_dedup` called for each event of a list in turn. -/
def sendAll (evs : List InputEvent) (d : SendDedup) :
    Except Abort (SendDedup × List InputEvent) :=
  Steps.run sendDedup evs d

/-! ### What an event does to the count of one code -/

/-- A press (`true`) or release (`false`) of output code `c`. -/
def keyEdge (c : KeyCode) (ev : InputEvent) : Option Bool :=
  if ev.code = codeOf c then
    if ev.isPress then some true else if ev.isRelease then some false else none
  else none

/-- The presses and releases of code `c` in a list of events. -/
def keyEdges (c : KeyCode) (evs : List InputEvent) : List Bool := evs.filterMap (keyEdge c)

@[simp] theorem keyEdges_nil (c : KeyCode) : keyEdges c [] = [] := rfl

@[simp] theorem keyEdges_append (c : KeyCode) (l₁ l₂ : List InputEvent) :
    keyEdges c (l₁ ++ l₂) = keyEdges c l₁ ++ keyEdges c l₂ := List.filterMap_append

theorem keyEdges_cons (c : KeyCode) (ev : InputEvent) (l : List InputEvent) :
    keyEdges c (ev :: l) = (keyEdge c ev).toList ++ keyEdges c l := by
  unfold keyEdges
  cases h : keyEdge c ev <;> simp [h]

theorem keyEdge_of_not_key {c : KeyCode} {ev : InputEvent} (h : ev.type ≠ evKey) :
    keyEdge c ev = none := by
  simp [keyEdge, InputEvent.isPress, InputEvent.isRelease, h]

theorem keyEdge_of_code_ne {c : KeyCode} {ev : InputEvent} (h : ev.code ≠ codeOf c) :
    keyEdge c ev = none := by
  simp [keyEdge, h]

theorem keyEdge_press {k : KeyCode} {ev : InputEvent} (hpress : ev.isPress = true) :
    keyEdge k ev = if ev.code = codeOf k then some true else none := by
  simp [keyEdge, hpress]

theorem keyEdge_release {k : KeyCode} {ev : InputEvent} (hrel : ev.isRelease = true) :
    keyEdge k ev = if ev.code = codeOf k then some false else none := by
  obtain ⟨_, hvalue⟩ := InputEvent.isRelease_iff.mp hrel
  simp [keyEdge, hrel, InputEvent.isPress, hvalue]

/-! ### One call -/

/-- What one call of `send_dedup` does, in cases. -/
inductive Filtered (ev : InputEvent) (d : SendDedup) : SendDedup → List InputEvent → Prop where
  /-- an invalid code or value, or an `EV_SYN` with nothing before it -/
  | dropped (hedge : ∀ c, keyEdge c ev = none)
      (hother : ev.type = evKey ∨ ev.type = evSyn ∧ d.sentSomething = false) : Filtered ev d d []
  /-- a release of a key that no source holds -/
  | invalidRelease (k : KeyCode) (hev : ev.isRelease = true) (hcode : ev.code = codeOf k)
      (hcount : d.pressCountMap k < 1) : Filtered ev d d []
  | lastRelease (k : KeyCode) (hev : ev.isRelease = true) (hcode : ev.code = codeOf k)
      (hcount : d.pressCountMap k = 1) :
      Filtered ev d ⟨Function.update d.pressCountMap k 0, true⟩ [ev]
  | release (k : KeyCode) (hev : ev.isRelease = true) (hcode : ev.code = codeOf k)
      (hcount : 1 < d.pressCountMap k) :
      Filtered ev d
        ⟨Function.update d.pressCountMap k (d.pressCountMap k - 1), d.sentSomething⟩ []
  | firstPress (k : KeyCode) (hev : ev.isPress = true) (hcode : ev.code = codeOf k)
      (hcount : d.pressCountMap k = 0) :
      Filtered ev d ⟨Function.update d.pressCountMap k 1, true⟩ [ev]
  | press (k : KeyCode) (hev : ev.isPress = true) (hcode : ev.code = codeOf k)
      (hcount : d.pressCountMap k ≠ 0) :
      Filtered ev d
        ⟨Function.update d.pressCountMap k (d.pressCountMap k + 1), d.sentSomething⟩ []
  /-- a key repeat, or an event of another type -/
  | passed (hedge : ∀ c, keyEdge c ev = none) (htype : ev.type ≠ evSyn) :
      Filtered ev d ⟨d.pressCountMap, true⟩ [ev]
  | syn (htype : ev.type = evSyn) (hsent : d.sentSomething = true) :
      Filtered ev d ⟨d.pressCountMap, false⟩ [ev]

/-- **Every case.** No call of `send_dedup` does anything else. -/
theorem sendDedup_filtered {ev : InputEvent} {d d' : SendDedup} {out : List InputEvent}
    (h : sendDedup ev d = .ok (d', out)) : Filtered ev d d' out := by
  unfold sendDedup at h
  by_cases hkey : ev.type = evKey
  · rw [if_pos hkey] at h
    by_cases hhigh : ev.code.toNat > keyMax
    · rw [if_pos hhigh] at h
      cases h
      -- the code is no key's
      refine .dropped (fun c => keyEdge_of_code_ne ?_) (.inl hkey)
      intro he
      rw [he, codeOf_toNat] at hhigh
      exact absurd c.isLt (by omega)
    · rw [if_neg hhigh] at h
      by_cases h0 : ev.value = 0
      · rw [if_pos h0] at h
        obtain ⟨k, hk, h⟩ := Steps.bind_eq_ok.mp h
        rw [keyIndex_ok] at hk
        have hrel : ev.isRelease = true := InputEvent.isRelease_iff.mpr ⟨hkey, h0⟩
        -- a release: invalid, not the last one, or the last one
        by_cases hlow : d.pressCountMap k < 1
        · rw [if_pos hlow] at h
          cases h
          exact .invalidRelease k hrel hk hlow
        · rw [if_neg hlow] at h
          by_cases hlast : d.pressCountMap k - 1 = 0
          · simp only [hlast, if_true] at h
            cases h
            exact .lastRelease k hrel hk (by omega)
          · simp only [if_neg hlast] at h
            cases h
            exact .release k hrel hk (by omega)
      · rw [if_neg h0] at h
        by_cases h1 : ev.value = 1
        · rw [if_pos h1] at h
          obtain ⟨k, hk, h⟩ := Steps.bind_eq_ok.mp h
          rw [keyIndex_ok] at hk
          have hpress : ev.isPress = true := InputEvent.isPress_iff.mpr ⟨hkey, h1⟩
          -- a press: only the first one is forwarded
          by_cases hfirst : d.pressCountMap k = 0
          · simp only [hfirst, if_true] at h
            cases h
            exact .firstPress k hpress hk hfirst
          · simp only [if_neg hfirst] at h
            cases h
            exact .press k hpress hk hfirst
        · rw [if_neg h1] at h
          have hedge : ∀ c, keyEdge c ev = none := by
            intro c
            simp [keyEdge, InputEvent.isPress, InputEvent.isRelease, h0, h1]
          split at h
          · cases h
            exact .passed hedge (by rw [hkey]; decide)
          · cases h
            exact .dropped hedge (.inl hkey)
  · rw [if_neg hkey] at h
    have hedge : ∀ c, keyEdge c ev = none := fun c => keyEdge_of_not_key hkey
    by_cases hsyn : ev.type = evSyn
    · rw [if_pos hsyn] at h
      by_cases hsent : d.sentSomething = true
      · rw [if_pos hsent] at h
        cases h
        exact .syn hsyn hsent
      · rw [if_neg hsent] at h
        cases h
        exact .dropped hedge (.inr ⟨hsyn, Bool.not_eq_true _ ▸ hsent⟩)
    · rw [if_neg hsyn] at h
      cases h
      exact .passed hedge hsyn

/-- An edge of the key `k` changes the count of no other key. -/
theorem update_eq_foldl_bump {counts : KeyCode → Int} {k : KeyCode} {e : Bool} {count : Int}
    (hcount : count = Counter.bump (counts k) e) (c : KeyCode) :
    Function.update counts k count c =
      (if codeOf k = codeOf c then some e else none).toList.foldl Counter.bump (counts c) := by
  by_cases hkc : k = c
  · subst hkc
    rw [Function.update_self, if_pos rfl]
    exact hcount
  · rw [Function.update_of_ne (Ne.symm hkc), if_neg fun h => hkc (codeOf_injective h)]
    rfl

/-- **One call.** `send_dedup` moves the count of `c` by the clamped counter step of the
    event's edge at `c`, if it has one. -/
theorem sendDedup_pressCountMap {ev : InputEvent} {d d' : SendDedup} {out : List InputEvent}
    (h : sendDedup ev d = .ok (d', out)) (c : KeyCode) :
    d'.pressCountMap c = (keyEdge c ev).toList.foldl Counter.bump (d.pressCountMap c) := by
  cases sendDedup_filtered h with
  | dropped hedge _ =>
    rw [hedge]
    rfl
  | passed hedge _ =>
    rw [hedge]
    rfl
  | syn htype _ =>
    rw [keyEdge_of_not_key (by rw [htype]; decide)]
    rfl
  | invalidRelease k hev hcode hcount =>
    -- the count stays where it is, which is what a clamped counter does
    rw [keyEdge_release hev, hcode, ← update_eq_foldl_bump (if_pos hcount).symm,
      Function.update_eq_self]
  | lastRelease k hev hcode hcount =>
    rw [keyEdge_release hev, hcode]
    exact update_eq_foldl_bump (by rw [hcount]; rfl) c
  | release k hev hcode hcount =>
    rw [keyEdge_release hev, hcode]
    exact update_eq_foldl_bump (if_neg hcount.not_gt).symm c
  | firstPress k hev hcode hcount =>
    rw [keyEdge_press hev, hcode]
    exact update_eq_foldl_bump (by rw [hcount]; rfl) c
  | press k hev hcode _ =>
    rw [keyEdge_press hev, hcode]
    have hcounted : d.pressCountMap k + 1 = Counter.bump (d.pressCountMap k) true := rfl
    exact update_eq_foldl_bump hcounted c

/-- **Any number of calls.** The count of `c` is the clamped counter run over the edges. -/
theorem sendAll_pressCountMap {evs : List InputEvent} {d d' : SendDedup} {out : List InputEvent}
    (h : sendAll evs d = .ok (d', out)) (c : KeyCode) :
    d'.pressCountMap c = (keyEdges c evs).foldl Counter.bump (d.pressCountMap c) := by
  unfold sendAll at h
  induction evs generalizing d out with
  | nil =>
    obtain ⟨rfl, rfl⟩ := Steps.run_nil_ok.mp h
    rfl
  | cons ev evs ih =>
    obtain ⟨d₁, l₁, l₂, h₁, h₂, rfl⟩ := Steps.run_cons_ok.mp h
    rw [ih h₂, sendDedup_pressCountMap h₁ c, keyEdges_cons, List.foldl_append]

/-! ### No call fails on codes in range -/

/-- A key event has a code below `KEY_MAX`. -/
def CodeInRange (ev : InputEvent) : Prop := ev.type = evKey → ev.code.toNat < keyMax

instance : DecidablePred CodeInRange := fun ev =>
  inferInstanceAs (Decidable (ev.type = evKey → ev.code.toNat < keyMax))

theorem sendDedup_total {ev : InputEvent} (hev : CodeInRange ev) (d : SendDedup) :
    ∃ d' out, sendDedup ev d = .ok (d', out) := by
  unfold sendDedup
  by_cases hkey : ev.type = evKey
  · obtain ⟨k, hk⟩ := exists_codeOf (hev hkey)
    have hle : ¬ (codeOf k).toNat > keyMax := by
      rw [codeOf_toNat]
      exact Nat.not_lt.mpr k.isLt.le
    simp only [if_pos hkey, hk, if_neg hle, keyIndex_codeOf]
    split
    · simp only [bind, Except.bind]
      split
      · exact ⟨_, _, rfl⟩
      · split <;> exact ⟨_, _, rfl⟩
    · split
      · simp only [bind, Except.bind]
        split <;> exact ⟨_, _, rfl⟩
      · split <;> exact ⟨_, _, rfl⟩
  · simp only [if_neg hkey]
    split
    · split <;> exact ⟨_, _, rfl⟩
    · exact ⟨_, _, rfl⟩

theorem sendAll_total {evs : List InputEvent} (hevs : ∀ ev ∈ evs, CodeInRange ev)
    (d : SendDedup) : ∃ d' out, sendAll evs d = .ok (d', out) := by
  induction evs generalizing d with
  | nil => exact ⟨d, [], rfl⟩
  | cons ev evs ih =>
    obtain ⟨d₁, out₁, h₁⟩ := sendDedup_total (hevs ev List.mem_cons_self) d
    obtain ⟨d₂, out₂, h₂⟩ := ih (fun e he => hevs e (List.mem_cons_of_mem _ he)) d₁
    exact ⟨d₂, out₁ ++ out₂, Steps.run_cons_ok.mpr ⟨d₁, out₁, out₂, h₁, h₂, rfl⟩⟩

end Sdiol
