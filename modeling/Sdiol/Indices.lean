import Sdiol.NoAbort
import Sdiol.Serve

namespace Sdiol

/-!
# Indexing by a key code

The arrays of length `KEY_MAX` are indexed behind guards that are not the same everywhere:
`check_waveform` and the early release branch of `resolve` ask for `code < KEY_MAX`, while
`resolve_dedup_input`, `resolve` and `send_dedup` only turn away `code > KEY_MAX`.  An event
whose code is `KEY_MAX` itself passes the second kind.

`indices_in_range` says for which events a call reads beyond an array, from any state, and that
no other run ever does.  What the resolver sends never makes `send_dedup` do so.
-/

/-- A press, a release or a repeat of the code `KEY_MAX`. -/
def AtKeyMax (ev : InputEvent) : Prop :=
  ev.type = evKey ∧ ev.code.toNat = keyMax ∧ (ev.value = 0 ∨ ev.value = 1 ∨ ev.value = 2)

instance : DecidablePred AtKeyMax := fun ev =>
  inferInstanceAs (Decidable (ev.type = evKey ∧ ev.code.toNat = keyMax ∧
    (ev.value = 0 ∨ ev.value = 1 ∨ ev.value = 2)))

theorem keyIndex_keyMax {code : UInt16} (h : code.toNat = keyMax) :
    keyIndex code = .error .outOfBounds := by
  have hnone : asKey code = none := by
    unfold asKey
    rw [dif_neg (by omega)]
  unfold keyIndex
  rw [hnone]

/-! ### One call -/

/-- **The input filter.** -/
theorem resolveDedupInput_index (s : KeyState) (ev : InputEvent) :
    (AtKeyMax ev ∧ ev.value ≠ 2 ∧ resolveDedupInput s ev = .error .outOfBounds) ∨
      (¬ (AtKeyMax ev ∧ ev.value ≠ 2) ∧ ∃ pass s', resolveDedupInput s ev = .ok (pass, s')) := by
  by_cases hmax : ev.type = evKey ∧ ev.code.toNat = keyMax
  · -- the test `code > KEY_MAX` lets `KEY_MAX` pass; a repeat is not counted
    obtain ⟨hkey, hcode⟩ := hmax
    have hlow : ¬ ev.code.toNat > keyMax := by omega
    unfold resolveDedupInput
    rw [if_neg (not_not.mpr hkey), if_neg hlow, keyIndex_keyMax hcode]
    by_cases h0 : ev.value = 0
    · rw [if_pos h0]
      exact .inl ⟨⟨hkey, hcode, .inl h0⟩, by rw [h0]; decide, rfl⟩
    · rw [if_neg h0]
      by_cases h1 : ev.value = 1
      · rw [if_pos h1]
        exact .inl ⟨⟨hkey, hcode, .inr (.inl h1)⟩, by rw [h1]; decide, rfl⟩
      · rw [if_neg h1]
        refine .inr ⟨?_, _, _, rfl⟩
        rintro ⟨⟨_, _, h⟩, h2⟩
        exact h.elim h0 fun h => h.elim h1 h2
  · -- all other codes are rejected or have a cell
    refine .inr ⟨fun h => hmax ⟨h.1.1, h.1.2.1⟩, ?_⟩
    by_cases hhigh : ev.type = evKey ∧ ev.code.toNat > keyMax
    · unfold resolveDedupInput
      rw [if_neg (not_not.mpr hhigh.1), if_pos hhigh.2]
      exact ⟨_, _, rfl⟩
    · refine resolveDedupInput_total s fun hkey => ?_
      have hle : ¬ ev.code.toNat > keyMax := fun h => hhigh ⟨hkey, h⟩
      have hne : ev.code.toNat ≠ keyMax := fun h => hmax ⟨hkey, h⟩
      omega

/-- **The oldest event.** -/
theorem resolveEvent_index {P : DualConfig → Prop} {s : KeyState} (hs : Ready P s)
    (now : Timeval) (ev : InputEvent) (queued : List InputEvent) :
    (AtKeyMax ev ∧ resolveEvent s now ev queued = .error .outOfBounds) ∨
      (¬ AtKeyMax ev ∧ ∃ b s' l, resolveEvent s now ev queued = .ok (b, s', l)) := by
  by_cases hmax : ev.type = evKey ∧ ev.code.toNat = keyMax
  · -- each of the three branches reads the cell of the key first
    obtain ⟨hkey, hcode⟩ := hmax
    have hlow : ¬ ev.code.toNat > keyMax := by omega
    have hindex := keyIndex_keyMax hcode
    unfold resolveEvent
    rw [if_pos hkey, if_neg hlow]
    by_cases h0 : ev.value = 0
    · rw [if_pos h0]
      unfold resolveRelease
      rw [hindex]
      exact .inl ⟨⟨hkey, hcode, .inl h0⟩, rfl⟩
    rw [if_neg h0]
    by_cases h1 : ev.value = 1
    · rw [if_pos h1]
      unfold resolvePress
      rw [hindex]
      exact .inl ⟨⟨hkey, hcode, .inr (.inl h1)⟩, rfl⟩
    rw [if_neg h1]
    by_cases h2 : ev.value = 2
    · rw [if_pos h2, hindex]
      exact .inl ⟨⟨hkey, hcode, .inr (.inr h2)⟩, rfl⟩
    · rw [if_neg h2]
      exact .inr ⟨fun h => h.2.2.elim h0 fun h => h.elim h1 h2, _, _, _, rfl⟩
  · refine .inr ⟨fun h => hmax ⟨h.1, h.2.1⟩, ?_⟩
    by_cases hhigh : ev.type = evKey ∧ ev.code.toNat > keyMax
    · unfold resolveEvent
      rw [if_pos hhigh.1, if_pos hhigh.2]
      exact ⟨_, _, _, rfl⟩
    · refine resolveEvent_total hs now (fun hkey => ?_) queued
      have hle : ¬ ev.code.toNat > keyMax := fun h => hhigh ⟨hkey, h⟩
      have hne : ev.code.toNat ≠ keyMax := fun h => hmax ⟨hkey, h⟩
      omega

section Visited

variable {P : DualConfig → Prop} {root : KeyAction} {Good : InputEvent → Prop} {r r' : Resolver}

/-- The typing invariant holds whatever events arrive. -/
theorem Visited.ready (hmap : root.isMap = true) (hroot : root.Usable P)
    (h : Visited root Good r) : Ready P r.toKeyState := by
  induction h with
  | init => exact ready_init hmap hroot
  | filtered _ _ hdedup ih =>
    obtain ⟨counts, rfl⟩ := resolveDedupInput_eq hdedup
    exact ih.of_eq rfl rfl rfl
  | queued _ _ _ ih => exact ih
  | resolved _ hstep ih => exact plainResolve_ready (resolve_plain_ok hstep) ih

/-- **One call of `resolve`.** It reads beyond an array exactly if the oldest event has the code
    `KEY_MAX`, and fails in no other way. -/
theorem resolve_index (now : Timeval) (hs : Ready P r.toKeyState) :
    ((∃ ev, r.queue.head? = some ev ∧ AtKeyMax ev) ∧ resolve now r = .error .outOfBounds) ∨
      ((∀ ev, r.queue.head? = some ev → ¬ AtKeyMax ev) ∧
        ∃ b r' l, resolve now r = .ok (b, r', l)) := by
  by_cases hlen : r.urLen = 0
  · have hempty : r.queue = [] := List.length_eq_zero_iff.mp (by rw [r.length_queue, hlen])
    refine .inr ⟨by simp [hempty], ?_⟩
    unfold resolve
    rw [if_pos hlen]
    exact ⟨_, _, _, rfl⟩
  · have hs₀ : Ready P { r.toKeyState with useResolvableTime := false } := hs.of_eq rfl rfl rfl
    rw [Resolver.queue_cons hlen, List.head?_cons]
    rcases resolveEvent_index hs₀ now (r.unresolved (r.urStart % urMax)) r.queued with
      ⟨hmax, herror⟩ | ⟨hmax, b, s', l, hok⟩
    · refine .inl ⟨⟨_, rfl, hmax⟩, ?_⟩
      unfold resolve
      simp only [if_neg hlen, herror, bind, Except.bind]
    · refine .inr ⟨fun ev hev => by rwa [← Option.some.inj hev], ?_⟩
      unfold resolve
      simp only [if_neg hlen, hok, bind, Except.bind]
      cases b with
      | true => exact ⟨_, _, _, rfl⟩
      | false =>
        simp only [Bool.false_eq_true, if_false]
        split <;> exact ⟨_, _, _, rfl⟩

/-- What a call of `resolve` sends can be counted by `send_dedup`. -/
theorem resolve_sends_inRange {now : Timeval} {b : Bool} {l : List Effect}
    (hs : Ready P r.toKeyState) (h : resolve now r = .ok (b, r', l)) :
    ∀ e ∈ sends l, CodeInRange e :=
  plainResolve_sends_inRange hs (resolve_plain_ok h)

/-! ### Runs -/

/-- A resolver that was given no event with the code `KEY_MAX` handles the next one. -/
theorem serveEvent_index (hmap : root.isMap = true) (hroot : root.Usable P) (clk : Nat → Timeval)
    {ev : InputEvent} (hr : Visited root (fun ev => ¬ AtKeyMax ev) r) (hev : ¬ AtKeyMax ev) :
    serveEvent clk ev r = .error .overflow ∨
      ∃ r' l, serveEvent clk ev r = .ok (r', l) ∧
        Visited root (fun ev => ¬ AtKeyMax ev) r' ∧ ∀ e ∈ sends l, CodeInRange e := by
  obtain ⟨pass, s, hdedup⟩ : ∃ pass s, resolveDedupInput r.toKeyState ev = .ok (pass, s) := by
    rcases resolveDedupInput_index r.toKeyState ev with ⟨hmax, _, _⟩ | ⟨_, hok⟩
    · exact absurd hmax hev
    · exact hok
  have hfiltered := hr.filtered hev hdedup
  unfold serveEvent
  rw [hdedup]
  simp only [bind, Except.bind]
  cases pass with
  | false => exact .inr ⟨_, _, rfl, hfiltered, by simp [sends]⟩
  | true =>
    simp only [if_true]
    by_cases hfull : r.urLen = urMax
    · rw [if_pos hfull]
      exact .inl rfl
    · -- every call of the loop finds an event that has a cell
      rw [if_neg hfull]
      have hpushed := hfiltered.queued hev hfull
      have hstep : ∀ now r, Visited root (fun ev => ¬ AtKeyMax ev) r → ∃ again r' l,
          resolve now r = .ok (again, r', l) ∧ Visited root (fun ev => ¬ AtKeyMax ev) r' := by
        intro now r hr
        rcases resolve_index now (hr.ready hmap hroot) with
          ⟨⟨ev, hhead, hmax⟩, _⟩ | ⟨_, b, r', l, hok⟩
        · exact absurd hmax (hr.queue_good ev (List.mem_of_mem_head? hhead))
        · exact ⟨b, r', l, hok, hr.resolved hok⟩
      obtain ⟨r₁, l, hloop, hr₁⟩ := Steps.loop_progress _ hstep (r.urLen + 1 + 1) clk hpushed
      have hsends : Visited root (fun ev => ¬ AtKeyMax ev) r₁ ∧ ∀ e ∈ sends l, CodeInRange e := by
        refine Steps.loop_inv (fun l r => Visited root (fun ev => ¬ AtKeyMax ev) r ∧
          ∀ e ∈ sends l, CodeInRange e) ?_ [] ⟨hpushed, by simp [sends]⟩ hloop
        rintro now again log r r' l ⟨hr, hlog⟩ hres
        refine ⟨hr.resolved hres, fun e he => ?_⟩
        rw [sends_append] at he
        rcases List.mem_append.mp he with he | he
        · exact hlog e he
        · exact resolve_sends_inRange (hr.ready hmap hroot) hres e he
      refine .inr ⟨r₁, .arrive ev :: l, ?_, hr₁, hsends.2⟩
      exact congrArg (fun x => x.bind fun y => Except.ok (y.1, Effect.arrive ev :: y.2)) hloop

end Visited

variable {n : Nat}

/-- The same with all grabs and the filter they share. -/
theorem serve_index (kms : Fin n → Keymap) {inputs : List (GrabReading n)}
    (hin : ∀ i ∈ inputs, ¬ AtKeyMax i.ev) :
    serve (fun g => (kms g).root) inputs = .error .overflow ∨
      ∃ s log, serve (fun g => (kms g).root) inputs = .ok (s, log) := by
  have hstep : ∀ i ∈ inputs, ∀ s : ServeState n,
      (∀ g, Visited (kms g).root (fun ev => ¬ AtKeyMax ev) (s.resolvers g)) →
      (∃ e, serveStep i s = .error e ∧ e = .overflow) ∨ ∃ s' l, serveStep i s = .ok (s', l) ∧
        ∀ g, Visited (kms g).root (fun ev => ¬ AtKeyMax ev) (s'.resolvers g) := by
    intro i hi s hs
    rcases serveEvent_index (P := fun _ => True) rfl (kms i.grab).root_usable_true i.clk
        (hs i.grab) (hin i hi) with hover | ⟨r, l, hok, hr, hsends⟩
    · exact .inl ⟨.overflow, by simp only [serveStep, hover, bind, Except.bind], rfl⟩
    · obtain ⟨d, out, hfilter⟩ := sendAll_total hsends s.deduper
      refine .inr ⟨_, _, by simp only [serveStep, hok, hfilter, bind, Except.bind]; rfl, ?_⟩
      exact (Function.forall_update_iff s.resolvers fun g r =>
        Visited (kms g).root (fun ev => ¬ AtKeyMax ev) r).mpr ⟨hr, fun g _ => hs g⟩
  have hinit : ∀ g, Visited (kms g).root (fun ev => ¬ AtKeyMax ev)
      ((serveInit fun g => (kms g).root).resolvers g) := fun g => .init
  rcases Steps.run_progress _ _ hstep hinit with ⟨e, he, rfl⟩ | ⟨s, log, hok, _⟩
  · exact .inl he
  · exact .inr ⟨s, log, hok⟩

/-- **Where an index is out of range.** If no press, release or repeat of the code `KEY_MAX` is
    read, then no run of `serve_loop` ever indexes beyond an array.  In any state that a
    resolver goes through, whatever events it was given: the input filter does so exactly on a
    press or a release of `KEY_MAX`, and `resolve` exactly when the oldest event is a press, a
    release or a repeat of it; what `resolve` sends never makes `send_dedup` do so. -/
theorem indices_in_range (kms : Fin n → Keymap) :
    (∀ inputs : List (GrabReading n), (∀ i ∈ inputs, ¬ AtKeyMax i.ev) →
      serve (fun g => (kms g).root) inputs ≠ .error .outOfBounds) ∧
    ∀ g r, Visited (kms g).root (fun _ => True) r →
      (∀ ev, resolveDedupInput r.toKeyState ev = .error .outOfBounds ↔
        AtKeyMax ev ∧ ev.value ≠ 2) ∧
      (∀ now, resolve now r = .error .outOfBounds ↔
        ∃ ev, r.queue.head? = some ev ∧ AtKeyMax ev) ∧
      ∀ now b r' l, resolve now r = .ok (b, r', l) →
        ∀ d, sendAll (sends l) d ≠ .error .outOfBounds := by
  refine ⟨fun inputs hin => ?_, fun g r hr => ⟨fun ev => ?_, fun now => ?_, ?_⟩⟩
  · rcases serve_index kms hin with h | ⟨s, log, h⟩ <;> (rw [h]; simp)
  · rcases resolveDedupInput_index r.toKeyState ev with ⟨hmax, htwo, h⟩ | ⟨hnot, _, _, h⟩
    · exact iff_of_true h ⟨hmax, htwo⟩
    · exact iff_of_false (by rw [h]; simp) hnot
  · rcases resolve_index now (hr.ready rfl (kms g).root_usable_true) with
      ⟨hhead, h⟩ | ⟨hnot, _, _, _, h⟩
    · exact iff_of_true h hhead
    · refine iff_of_false (by rw [h]; simp) ?_
      rintro ⟨ev, hev, hmax⟩
      exact hnot ev hev hmax
  · intro now b r' l hstep d
    have hready := hr.ready rfl (kms g).root_usable_true
    obtain ⟨d', out, h⟩ := sendAll_total (resolve_sends_inRange hready hstep) d
    rw [h]
    simp

/-- The code `KEY_MAX` goes down. -/
def pressKeyMax : GrabReading 1 :=
  ⟨⟨⟨Timeval.zero, evKey, 767, 1⟩, fun _ => Timeval.zero⟩, soleGrab⟩

/-- The first event is enough. -/
theorem key_max_out_of_bounds :
    serve (fun _ => (shiftOn45 .tapOnRollover).root) [pressKeyMax] = .error .outOfBounds := rfl

end Sdiol
