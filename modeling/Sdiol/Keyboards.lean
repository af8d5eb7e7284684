import Sdiol.KeyOrder
import Sdiol.Serve
import Sdiol.Lib.Buffer

namespace Sdiol

/-!
# Keyboards that come and go

`serve_loop` reads from an array of keyboards.  `open_inputs` and `handle_inotify_events` append
to it, and a keyboard whose `read` fails is removed.  All keyboards of a grab share the
`input_counts` of its resolver.

`World` puts beside the state of the program what keys each keyboard physically holds.  A
keyboard is plugged in with no key held, sends a press only of a key it does not hold and a
release only of a key it holds, and can be unplugged at any time; the log remembers what an
unplugged keyboard held.

* `Counted` — a count is the number of connected keyboards that hold the key (`holders`) plus
  the number of keyboards that held it when they were unplugged (`lost`), as nothing gives
  their presses back;
* `input_counts_or` — so the counts are the logical OR of the connected keyboards exactly for
  the keys that were never lost;
* `entered_only_before_loss` — and a key that was lost never enters the resolver again.
-/

variable {n : Nat}

/-! ### The array of keyboards -/

/-- `MAX_KBS` -/
def maxKbs : Nat := 16

/-- `keyboard_t` -/
structure Keyboard (n : Nat) where
  fd : Fd
  grab : Fin n

/-- `serve_loop` with its keyboards, and the keys that each keyboard holds. -/
structure World (n : Nat) where
  kbs : Nat → Keyboard n
  nKbs : Nat
  loop : ServeState n
  held : Fd → KeyCode → Bool

/-- `serve_loop` before it has opened any keyboard; the array `kbs` is uninitialised. -/
def worldInit (kbs : Nat → Keyboard n) (roots : Fin n → KeyAction) : World n where
  kbs := kbs
  nKbs := 0
  loop := serveInit roots
  held := fun _ _ => false

/-- The connected keyboards. -/
def World.connected (w : World n) : List (Keyboard n) := Buffer.slice w.kbs 0 w.nKbs

/-- What `open_inputs` and `handle_inotify_events` do with a device that matches a grab. -/
def openInput (kb : Keyboard n) (w : World n) : World n :=
  if w.nKbs < maxKbs then
    { w with kbs := Function.update w.kbs w.nKbs kb
             nKbs := w.nKbs + 1
             held := Function.update w.held kb.fd fun _ => false }
  else w

/-- What `serve_loop` does with the `i`-th keyboard when its `read` fails: it releases none of
    the keys that are pressed. -/
def closeKeyboard (i : Nat) (w : World n) : World n :=
  -- left-shift the remaining fds
  { w with kbs := Buffer.move w.kbs i (i + 1) (maxKbs - i - 1)
           nKbs := w.nKbs - 1 }

/-! ### Steps -/

/-- The keys a keyboard holds after it sent `ev`. -/
def heldAfter (held : KeyCode → Bool) (ev : InputEvent) (c : KeyCode) : Bool :=
  (keyEdge c ev).getD (held c)

/-- A keyboard presses no key it holds and releases no key it does not hold. -/
def Plays (held : KeyCode → Bool) (ev : InputEvent) : Prop := ∀ c, keyEdge c ev ≠ some (held c)

instance (held : KeyCode → Bool) (ev : InputEvent) : Decidable (Plays held ev) :=
  inferInstanceAs (Decidable (∀ _, _))

/-- After `kb` sent `ev`, which brought `serve_loop` to `loop`. -/
def World.afterRead (w : World n) (kb : Keyboard n) (ev : InputEvent) (loop : ServeState n) :
    World n :=
  { w with loop := loop
           held := Function.update w.held kb.fd (heldAfter (w.held kb.fd) ev) }

theorem World.afterRead_held (w : World n) (kb : Keyboard n) (ev : InputEvent)
    (loop : ServeState n) : (w.afterRead kb ev loop).held kb.fd = heldAfter (w.held kb.fd) ev :=
  Function.update_self _ _ _

theorem World.afterRead_held_of_ne (w : World n) {kb : Keyboard n} {fd : Fd} (h : fd ≠ kb.fd)
    (ev : InputEvent) (loop : ServeState n) : (w.afterRead kb ev loop).held fd = w.held fd :=
  Function.update_of_ne h _ _

/-- What happens at the devices. -/
inductive KeyboardInput (n : Nat) where
  /-- a keyboard is plugged in and opened as `kb.fd` -/
  | plug (kb : Keyboard n)
  /-- `read` of the `i`-th keyboard fails -/
  | unplug (i : Nat)
  /-- `read` of the `i`-th keyboard returns an event -/
  | read (i : Nat) (r : Reading)

/-- What the program did, and what a keyboard held that it closed. -/
inductive KeyboardEffect (n : Nat) where
  | closed (kb : Keyboard n) (held : KeyCode → Bool)
  | loop (x : Fin n × Effect)

/-- What `serve_loop` does about it. -/
def handleInput : KeyboardInput n → World n → Except Abort (World n × List (KeyboardEffect n))
  | .plug kb, w => .ok (openInput kb w, [])
  | .unplug i, w => .ok (closeKeyboard i w, [.closed (w.kbs i) (w.held (w.kbs i).fd)])
  | .read i r, w => do
    let (loop, log) ← serveStep ⟨r, (w.kbs i).grab⟩ w.loop
    .ok (w.afterRead (w.kbs i) r.ev loop, log.map .loop)

/-- What keyboards and the operating system promise: an open descriptor is not given out a
    second time, and a connected keyboard sends what it can. -/
def Physical (w : World n) : KeyboardInput n → Prop
  | .plug kb => kb.fd ∉ w.connected.map Keyboard.fd
  | .unplug i => i < w.nKbs
  | .read i r => i < w.nKbs ∧ Plays (w.held (w.kbs i).fd) r.ev

instance (w : World n) : DecidablePred (Physical w)
  | .plug kb => inferInstanceAs (Decidable (kb.fd ∉ w.connected.map Keyboard.fd))
  | .unplug i => inferInstanceAs (Decidable (i < w.nKbs))
  | .read i r => inferInstanceAs (Decidable (i < w.nKbs ∧ Plays (w.held (w.kbs i).fd) r.ev))

/-- Something else happened than was promised, or the program stopped. -/
inductive WorldAbort where
  | notPhysical
  | program (a : Abort)
deriving DecidableEq

/-- One step. -/
def keyboardStep (i : KeyboardInput n) (w : World n) :
    Except WorldAbort (World n × List (KeyboardEffect n)) :=
  if Physical w i then (handleInput i w).mapError .program else .error .notPhysical

/-- A run of `serve_loop` with its keyboards. -/
def runKeyboards (kbs : Nat → Keyboard n) (roots : Fin n → KeyAction)
    (inputs : List (KeyboardInput n)) :
    Except WorldAbort (World n × List (KeyboardEffect n)) :=
  Steps.run keyboardStep inputs (worldInit kbs roots)

/-- Key events have codes below `KEY_MAX`. -/
def KeyboardInput.InRange : KeyboardInput n → Prop
  | .read _ r => CodeInRange r.ev
  | _ => True

instance : DecidablePred (KeyboardInput.InRange (n := n))
  | .plug _ => .isTrue trivial
  | .unplug _ => .isTrue trivial
  | .read _ r => inferInstanceAs (Decidable (CodeInRange r.ev))

/-! ### Holders and losses -/

/-- The keyboard belongs to grab `g` and holds `c`. -/
def holdsKey (g : Fin n) (c : KeyCode) (held : Fd → KeyCode → Bool) (kb : Keyboard n) : Bool :=
  decide (kb.grab = g) && held kb.fd c

/-- The number of connected keyboards of grab `g` that hold `c`. -/
def World.holders (w : World n) (g : Fin n) (c : KeyCode) : Nat :=
  w.connected.countP (holdsKey g c w.held)

/-- A keyboard of grab `g` was closed while it held `c`. -/
def isLoss (g : Fin n) (c : KeyCode) : KeyboardEffect n → Bool
  | .closed kb held => decide (kb.grab = g) && held c
  | .loop _ => false

/-- How often a keyboard of grab `g` was closed while it held `c`. -/
def lost (g : Fin n) (c : KeyCode) (log : List (KeyboardEffect n)) : Nat :=
  log.countP (isLoss g c)

theorem lost_eq_zero {g : Fin n} {c : KeyCode} {log : List (KeyboardEffect n)} :
    lost g c log = 0 ↔ ∀ kb held, .closed kb held ∈ log → kb.grab = g → held c = false := by
  rw [lost, List.countP_eq_zero]
  constructor
  · intro h kb held hmem hg
    have hno := h _ hmem
    simpa [isLoss, hg] using hno
  · intro h x hx
    cases x with
    | closed kb held =>
      intro hloss
      obtain ⟨hg, hc⟩ : kb.grab = g ∧ held c = true := by simpa [isLoss] using hloss
      have hfalse := h kb held hx hg
      rw [hfalse] at hc
      exact Bool.false_ne_true hc
    | loop _ => exact Bool.false_ne_true

theorem lost_append (g : Fin n) (c : KeyCode) (l₁ l₂ : List (KeyboardEffect n)) :
    lost g c (l₁ ++ l₂) = lost g c l₁ + lost g c l₂ := List.countP_append

theorem lost_loop (g : Fin n) (c : KeyCode) (l : List (Fin n × Effect)) :
    lost g c (l.map .loop) = 0 := by
  rw [lost, List.countP_eq_zero]
  intro x hx
  obtain ⟨y, _, rfl⟩ := List.mem_map.mp hx
  exact Bool.false_ne_true

/-! ### What an event does to the counts -/

/-- The event arrives in the queue exactly if the input filter lets it through, and nothing but
    the filter changes the counts. -/
theorem serveEvent_filter {clk : Nat → Timeval} {ev : InputEvent} {r r' : Resolver}
    {l : List Effect} (hr : r.InBounds) (h : serveEvent clk ev r = .ok (r', l)) :
    ∃ pass s, resolveDedupInput r.toKeyState ev = .ok (pass, s) ∧
      r'.inputCounts = s.inputCounts ∧ arrivals l = if pass then [ev] else [] := by
  have hplain := serveEvent_plain clk ev hr
  rw [h] at hplain
  have hevent : plainEvent earlyRelease (some urMax) clk ev r.plain = .ok (r'.plain, l) :=
    hplain.symm
  obtain ⟨pass, s, hdedup, hcase⟩ := plainEvent_cases hevent
  refine ⟨pass, s, hdedup, ?_⟩
  rcases hcase with ⟨rfl, hp, rfl⟩ | ⟨l', rfl, rfl, hloop⟩
  · have hcounts : r'.plain.inputCounts = s.inputCounts := by rw [hp]
    exact ⟨hcounts, rfl⟩
  · -- no call of `resolve` queues an event or changes a count
    have hkeep : ∀ now again log p p' l,
        p.inputCounts = s.inputCounts ∧ arrivals log = [] →
        plainResolve earlyRelease now p = .ok (again, p', l) →
        p'.inputCounts = s.inputCounts ∧ arrivals (log ++ l) = [] := by
      intro now again log p p' l hp hstep
      obtain ⟨hnone, hsame⟩ := plainResolve_arrivals hstep
      refine ⟨hsame.trans hp.1, ?_⟩
      rw [arrivals_append, hp.2, hnone]
      rfl
    obtain ⟨hcounts, hnone⟩ := Steps.loop_inv (fun log (p : PlainResolver) =>
      p.inputCounts = s.inputCounts ∧ arrivals log = []) hkeep [] ⟨rfl, rfl⟩ hloop
    rw [List.nil_append] at hnone
    refine ⟨hcounts, ?_⟩
    show ev :: arrivals l' = [ev]
    rw [hnone]

/-- One event: the counts of its grab move by its edges, those of the other grabs stay, and it
    arrives if it is a press at count 0 or a release at count 1. -/
theorem serveStep_filter {i : Reading} {j : Fin n} {s s' : ServeState n}
    {l : List (Fin n × Effect)} (hs : (s.resolvers j).InBounds)
    (h : serveStep ⟨i, j⟩ s = .ok (s', l)) :
    (∀ g, g ≠ j → s'.resolvers g = s.resolvers g) ∧
    ∃ pass, (∀ g ev, (g, .arrive ev) ∈ l ↔ g = j ∧ ev = i.ev ∧ pass = true) ∧
      ∀ c, (s'.resolvers j).inputCounts c = (keyEdge c i.ev).elim
          ((s.resolvers j).inputCounts c) (countStep ((s.resolvers j).inputCounts c)) ∧
        ∀ e, keyEdge c i.ev = some e →
          pass = decide ((s.resolvers j).inputCounts c = if e then 0 else 1) := by
  obtain ⟨r, log, d, out, hr, _, rfl, rfl⟩ := serveStep_ok h
  obtain ⟨pass, t, hdedup, hcounts, harr⟩ := serveEvent_filter hs hr
  refine ⟨fun g hg => Function.update_of_ne hg _ _, pass, fun g ev => ?_, fun c => ?_⟩
  · have hmem : (g, Effect.arrive ev) ∈ log.map (Prod.mk j) ↔ g = j ∧ ev ∈ arrivals log := by
      rw [mem_arrivals, List.mem_map]
      constructor
      · rintro ⟨x, hx, heq⟩
        obtain ⟨rfl, rfl⟩ := Prod.mk.inj heq
        exact ⟨rfl, hx⟩
      · rintro ⟨rfl, hx⟩
        exact ⟨_, hx, rfl⟩
    rw [hmem, harr]
    cases pass with
    | true => simp
    | false => simp
  · simp only [Function.update_self, hcounts]
    exact resolveDedupInput_counts hdedup c

/-! ### The invariant -/

/-- The keyboards are open at different descriptors and fit in the array, and each count is the
    number of keyboards that hold the key and of those that held it when they were closed. -/
structure Counted (P : DualConfig → Prop) (log : List (KeyboardEffect n)) (w : World n) :
    Prop where
  ready : ServeReady P w.loop
  room : w.nKbs ≤ maxKbs
  fds : (w.connected.map Keyboard.fd).Nodup
  counts : ∀ g c, (w.loop.resolvers g).inputCounts c = ((w.holders g c + lost g c log : Nat) : Int)

section Kept

variable {P : DualConfig → Prop} {log : List (KeyboardEffect n)} {w : World n}

/-- The `i`-th keyboard is connected. -/
theorem World.getElem_connected (w : World n) {i : Nat} (hi : i < w.connected.length) :
    w.connected[i] = w.kbs i := by
  have hget : w.connected[i]? = some (w.kbs i) := by
    have hlt : i < w.nKbs := by simpa [World.connected] using hi
    rw [World.connected, Buffer.getElem?_slice, if_pos hlt, Nat.zero_add]
  rw [List.getElem?_eq_getElem hi] at hget
  exact Option.some.inj hget

theorem counted_init (kbs : Nat → Keyboard n) {roots : Fin n → KeyAction}
    (hmap : ∀ g, (roots g).isMap = true) (hroots : ∀ g, (roots g).Usable P) :
    Counted P [] (worldInit kbs roots) where
  ready := serveInit_ready hmap hroots
  room := Nat.zero_le _
  fds := List.nodup_nil
  counts _ _ := rfl

/-- **Plugged in.** A keyboard that holds nothing changes no count and no number of holders. -/
theorem Counted.plug (h : Counted P log w) {kb : Keyboard n}
    (hfd : kb.fd ∉ w.connected.map Keyboard.fd) : Counted P log (openInput kb w) := by
  unfold openInput
  by_cases hroom : w.nKbs < maxKbs
  · rw [if_pos hroom]
    have hpush := Buffer.slice_push w.kbs w.nKbs kb
    refine ⟨h.ready, hroom, ?_, fun g c => ?_⟩
    · show ((Buffer.slice (Function.update w.kbs w.nKbs kb) 0 (w.nKbs + 1)).map _).Nodup
      rw [hpush, List.map_append, List.nodup_append_comm]
      exact List.nodup_cons.mpr ⟨hfd, h.fds⟩
    · rw [h.counts g c]
      congr 2
      show _ = List.countP _ (Buffer.slice (Function.update w.kbs w.nKbs kb) 0 (w.nKbs + 1))
      rw [hpush, List.countP_append]
      have hnew : [kb].countP (holdsKey g c (Function.update w.held kb.fd fun _ => false)) = 0 := by
        simp [holdsKey]
      have hold : w.connected.countP (holdsKey g c (Function.update w.held kb.fd fun _ => false))
          = w.connected.countP (holdsKey g c w.held) := by
        apply List.countP_congr
        intro x hx
        have hne : x.fd ≠ kb.fd := by
          intro heq
          exact hfd (heq ▸ List.mem_map_of_mem hx)
        rw [holdsKey, holdsKey, Function.update_of_ne hne]
      rw [hnew, add_zero]
      exact hold.symm
  · rw [if_neg hroom]
    exact h

/-- **Unplugged.** What the keyboard held is no longer held and never given back. -/
theorem Counted.unplug (h : Counted P log w) {i : Nat} (hi : i < w.nKbs) :
    Counted P (log ++ [.closed (w.kbs i) (w.held (w.kbs i).fd)]) (closeKeyboard i w) := by
  have hlen : i < w.connected.length := by rwa [World.connected, Buffer.length_slice]
  have hrest : (closeKeyboard i w).connected = w.connected.eraseIdx i := by
    have hroom := h.room
    exact Buffer.slice_close w.kbs hi (by omega)
  refine ⟨h.ready, (Nat.sub_le _ _).trans h.room, ?_, fun g c => ?_⟩
  · rw [hrest]
    exact h.fds.sublist ((List.eraseIdx_sublist _ _).map _)
  · have hsplit := Counter.countP_eraseIdx (holdsKey g c w.held) hlen
    rw [w.getElem_connected hlen] at hsplit
    have hholders : (closeKeyboard i w).holders g c
        = (w.connected.eraseIdx i).countP (holdsKey g c w.held) := by
      rw [World.holders, hrest]
      rfl
    have hloss : lost g c [.closed (w.kbs i) (w.held (w.kbs i).fd)]
        = (holdsKey g c w.held (w.kbs i)).toNat := by
      rw [lost, List.countP_singleton]
      show (if holdsKey g c w.held (w.kbs i) = true then 1 else 0) = _
      cases holdsKey g c w.held (w.kbs i) <;> rfl
    have hcount := h.counts g c
    show (w.loop.resolvers g).inputCounts c = _
    rw [lost_append, hholders, hloss, hcount]
    unfold World.holders
    omega

/-- What `serve_loop` did when it read an event. -/
theorem handleInput_read_ok {i : Nat} {r : Reading} {w' : World n} {l : List (KeyboardEffect n)}
    (h : handleInput (.read i r) w = .ok (w', l)) :
    ∃ loop log, serveStep ⟨r, (w.kbs i).grab⟩ w.loop = .ok (loop, log) ∧
      w' = w.afterRead (w.kbs i) r.ev loop ∧ l = log.map .loop := by
  unfold handleInput at h
  obtain ⟨⟨loop, log⟩, hserve, h⟩ := Steps.bind_eq_ok.mp h
  cases h
  exact ⟨loop, log, hserve, rfl, rfl⟩

/-- The keyboard that sent the event is the only one that holds more or less than before. -/
theorem holders_afterRead (h : (w.connected.map Keyboard.fd).Nodup) {i : Nat} (hi : i < w.nKbs)
    (ev : InputEvent) (loop : ServeState n) (g : Fin n) (c : KeyCode) :
    (w.afterRead (w.kbs i) ev loop).holders g c + (holdsKey g c w.held (w.kbs i)).toNat
      = w.holders g c
        + (decide ((w.kbs i).grab = g) && heldAfter (w.held (w.kbs i).fd) ev c).toNat := by
  have hlen : i < w.connected.length := by rwa [World.connected, Buffer.length_slice]
  have hother : ∀ x : Keyboard n, x.fd ≠ w.connected[i].fd →
      holdsKey g c (w.afterRead (w.kbs i) ev loop).held x = holdsKey g c w.held x := by
    intro x hx
    rw [w.getElem_connected hlen] at hx
    rw [holdsKey, holdsKey, w.afterRead_held_of_ne hx]
  have hchange := Counter.countP_change hlen h hother
  rw [w.getElem_connected hlen] at hchange
  have hself : holdsKey g c (w.afterRead (w.kbs i) ev loop).held (w.kbs i)
      = (decide ((w.kbs i).grab = g) && heldAfter (w.held (w.kbs i).fd) ev c) := by
    rw [holdsKey, w.afterRead_held]
  rw [hself] at hchange
  exact hchange

/-- **Event.** The count of a key and the number of its holders move together. -/
theorem Counted.read (h : Counted P log w) {i : Nat} {r : Reading} {w' : World n}
    {l : List (KeyboardEffect n)} (hr : CodeInRange r.ev) (hphys : Physical w (.read i r))
    (hstep : handleInput (.read i r) w = .ok (w', l)) : Counted P (log ++ l) w' := by
  obtain ⟨hi, hplays⟩ := hphys
  obtain ⟨loop, out, hserve, rfl, rfl⟩ := handleInput_read_ok hstep
  have hready : ServeReady P loop := by
    rcases serveStep_total (i := ⟨r, (w.kbs i).grab⟩) hr h.ready with
      ⟨e, he, _⟩ | ⟨s, l, hs, hready⟩
    · exact absurd (hserve.symm.trans he) (by simp)
    · cases hserve.symm.trans hs
      exact hready
  obtain ⟨hothers, pass, _, hmoves⟩ := serveStep_filter (h.ready (w.kbs i).grab).2 hserve
  refine ⟨hready, h.room, h.fds, fun g c => ?_⟩
  have hcount := h.counts g c
  have hmove := hmoves c
  have hholders := holders_afterRead h.fds hi r.ev loop g c
  have hplay := hplays c
  show (loop.resolvers g).inputCounts c = _
  rw [lost_append, lost_loop, add_zero]
  by_cases hg : (w.kbs i).grab = g
  · subst hg
    rw [hmove.1, hcount]
    simp only [holdsKey, heldAfter, decide_true, Bool.true_and] at hholders
    cases hedge : keyEdge c r.ev with
    | none =>
      rw [hedge] at hholders
      have hsame : (w.afterRead (w.kbs i) r.ev loop).holders (w.kbs i).grab c
          = w.holders (w.kbs i).grab c := Nat.add_right_cancel hholders
      rw [hsame]
      rfl
    | some e =>
      -- the keyboard holds `c` after a press and before a release
      have hheld : w.held (w.kbs i).fd c = !e := by
        rw [hedge] at hplay
        cases e <;> simpa using hplay
      rw [hedge, hheld] at hholders
      cases e with
      | true =>
        simp only [Bool.not_true, Bool.toNat_false, Option.getD_some, Bool.toNat_true] at hholders
        show _ + 1 = _
        omega
      | false =>
        simp only [Bool.not_false, Bool.toNat_false, Option.getD_some, Bool.toNat_true]
          at hholders
        show (if _ = (0 : Int) then 0 else _ - 1) = _
        split <;> omega
  · rw [hothers g (Ne.symm hg), hcount]
    rw [holdsKey, decide_eq_false hg] at hholders
    simp only [Bool.false_and, Bool.toNat_false, add_zero] at hholders
    rw [hholders]

/-- A step is possible, and the program does not stop. -/
theorem keyboardStep_ok {i : KeyboardInput n} {w' : World n} {l : List (KeyboardEffect n)} :
    keyboardStep i w = .ok (w', l) ↔ Physical w i ∧ handleInput i w = .ok (w', l) := by
  unfold keyboardStep
  by_cases hphys : Physical w i
  · rw [if_pos hphys]
    cases handleInput i w <;> simp [hphys, Except.mapError]
  · rw [if_neg hphys]
    simp [hphys]

/-- **Step.** Whatever happens at the devices keeps the invariant. -/
theorem Counted.step (h : Counted P log w) {i : KeyboardInput n} (hi : i.InRange) {w' : World n}
    {l : List (KeyboardEffect n)} (hstep : keyboardStep i w = .ok (w', l)) :
    Counted P (log ++ l) w' := by
  obtain ⟨hphys, hstep⟩ := keyboardStep_ok.mp hstep
  cases i with
  | plug kb =>
    cases hstep
    rw [List.append_nil]
    exact h.plug hphys
  | unplug i =>
    cases hstep
    exact h.unplug hphys
  | read i r => exact h.read hi hphys hstep

/-- The program stops only when a queue overflows. -/
theorem Counted.progress (h : Counted P log w) {i : KeyboardInput n} (hi : i.InRange) :
    handleInput i w = .error .overflow ∨ ∃ w' l, handleInput i w = .ok (w', l) := by
  cases i with
  | plug kb => exact .inr ⟨_, _, rfl⟩
  | unplug i => exact .inr ⟨_, _, rfl⟩
  | read i r =>
    rcases serveStep_total (i := ⟨r, (w.kbs i).grab⟩) hi h.ready with ⟨e, he, rfl⟩ | ⟨s, l, hs, _⟩
    · refine .inl ?_
      simp [handleInput, he, bind, Except.bind]
    · refine .inr ⟨w.afterRead (w.kbs i) r.ev s, l.map .loop, ?_⟩
      simp [handleInput, hs, bind, Except.bind]

/-- **Arrivals.** A press or release of `c` arrives exactly if no other keyboard holds `c` and
    none was closed while it held `c`. -/
theorem Counted.arrives (h : Counted P log w) {i : Nat} {r : Reading} {w' : World n}
    {l : List (KeyboardEffect n)} (hstep : handleInput (.read i r) w = .ok (w', l)) {g : Fin n}
    {ev : InputEvent} {c : KeyCode} {e : Bool} (hedge : keyEdge c ev = some e) :
    .loop (g, .arrive ev) ∈ l ↔ g = (w.kbs i).grab ∧ ev = r.ev ∧
      w.holders g c + lost g c log = if e then 0 else 1 := by
  obtain ⟨loop, out, hserve, _, rfl⟩ := handleInput_read_ok hstep
  obtain ⟨_, pass, harrive, hmoves⟩ := serveStep_filter (h.ready (w.kbs i).grab).2 hserve
  have hmem : KeyboardEffect.loop (g, .arrive ev) ∈ out.map .loop ↔ (g, .arrive ev) ∈ out := by
    rw [List.mem_map]
    constructor
    · rintro ⟨x, hx, heq⟩
      exact KeyboardEffect.loop.inj heq ▸ hx
    · intro hx
      exact ⟨_, hx, rfl⟩
  have hmeets : ev = r.ev → (pass = true ↔
      w.holders (w.kbs i).grab c + lost (w.kbs i).grab c log = if e then 0 else 1) := by
    rintro rfl
    have hpass := (hmoves c).2 e hedge
    rw [hpass, h.counts (w.kbs i).grab c, decide_eq_true_eq]
    cases e with
    | true =>
      simp only [if_true]
      omega
    | false =>
      simp only [Bool.false_eq_true, if_false]
      omega
  rw [hmem, harrive]
  constructor
  · rintro ⟨rfl, hev, hpass⟩
    exact ⟨rfl, hev, (hmeets hev).mp hpass⟩
  · rintro ⟨rfl, hev, hsum⟩
    exact ⟨rfl, hev, (hmeets hev).mpr hsum⟩

/-- A key that enters was never lost. -/
theorem Counted.lost_of_arrives (h : Counted P log w) {i : Nat} {r : Reading} {w' : World n}
    {l : List (KeyboardEffect n)} (hphys : Physical w (.read i r))
    (hstep : handleInput (.read i r) w = .ok (w', l)) {g : Fin n} {ev : InputEvent} {c : KeyCode}
    (hmem : .loop (g, .arrive ev) ∈ l) (hedge : keyEdge c ev ≠ none) : lost g c log = 0 := by
  obtain ⟨e, he⟩ := Option.ne_none_iff_exists'.mp hedge
  obtain ⟨rfl, rfl, hsum⟩ := (h.arrives hstep he).mp hmem
  obtain ⟨hi, hplays⟩ := hphys
  cases e with
  | true =>
    simp only [if_true] at hsum
    omega
  | false =>
    -- the keyboard that sent the release holds the key
    have hheld : w.held (w.kbs i).fd c = true := by
      have hplay := hplays c
      rw [he] at hplay
      simpa using hplay
    have hlen : i < w.connected.length := by rwa [World.connected, Buffer.length_slice]
    have hone : 0 < w.holders (w.kbs i).grab c := by
      refine List.countP_pos_iff.mpr ⟨w.connected[i], List.getElem_mem hlen, ?_⟩
      rw [w.getElem_connected hlen, holdsKey, hheld]
      simp
    simp only [Bool.false_eq_true, if_false] at hsum
    omega

end Kept

/-- A run stops only where the devices break a promise or a queue overflows; everywhere else
    the invariant holds. -/
theorem runKeyboards_counted {P : DualConfig → Prop} (kbs : Nat → Keyboard n)
    {roots : Fin n → KeyAction} (hmap : ∀ g, (roots g).isMap = true)
    (hroots : ∀ g, (roots g).Usable P) {inputs : List (KeyboardInput n)}
    (hin : ∀ i ∈ inputs, i.InRange) :
    (∃ e, runKeyboards kbs roots inputs = .error e ∧
      (e = .notPhysical ∨ e = .program .overflow)) ∨
    ∃ w log, runKeyboards kbs roots inputs = .ok (w, log) ∧ Counted P log w := by
  have hinit : Counted P [] (worldInit kbs roots) := counted_init kbs hmap hroots
  have hprogress : ∀ i ∈ inputs, ∀ w, (∃ log, Counted P log w) →
      (∃ e, keyboardStep i w = .error e ∧ (e = .notPhysical ∨ e = .program .overflow)) ∨
      ∃ w' l, keyboardStep i w = .ok (w', l) ∧ ∃ log, Counted P log w' := by
    rintro i hi w ⟨log, h⟩
    by_cases hphys : Physical w i
    · rcases h.progress (hin i hi) with hstop | ⟨w', l, hstep⟩
      · refine .inl ⟨_, ?_, .inr rfl⟩
        rw [keyboardStep, if_pos hphys, hstop]
        rfl
      · have hok := keyboardStep_ok.mpr ⟨hphys, hstep⟩
        exact .inr ⟨w', l, hok, log ++ l, h.step (hin i hi) hok⟩
    · exact .inl ⟨_, if_neg hphys, .inl rfl⟩
  rcases Steps.run_progress (fun w => ∃ log, Counted P log w) _ hprogress ⟨[], hinit⟩ with
    hstop | ⟨w, log, hrun, _⟩
  · exact .inl hstop
  · refine .inr ⟨w, log, hrun, ?_⟩
    exact Steps.run_inv (Counted P) (fun i hi _ _ _ _ hw hstep => hw.step (hin i hi) hstep)
      hinit hrun

/-! ### The logical OR of the keyboards -/

/-- A press of `c` by a keyboard of grab `g` enters the resolver exactly if no keyboard of the
    grab holds `c`. -/
def FirstEnters (w : World n) (g : Fin n) (c : KeyCode) : Prop :=
  ∀ i r, Physical w (.read i r) → (w.kbs i).grab = g → keyEdge c r.ev = some true →
    handleInput (.read i r) w = .error .overflow ∨
    ∃ w' l, handleInput (.read i r) w = .ok (w', l) ∧
      (.loop (g, .arrive r.ev) ∈ l ↔ w.holders g c = 0)

theorem codeInRange_of_edge {ev : InputEvent} {c : KeyCode} {e : Bool}
    (hedge : keyEdge c ev = some e) : CodeInRange ev := by
  intro _
  have hcode : ev.code = codeOf c := by
    by_contra hne
    rw [keyEdge_of_code_ne hne] at hedge
    exact absurd hedge (by simp)
  rw [hcode, codeOf_toNat]
  exact c.isLt

theorem Counted.firstEnters {P : DualConfig → Prop} {log : List (KeyboardEffect n)} {w : World n}
    (h : Counted P log w) {g : Fin n} {c : KeyCode} (hlost : lost g c log = 0) :
    FirstEnters w g c := by
  rintro i r _ rfl hedge
  rcases h.progress (i := .read i r) (codeInRange_of_edge hedge) with hstop | ⟨w', l, hstep⟩
  · exact .inl hstop
  · refine .inr ⟨w', l, hstep, ?_⟩
    rw [h.arrives hstep hedge, hlost, add_zero]
    constructor
    · rintro ⟨_, _, hnone⟩
      exact hnone
    · intro hnone
      exact ⟨rfl, rfl, hnone⟩

/-- **Logical OR.** For any keyboards that are plugged in, unplugged and played in any order,
    unless the queue of a grab overflows: the count of `c` is the number of connected keyboards
    of the grab that hold `c`, and a press of `c` enters the resolver exactly if no connected
    keyboard holds `c`, if and only if no keyboard of the grab was unplugged while it held
    `c`. -/
theorem input_counts_or (keymaps : Fin n → Keymap) (kbs : Nat → Keyboard n)
    (inputs : List (KeyboardInput n)) (hin : ∀ i ∈ inputs, i.InRange) :
    (∃ e, runKeyboards kbs (fun g => (keymaps g).root) inputs = .error e ∧
      (e = .notPhysical ∨ e = .program .overflow)) ∨
    ∃ w log, runKeyboards kbs (fun g => (keymaps g).root) inputs = .ok (w, log) ∧
      ∀ g c, ((w.loop.resolvers g).inputCounts c = w.holders g c ∧ FirstEnters w g c) ↔
        ∀ kb held, .closed kb held ∈ log → kb.grab = g → held c = false := by
  have hroots : ∀ g, (keymaps g).root.Usable fun _ => True := fun g =>
    (keymaps g).root_usable_true
  rcases runKeyboards_counted kbs (fun _ => rfl) hroots hin with hstop | ⟨w, log, hrun, hcounted⟩
  · exact .inl hstop
  refine .inr ⟨w, log, hrun, fun g c => ?_⟩
  rw [← lost_eq_zero]
  constructor
  · rintro ⟨hcount, _⟩
    rw [hcounted.counts g c] at hcount
    omega
  · intro hlost
    refine ⟨?_, hcounted.firstEnters hlost⟩
    rw [hcounted.counts g c, hlost, add_zero]

/-- A keyboard that holds key 31 is unplugged while another one holds key 30. -/
def unpluggedHolding31 : List (KeyboardInput 1) :=
  [.plug ⟨3, soleGrab⟩, .plug ⟨4, soleGrab⟩, .read 0 (keyAt 0 30 1), .read 1 (keyAt 10 30 1),
    .read 0 (keyAt 20 30 0), .read 0 (keyAt 30 31 1), .unplug 0]

/-- Afterwards key 30 is counted as it is held and key 31 is not. -/
theorem input_counts_or_unplugged :
    ∃ w log, runKeyboards (fun _ => ⟨0, 0⟩) (fun _ : Fin 1 => (shiftOn45 .tapOnRollover).root)
        unpluggedHolding31 = .ok (w, log) ∧
      ((w.loop.resolvers 0).inputCounts 30 = w.holders 0 30 ∧ FirstEnters w 0 30) ∧
      ¬ ((w.loop.resolvers 0).inputCounts 31 = w.holders 0 31 ∧ FirstEnters w 0 31) := by
  have hrun : (runKeyboards (fun _ => ⟨0, 0⟩)
      (fun _ : Fin 1 => (shiftOn45 .tapOnRollover).root) unpluggedHolding31).map
      (fun x => decide (lost 0 30 x.2 = 0 ∧ lost 0 31 x.2 ≠ 0)) = .ok true := by
    decide +kernel
  obtain ⟨⟨w, log⟩, hok, hlost⟩ := Steps.map_eq_ok hrun
  obtain ⟨h30, h31⟩ : lost 0 30 log = 0 ∧ lost 0 31 log ≠ 0 := of_decide_eq_true hlost
  rcases input_counts_or (fun _ => shiftOn45 .tapOnRollover) (fun _ => ⟨0, 0⟩)
    unpluggedHolding31 (by decide) with ⟨e, he, _⟩ | ⟨w', log', h, hor⟩
  · exact absurd (he.symm.trans hok) (by simp)
  · cases h.symm.trans hok
    refine ⟨w, log, hok, (hor 0 30).mpr (lost_eq_zero.mp h30), fun hboth => ?_⟩
    exact h31 (lost_eq_zero.mpr ((hor 0 31).mp hboth))

/-- A keyboard is unplugged while it holds key 30, and another one is plugged in: no keyboard
    holds key 30, but its count is 1 and its next press does not enter the resolver. -/
theorem unplugged_key_silenced :
    ∃ w log w', runKeyboards (fun _ => ⟨0, 0⟩)
        (fun _ : Fin 1 => (shiftOn45 .tapOnRollover).root)
        [.plug ⟨3, 0⟩, .read 0 (keyAt 0 30 1), .unplug 0, .plug ⟨4, 0⟩] = .ok (w, log) ∧
      w.holders 0 30 = 0 ∧ (w.loop.resolvers 0).inputCounts 30 = 1 ∧
      Physical w (.read 0 (keyAt 500 30 1)) ∧
      handleInput (.read 0 (keyAt 500 30 1)) w = .ok (w', []) := by
  have hrun : (runKeyboards (fun _ => ⟨0, 0⟩)
      (fun _ : Fin 1 => (shiftOn45 .tapOnRollover).root)
      [.plug ⟨3, 0⟩, .read 0 (keyAt 0 30 1), .unplug 0, .plug ⟨4, 0⟩]).map
      (fun x => decide (x.1.holders 0 30 = 0 ∧ (x.1.loop.resolvers 0).inputCounts 30 = 1 ∧
        Physical x.1 (.read 0 (keyAt 500 30 1)) ∧
        ((handleInput (.read 0 (keyAt 500 30 1)) x.1).map fun y => y.2.length) = .ok 0)) =
      .ok true := by
    decide +kernel
  obtain ⟨⟨w, log⟩, hok, hend⟩ := Steps.map_eq_ok hrun
  obtain ⟨hup, hcount, hphys, hdropped⟩ := of_decide_eq_true hend
  obtain ⟨⟨w', l⟩, hstep, hlen⟩ := Steps.map_eq_ok hdropped
  obtain rfl : l = [] := List.eq_nil_of_length_eq_zero hlen
  exact ⟨w, log, w', hok, hup, hcount, hphys, hstep⟩

/-! ### A lost key stays silent -/

/-- If a press or release of a key enters the resolver, no keyboard of the grab was closed
    before while it held the key. -/
def NeverLost (before : List (KeyboardEffect n)) (x : KeyboardEffect n)
    (_after : List (KeyboardEffect n)) : Prop :=
  ∀ g ev c, x = .loop (g, .arrive ev) → keyEdge c ev ≠ none → lost g c before = 0

theorem Counted.neverLost {P : DualConfig → Prop} {log : List (KeyboardEffect n)} {w w' : World n}
    (h : Counted P log w) {i : KeyboardInput n} {l : List (KeyboardEffect n)}
    (hstep : keyboardStep i w = .ok (w', l)) :
    Steps.Along (fun before => NeverLost (log ++ before)) l := by
  obtain ⟨hphys, hstep⟩ := keyboardStep_ok.mp hstep
  cases i with
  | plug kb =>
    cases hstep
    exact Steps.along_nil _
  | unplug i =>
    cases hstep
    refine Steps.along_of_forall fun x hx _ _ g ev c heq _ => ?_
    rw [List.mem_singleton.mp hx] at heq
    exact absurd heq (by simp)
  | read i r =>
    rintro l₁ x l₂ heq g ev c rfl hedge
    have hzero : lost g c log = 0 :=
      h.lost_of_arrives hphys hstep (by rw [heq]; simp) hedge
    -- nothing is closed between the arrival and the start of the step
    obtain ⟨_, out, _, _, rfl⟩ := handleInput_read_ok hstep
    obtain ⟨out₁, _, _, hout₁, _⟩ := List.map_eq_append_iff.mp heq
    rw [lost_append, hzero, ← hout₁, lost_loop]

/-- **Silence.** In every run, once a keyboard of a grab was unplugged while it held a key, no
    press or release of the key enters the resolver of the grab. -/
theorem entered_only_before_loss {keymaps : Fin n → Keymap} {kbs : Nat → Keyboard n}
    {inputs : List (KeyboardInput n)} (hin : ∀ i ∈ inputs, i.InRange) {w : World n}
    {log : List (KeyboardEffect n)}
    (hrun : runKeyboards kbs (fun g => (keymaps g).root) inputs = .ok (w, log)) :
    Steps.Along NeverLost log := by
  have hroots : ∀ g, (keymaps g).root.Usable fun _ => True := fun g =>
    (keymaps g).root_usable_true
  have hinit : Counted (fun _ => True) [] (worldInit kbs fun g => (keymaps g).root) :=
    counted_init kbs (fun _ => rfl) hroots
  have hboth : Counted (fun _ => True) log w ∧ Steps.Along NeverLost log := by
    refine Steps.run_inv (fun log w => Counted (fun _ => True) log w ∧ Steps.Along NeverLost log)
      ?_ ⟨hinit, Steps.along_nil _⟩ hrun
    rintro i hi log w w' l ⟨hw, hlog⟩ hstep
    exact ⟨hw.step (hin i hi) hstep, hlog.append (fun _ _ _ _ hx => hx) (hw.neverLost hstep)⟩
  exact hboth.2

end Sdiol
