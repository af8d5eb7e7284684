import Sdiol.Config
import Sdiol.Lib.RingBuffer
import Sdiol.Lib.Steps

namespace Sdiol

/-!
# The resolver

`resolver.c`, function by function.  `struct resolver` is split in two: `KeyState` holds
everything but the queue of unresolved events, and `Resolver` adds the ring
`(unresolved, ur_start, ur_len)`.  Only `resolve` and the code that appends an event touch
the ring; the functions below it read and write a `KeyState`, and `check_waveform` is given
the events queued behind the head.

Every function that acts returns, beside the new state, the list of `Effect`s of the call in
program order: the calls of `r->send`, and the facts that properties of whole runs speak
about (an event was queued, `check_waveform` answered, `do_keypress` was called, a release
was taken from the queue).  Nothing the code does depends on these.

`timeval_now()` is an input: `resolve` consults the clock at most once, so it takes the
reading as an argument.
-/

/-! ### State and effects -/

/-- `last_tap_code` and `last_tap_time` -/
structure LastTap where
  code : Int
  time : Timeval

/-- `struct resolver` without `send`, `send_data` and the queue. -/
structure KeyState where
  inputCounts : KeyCode → Int
  releaseMap : KeyCode → UInt16
  resolvableTime : Timeval
  useResolvableTime : Bool
  rootKeymap : KeyAction
  currentKeymap : KeyAction
  lastTap : LastTap

/-- `struct resolver`, without `send` and `send_data`. -/
structure Resolver extends KeyState where
  unresolved : Nat → InputEvent
  urStart : Nat
  urLen : Nat

/-- `enum waveform` -/
inductive Waveform where
  | tap
  | hold
  | noneYet
deriving DecidableEq

/-- What a call does, in program order. -/
inductive Effect where
  /-- `serve_loop` appended the event to `unresolved` -/
  | arrive (ev : InputEvent)
  /-- `check_waveform` was asked about the press `ev` with the last tap `t` and answered `w` -/
  | checked (ev : InputEvent) (dual : DualConfig) (now : Timeval) (t : LastTap) (w : Waveform)
  /-- `do_keypress(r, ev, ka)` was called -/
  | keypress (ev : InputEvent) (ka : KeyAction)
  /-- `ev` was taken from the queue as a release, by `resolve_release` or `early`, when
      `release_map` held `code` for it -/
  | released (ev : InputEvent) (code : UInt16) (early : Bool)
  /-- `r->send(r->send_data, ev)` -/
  | send (ev : InputEvent)

/-- The part of `resolver_init` outside the queue. -/
def KeyState.init (root : KeyAction) : KeyState where
  inputCounts := fun _ => 0
  releaseMap := fun _ => 0
  resolvableTime := Timeval.zero
  useResolvableTime := false
  rootKeymap := root
  currentKeymap := root
  lastTap := ⟨0, Timeval.zero⟩

/-- `resolver_init` -/
def resolverInit (root : KeyAction) : Resolver where
  toKeyState := KeyState.init root
  unresolved := fun _ => InputEvent.zero
  urStart := 0
  urLen := 0

/-! ### Double taps -/

/-- `track_last_tap` -/
def trackLastTap (releaseEv : InputEvent) : LastTap :=
  ⟨releaseEv.code.toNat, releaseEv.time⟩

/-- `invalidate_last_tap` -/
def invalidateLastTap (t : LastTap) : LastTap := { t with code := -1 }

/-- `maybe_invalidate_last_tap` -/
def maybeInvalidateLastTap (t : LastTap) (code : UInt16) : LastTap :=
  if (code.toNat : Int) ≠ t.code then { t with code := -1 } else t

/-! ### `resolve_dedup_input` -/

/-- `resolve_dedup_input`: whether the event goes on to the queue. -/
def resolveDedupInput (s : KeyState) (ev : InputEvent) : Except Abort (Bool × KeyState) :=
  if ev.type ≠ evKey then .ok (true, s)
  else if ev.code.toNat > keyMax then .ok (true, s)
  else if ev.value = 0 then do
    let k ← keyIndex ev.code
    -- ignore non-final release of a key
    if s.inputCounts k = 0 then .ok (false, s)
    else
      let count := s.inputCounts k - 1
      .ok (decide (count = 0), { s with inputCounts := Function.update s.inputCounts k count })
  else if ev.value = 1 then do
    let k ← keyIndex ev.code
    -- ignore non-first press of a key
    let count := s.inputCounts k
    .ok (decide (count = 0),
      { s with inputCounts := Function.update s.inputCounts k (count + 1) })
  else .ok (true, s)

/-! ### `check_waveform` -/

/-- The loop of `check_waveform` over the events behind the head, with the `keys_pressed`
    collected so far. -/
def scanWaveform (mode : DualMode) (ev : InputEvent) :
    (KeyCode → Bool) → LastTap → List InputEvent → Waveform × LastTap
  | _, t, [] => (.noneYet, t)
  | keysPressed, t, ev2 :: rest =>
    -- only consider key events
    if ev2.type ≠ evKey then scanWaveform mode ev keysPressed t rest
    -- was the main key released?
    else if ev2.value = 0 ∧ ev2.code = ev.code then (.tap, trackLastTap ev2)
    -- in HOLD_ON_ROLLOVER mode, any other keypress is HOLD
    else if mode = .holdOnRollover ∧ ev2.type = evKey ∧ ev2.value = 1 then
      (.hold, invalidateLastTap t)
    else
      match asKey ev2.code with
      -- both `if`s of the source are guarded by `ev2.code < KEY_MAX`
      | none => scanWaveform mode ev keysPressed t rest
      | some k =>
        if ev2.value = 1 then
          scanWaveform mode ev (Function.update keysPressed k true) (invalidateLastTap t) rest
        else if ev2.value = 0 ∧ keysPressed k = true then (.hold, invalidateLastTap t)
        else scanWaveform mode ev keysPressed t rest

/-- `check_waveform`, given the events queued behind `ev`. -/
def checkWaveform (t : LastTap) (now : Timeval) (ev : InputEvent) (dual : DualConfig)
    (queued : List InputEvent) : Waveform × LastTap :=
  -- is the keypress old enough to be a hold?
  if msecDiff now ev.time > dual.holdMs then
    -- only on time-based holds do we check doubletap behavior
    if dual.doubleTapMs > -1 ∧ t.code = (ev.code.toNat : Int) ∧
        (dual.doubleTapMs = 0 ∨ msecDiff ev.time t.time < dual.doubleTapMs) then
      (.tap, invalidateLastTap t)
    else (.hold, invalidateLastTap t)
  -- in TIMEOUT_ONLY, we don't have to check any further
  else if dual.mode = .timeoutOnly then (.noneYet, t)
  else scanWaveform dual.mode ev (fun _ => false) t queued

/-! ### Presses and releases -/

/-- The events `do_keypress` sends for one element of a macro chain. -/
def macroSends (m : MacroEvent) : List InputEvent :=
  [⟨Timeval.zero, evKey, codeOf m.code, if m.press then 1 else 0⟩, synEvent]

/-- `do_keypress` -/
def doKeypress (s : KeyState) (ev : InputEvent) (ka : KeyAction) :
    Except Abort (KeyState × List Effect) :=
  match ka with
  | .ktDual .. => .error .dualKeypress
  | .ktNone | .ktRef _ => .error .noneKeypress
  | .ktSimple c => do
    let k ← keyIndex ev.code
    -- remember how to release the key, and send the modified key
    .ok ({ s with releaseMap := Function.update s.releaseMap k (codeOf c) },
      [.keypress ev ka, .send { ev with code := codeOf c }])
  | .ktMacro chain => .ok (s, .keypress ev ka :: (chain.flatMap macroSends).map .send)
  | .ktMap _ => do
    let k ← keyIndex ev.code
    -- set the keymap, and reset it on release
    .ok ({ s with currentKeymap := ka
                  releaseMap := Function.update s.releaseMap k resetKeymap },
      [.keypress ev ka])

/-- `resolve_press`: whether the press was resolved. -/
def resolvePress (s : KeyState) (now : Timeval) (ev : InputEvent) (queued : List InputEvent) :
    Except Abort (Bool × KeyState × List Effect) := do
  let s := { s with lastTap := maybeInvalidateLastTap s.lastTap ev.code }
  let k ← keyIndex ev.code
  let ka ← keyActionGet s.currentKeymap k
  match ka with
  | .ktMap _ | .ktMacro _ | .ktSimple _ =>
    let (s, log) ← doKeypress s ev ka
    .ok (true, s, log)
  | .ktDual tap hold dual =>
    let last := s.lastTap
    let (w, t) := checkWaveform last now ev dual queued
    let s := { s with lastTap := t }
    match w with
    | .tap =>
      let (s, log) ← doKeypress s ev tap
      .ok (true, s, .checked ev dual now last w :: log)
    | .hold =>
      let (s, log) ← doKeypress s ev hold
      .ok (true, s, .checked ev dual now last w :: log)
    | .noneYet =>
      -- wait for a timeout to resolve this event
      .ok (false,
        { s with resolvableTime := msecAfter ev.time dual.holdMs, useResolvableTime := true },
        [.checked ev dual now last w])
  | .ktNone | .ktRef _ => .error .invalidKeyAction

/-- `resolve_release` -/
def resolveRelease (s : KeyState) (ev : InputEvent) : Except Abort (KeyState × List Effect) := do
  let k ← keyIndex ev.code
  let code := s.releaseMap k
  let s := { s with releaseMap := Function.update s.releaseMap k 0 }
  if code = resetKeymap then
    .ok ({ s with currentKeymap := s.rootKeymap }, [.released ev code false])
  else if code = 0 then
    -- we must have sent this key release early; do nothing
    .ok (s, [.released ev code false])
  else .ok (s, [.released ev code false, .send { ev with code := code }])

/-- The part of `resolve` that handles the oldest event `ev`: whether it was resolved. -/
def resolveEvent (s : KeyState) (now : Timeval) (ev : InputEvent) (queued : List InputEvent) :
    Except Abort (Bool × KeyState × List Effect) :=
  if ev.type = evKey then
    if ev.code.toNat > keyMax then
      -- "Dropping too-high keycode %d"
      .ok (true, s, [])
    else if ev.value = 0 then do
      let (s, log) ← resolveRelease s ev
      .ok (true, s, log)
    else if ev.value = 1 then resolvePress s now ev queued
    else if ev.value = 2 then do
      let k ← keyIndex ev.code
      let code := s.releaseMap k
      if code ≠ 0 ∧ code ≠ resetKeymap then .ok (true, s, [.send { ev with code := code }])
      else .ok (true, s, [])
    else
      -- "dropping invalid ev.value %d in resolver"
      .ok (true, s, [])
  else if ev.type = evSyn then .ok (true, s, [.send ev])
  else
    -- other ev.types are passed through unchanged
    .ok (true, s, [.send ev])

/-- The part of `resolve` that looks at the newest event `ev` while the oldest one is
    unresolved; `some` if it takes that event from the queue. -/
def earlyRelease (s : KeyState) (ev : InputEvent) : Option (KeyState × List Effect) :=
  match asKey ev.code with
  | none => none
  | some k =>
    if ev.value = 0 then
      let code := s.releaseMap k
      if code = resetKeymap then
        -- return to root keymap
        some ({ s with currentKeymap := s.rootKeymap }, [.released ev code true])
      else if code ∈ modifierKeys then
        -- modifier keys don't get resolved early
        none
      else some (s, [.released ev code true, .send { ev with code := code }, .send synEvent])
    else none

/-! ### `resolve` -/

/-- The events behind the oldest one, in the cells `resolve` and `check_waveform` read. -/
def Resolver.queued (r : Resolver) : List InputEvent :=
  (List.range' 1 (r.urLen - 1)).map fun i => r.unresolved ((r.urStart + i) % urMax)

/-- `resolve`: whether the oldest event was resolved. -/
def resolve (now : Timeval) (r : Resolver) : Except Abort (Bool × Resolver × List Effect) :=
  if r.urLen = 0 then .ok (false, r, [])
  else do
    let ev := r.unresolved (r.urStart % urMax)
    let s := { r.toKeyState with useResolvableTime := false }
    let (resolved, s, log) ← resolveEvent s now ev r.queued
    if resolved then
      .ok (true, { r with toKeyState := s
                          urLen := r.urLen - 1
                          urStart := (r.urStart + 1) % urMax }, log)
    else
      let newest := r.unresolved ((r.urStart + r.urLen - 1) % urMax)
      match earlyRelease s newest with
      | some (s, log') => .ok (false, { r with toKeyState := s, urLen := r.urLen - 1 }, log ++ log')
      | none => .ok (false, { r with toKeyState := s }, log)

/-- `select_timeout`: how long `select` may wait, `none` for `NULL`. -/
def selectTimeout (s : KeyState) (now : Timeval) : Option Timeval :=
  -- don't pass a timeout if none is valid
  if s.useResolvableTime = false then none
  else
    let mdiff := msecDiff s.resolvableTime now
    -- somehow the timeout has expired, zero length timeout
    if mdiff < 0 then some Timeval.zero
    else some { tvSec := Int64.ofInt (mdiff.tdiv 1000)
                tvUsec := Int64.ofInt (mdiff.tmod 1000 * 1000) }

/-! ### The body of `serve_loop` for one event -/

/-- What `serve_loop` does with an event it read for the grab of `r`: filter it, append it to
    the queue and `while(resolve(r));`.  The `i`-th call of `resolve` reads the clock as
    `clk i`; one more iteration than there are events in the queue is enough. -/
def serveEvent (clk : Nat → Timeval) (ev : InputEvent) (r : Resolver) :
    Except Abort (Resolver × List Effect) := do
  let (pass, s) ← resolveDedupInput r.toKeyState ev
  let r := { r with toKeyState := s }
  if pass then
    -- avoid overflow in unresolved
    if r.urLen = urMax then .error .overflow
    else
      let r := { r with
        unresolved := Function.update r.unresolved ((r.urStart + r.urLen) % urMax) ev
        urLen := r.urLen + 1 }
      let (r, log) ← Steps.loop resolve (r.urLen + 1) clk r
      .ok (r, .arrive ev :: log)
  else .ok (r, [])

/-- An event read from a keyboard, with the clock readings while it is processed. -/
structure Reading where
  ev : InputEvent
  clk : Nat → Timeval

/-- The press (1), release (0) or repeat (2) of a key, `ms` milliseconds after time zero and
    processed at once. -/
def keyAt (ms : Nat) (k : KeyCode) (value : Int32) : Reading :=
  let now : Timeval := ⟨Int64.ofNat (ms / 1000), Int64.ofNat (ms % 1000 * 1000)⟩
  ⟨⟨now, evKey, codeOf k, value⟩, fun _ => now⟩

/-- A resolver fed one event after the other, from `resolver_init` on. -/
def runResolver (root : KeyAction) (inputs : List Reading) :
    Except Abort (Resolver × List Effect) :=
  Steps.run (fun (i : Reading) => serveEvent i.clk i.ev) inputs (resolverInit root)

end Sdiol
