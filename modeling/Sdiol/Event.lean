import Mathlib

namespace Sdiol

/-!
# Input events, key codes and clock readings

The data every part of the program passes around: file descriptors, `struct input_event` with
the constants of `linux/input-event-codes.h` that the code uses, the arrays of length
`KEY_MAX` that are indexed by a key code, and the three functions of `time_util.c`.

Fixed-width fields keep their widths (`__u16 type, code`, `__s32 value`, 64-bit
`tv_sec, tv_usec`); differences of times are computed in `Int`, which agrees with C's `long`
as long as nothing overflows.
-/

/-! ### Constants -/

/-- `KEY_MAX`, the length of every per-key array. -/
def keyMax : Nat := 0x2ff

/-- `URMAX`, the capacity of the queue of unresolved events. -/
def urMax : Nat := 1024

instance : NeZero keyMax := ⟨by decide⟩

/-- An index into an array of length `KEY_MAX`. -/
abbrev KeyCode := Fin keyMax

/-- The `__u16` holding a key code. -/
def codeOf (k : KeyCode) : UInt16 := UInt16.ofNat k.val

/-- The value in `release_map` that says "reset the keymap". -/
def resetKeymap : UInt16 := UInt16.ofNat (keyMax + 1)

def evSyn : UInt16 := 0
def evKey : UInt16 := 1
def synReport : UInt16 := 0

/-- The modifier codes of `linux/input-event-codes.h`, in the order `resolve` lists them:
    left/right alt, ctrl, meta, shift. -/
def modifierKeys : List UInt16 := [56, 100, 29, 97, 125, 126, 42, 54]

@[simp] theorem codeOf_toNat (k : KeyCode) : (codeOf k).toNat = k.val := by
  have hk : k.val < 767 := k.isLt
  rw [codeOf, UInt16.toNat_ofNat']
  omega

theorem codeOf_injective : Function.Injective codeOf := by
  intro a b h
  have := congrArg UInt16.toNat h
  rw [codeOf_toNat, codeOf_toNat] at this
  exact Fin.ext this

@[simp] theorem codeOf_inj {a b : KeyCode} : codeOf a = codeOf b ↔ a = b :=
  codeOf_injective.eq_iff

theorem codeOf_ne_resetKeymap (k : KeyCode) : codeOf k ≠ resetKeymap := by
  intro h
  have := congrArg UInt16.toNat h
  rw [codeOf_toNat] at this
  have hk : k.val < 767 := k.isLt
  have hr : resetKeymap.toNat = 768 := by decide
  omega

/-! ### Events -/

/-- A file descriptor. -/
abbrev Fd := Nat

/-- `struct timeval` -/
structure Timeval where
  tvSec : Int64
  tvUsec : Int64
deriving DecidableEq

/-- `struct input_event` -/
structure InputEvent where
  time : Timeval
  type : UInt16
  code : UInt16
  value : Int32
deriving DecidableEq

/-- A zeroed `struct timeval`. -/
def Timeval.zero : Timeval := ⟨0, 0⟩

/-- The time in microseconds. -/
def Timeval.micros (tv : Timeval) : Int := tv.tvSec.toInt * 1000000 + tv.tvUsec.toInt

/-- A zeroed `struct input_event`. -/
def InputEvent.zero : InputEvent := ⟨Timeval.zero, 0, 0, 0⟩

/-- A key press, `EV_KEY` with value 1. -/
def InputEvent.isPress (ev : InputEvent) : Bool := ev.type == evKey && ev.value == 1

/-- A key release, `EV_KEY` with value 0. -/
def InputEvent.isRelease (ev : InputEvent) : Bool := ev.type == evKey && ev.value == 0

theorem InputEvent.isPress_iff {ev : InputEvent} :
    ev.isPress = true ↔ ev.type = evKey ∧ ev.value = 1 := by
  simp [isPress]

theorem InputEvent.isRelease_iff {ev : InputEvent} :
    ev.isRelease = true ↔ ev.type = evKey ∧ ev.value = 0 := by
  simp [isRelease]

/-- The `EV_SYN` the program generates itself. -/
def synEvent : InputEvent := ⟨Timeval.zero, evSyn, synReport, 0⟩

/-! ### What stops the program, and indexing -/

/-- The ways a run ends early: the `exit(1)` branches with their messages, and the accesses
    C leaves undefined. -/
inductive Abort where
  /-- an index at or beyond the end of an array of length `KEY_MAX` -/
  | outOfBounds
  /-- following a `key.ref` that is `NULL` -/
  | nullDereference
  /-- "can't call do_keypress() on a dual-mode key" -/
  | dualKeypress
  /-- "can't call do_keypress() on a none-type key" -/
  | noneKeypress
  /-- "invalid key action in resolver" -/
  | invalidKeyAction
  /-- "detected probable infinite recursion in keymap" -/
  | infiniteRecursion
  /-- "overflow!" -/
  | overflow
deriving DecidableEq

/-- A code as an index, when it is below `KEY_MAX`. -/
def asKey (code : UInt16) : Option KeyCode :=
  if h : code.toNat < keyMax then some ⟨code.toNat, h⟩ else none

/-- The index `code` into an array of length `KEY_MAX`. -/
def keyIndex (code : UInt16) : Except Abort KeyCode :=
  match asKey code with
  | some k => .ok k
  | none   => .error .outOfBounds

theorem asKey_eq_some {code : UInt16} {k : KeyCode} : asKey code = some k ↔ code = codeOf k := by
  constructor
  · intro h
    unfold asKey at h
    split at h
    · cases h
      apply UInt16.toNat_inj.mp
      rw [codeOf_toNat]
    · exact absurd h (by simp)
  · rintro rfl
    simp [asKey]

@[simp] theorem asKey_codeOf (k : KeyCode) : asKey (codeOf k) = some k :=
  asKey_eq_some.mpr rfl

theorem keyIndex_ok {code : UInt16} {k : KeyCode} : keyIndex code = .ok k ↔ code = codeOf k := by
  unfold keyIndex
  rw [← asKey_eq_some]
  split <;> simp_all

@[simp] theorem keyIndex_codeOf (k : KeyCode) : keyIndex (codeOf k) = .ok k :=
  keyIndex_ok.mpr rfl

/-- A code below `KEY_MAX` is the code of a key. -/
theorem exists_codeOf {code : UInt16} (h : code.toNat < keyMax) : ∃ k, code = codeOf k :=
  ⟨⟨code.toNat, h⟩, UInt16.toNat_inj.mp (by rw [codeOf_toNat])⟩

/-! ### `time_util.c` -/

/-- `msec_diff`: the difference `a - b` in milliseconds, each microsecond count truncated
    first. -/
def msecDiff (a b : Timeval) : Int :=
  let diff := a.tvUsec.toInt.tdiv 1000 - b.tvUsec.toInt.tdiv 1000
  diff + (a.tvSec.toInt - b.tvSec.toInt) * 1000

/-- `timeval_diff`: the difference `a - b`, with nonnegative microseconds. -/
def timevalDiff (a b : Timeval) : Timeval :=
  let usecDiff := a.tvUsec.toInt - b.tvUsec.toInt
  let usecMod := usecDiff.tmod 1000000
  let usecMod := if usecMod < 0 then usecMod + 1000000 else usecMod
  { tvSec := Int64.ofInt (a.tvSec.toInt - b.tvSec.toInt + (usecDiff - usecMod).tdiv 1000000)
    tvUsec := Int64.ofInt usecMod }

/-- `msec_after`: the time `millis` milliseconds after `tv`. -/
def msecAfter (tv : Timeval) (millis : Int) : Timeval :=
  let sec := tv.tvSec.toInt + millis.tdiv 1000
  let msec := millis.tmod 1000 + tv.tvUsec.toInt.tdiv 1000
  -- the carry of the source: one second more when `msec > 1000`
  { tvSec := Int64.ofInt (sec + if msec > 1000 then 1 else 0)
    tvUsec := Int64.ofInt (tv.tvUsec.toInt.tmod 1000 + msec.tmod 1000 * 1000) }

end Sdiol
