import Sdiol.Event
import Sdiol.Lib.Decimal

namespace Sdiol

/-!
# The wire format

The line that `server_send_event` prints for an event: five `unsigned long`s, separated by
colons and ended by a newline.  A signed field is converted to `unsigned long` first, so a
negative one is printed as the 64-bit number it is sign-extended to.
-/

def colon : UInt8 := 58
def newline : UInt8 := 10

/-- `(unsigned long)` of the five fields, in the order they are printed. -/
def InputEvent.fields (ev : InputEvent) : List UInt64 :=
  [ev.type.toUInt64, ev.value.toInt64.toUInt64, ev.code.toUInt64, ev.time.tvSec.toUInt64,
    ev.time.tvUsec.toUInt64]

/-- Numbers separated by colons. -/
def joinFields : List UInt64 → List UInt8
  | [] => []
  | [n] => Decimal.render n.toNat
  | n :: rest => Decimal.render n.toNat ++ colon :: joinFields rest

/-- What `snprintf(buffer, sizeof(buffer), "%lu:%lu:%lu:%lu:%lu\n", …)` writes. -/
def encode (ev : InputEvent) : List UInt8 := joinFields ev.fields ++ [newline]

theorem length_joinFields (ns : List UInt64) : (joinFields ns).length ≤ 21 * ns.length := by
  induction ns with
  | nil => exact le_rfl
  | cons n rest ih =>
    have hn : (Decimal.render n.toNat).length ≤ 20 :=
      Decimal.length_render_le (by omega) (lt_trans n.toNat_lt (by decide))
    cases rest with
    | nil =>
      show (Decimal.render n.toNat).length ≤ 21
      omega
    | cons m rest =>
      show (Decimal.render n.toNat ++ colon :: joinFields (m :: rest)).length ≤ _
      rw [List.length_append, List.length_cons]
      simp only [List.length_cons] at ih ⊢
      omega

/-- A line is never cut off by the `char buffer[1024]` it is printed into. -/
theorem length_encode_lt (ev : InputEvent) : (encode ev).length < 1024 := by
  have h := length_joinFields ev.fields
  have hfive : ev.fields.length = 5 := rfl
  unfold encode
  rw [List.length_append, List.length_singleton]
  omega

theorem encode_ne_nil (ev : InputEvent) : encode ev ≠ [] := by
  simp [encode]

end Sdiol
