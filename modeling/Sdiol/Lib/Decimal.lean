import Mathlib

namespace Decimal

/-!
# Decimal numbers in ASCII

`render` writes a number the way `printf` does with `%lu`; `value` reads a list of digits.
`value_render` is the round trip, `isDigit_render` says that only digits are written, and
`length_render_le` how many.
-/

/-- `b` is one of `0` to `9`. -/
def isDigit (b : UInt8) : Bool := decide (48 ≤ b.toNat ∧ b.toNat ≤ 57)

/-- The digits of `n`, most significant first. -/
def render (n : Nat) : List UInt8 := (Nat.toDigits 10 n).map Char.toUInt8

/-- The number a list of digits stands for. -/
def value (digits : List UInt8) : Nat := digits.foldl (fun v b => 10 * v + (b.toNat - 48)) 0

/-! ### One digit -/

theorem digitChar_toUInt8 :
    ∀ d, d < 10 → (Nat.digitChar d).toUInt8 = UInt8.ofNat (48 + d) := by decide

theorem isDigit_ofNat : ∀ d, d < 10 → isDigit (UInt8.ofNat (48 + d)) = true := by decide

theorem toNat_ofNat_digit : ∀ d, d < 10 → (UInt8.ofNat (48 + d)).toNat - 48 = d := by decide

@[simp] theorem value_nil : value [] = 0 := rfl

theorem value_append (ds : List UInt8) (b : UInt8) :
    value (ds ++ [b]) = 10 * value ds + (b.toNat - 48) := by
  unfold value
  rw [List.foldl_append]
  rfl

/-! ### Numbers -/

/-- A number below ten is one digit. -/
theorem render_of_lt {n : Nat} (h : n < 10) : render n = [UInt8.ofNat (48 + n)] := by
  unfold render
  rw [Nat.toDigits_of_lt_base h, List.map_singleton, digitChar_toUInt8 n h]

/-- The last digit comes off the end. -/
theorem render_of_le {n : Nat} (h : 10 ≤ n) :
    render n = render (n / 10) ++ [UInt8.ofNat (48 + n % 10)] := by
  have hlt : n % 10 < 10 := Nat.mod_lt n (by omega)
  unfold render
  rw [Nat.toDigits_of_base_le (by omega) h, List.map_append, List.map_singleton,
    digitChar_toUInt8 _ hlt]

theorem render_ne_nil (n : Nat) : render n ≠ [] := by
  by_cases h : n < 10
  · simp [render_of_lt h]
  · simp [render_of_le (show 10 ≤ n by omega)]

/-- **Only digits.** -/
theorem isDigit_render (n : Nat) : ∀ b ∈ render n, isDigit b = true := by
  induction n using Nat.strongRecOn with
  | ind n ih =>
    intro b hb
    by_cases h : n < 10
    · rw [render_of_lt h, List.mem_singleton] at hb
      rw [hb]
      exact isDigit_ofNat n h
    · rw [render_of_le (by omega)] at hb
      rcases List.mem_append.mp hb with hb | hb
      · exact ih (n / 10) (by omega) b hb
      · rw [List.mem_singleton.mp hb]
        exact isDigit_ofNat _ (Nat.mod_lt n (by omega))

/-- **Round trip.** Reading what was written gives the number back. -/
theorem value_render (n : Nat) : value (render n) = n := by
  induction n using Nat.strongRecOn with
  | ind n ih =>
    by_cases h : n < 10
    · have hone := value_append [] (UInt8.ofNat (48 + n))
      rw [toNat_ofNat_digit n h, List.nil_append, value_nil, Nat.mul_zero, Nat.zero_add] at hone
      rw [render_of_lt h]
      exact hone
    · have hdiv := ih (n / 10) (by omega)
      rw [render_of_le (by omega), value_append, hdiv,
        toNat_ofNat_digit _ (Nat.mod_lt n (by omega))]
      omega

/-- **Length.** A number below `10 ^ k` has at most `k` digits. -/
theorem length_render_le {n k : Nat} (hk : 0 < k) (h : n < 10 ^ k) : (render n).length ≤ k := by
  induction k generalizing n with
  | zero => omega
  | succ k ih =>
    by_cases hlt : n < 10
    · rw [render_of_lt hlt]
      exact hk
    · rw [render_of_le (by omega), List.length_append]
      have hpos : 0 < k := by
        by_contra hzero
        have hk0 : k = 0 := by omega
        subst hk0
        omega
      have hdiv : n / 10 < 10 ^ k := by
        rw [Nat.pow_succ] at h
        omega
      have hrec := ih hpos hdiv
      rw [List.length_singleton]
      omega

end Decimal
