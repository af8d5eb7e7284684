import Sdiol.Lib.Scanf

namespace Strtol

/-!
# `strtol`

`strtol base s` is the C function on the bytes `s` of a string: white space, an optional sign,
with base 0 or 16 an optional `0x`, and digits, of which a number that is too large becomes the
largest or the smallest `long`.  It returns the number and what `endptr` points to.

`Numeral base s z` says that the whole string `s` writes the integer `z`; `strtol_iff` that these
are the strings of which `strtol` leaves nothing.  `render` prints in a given base, and
`numeral_render` and `numeral_decimal` read that back.
-/

/-! ### Digits -/

/-- The value of a digit or a letter, and 36 for any other byte. -/
def digitVal (b : UInt8) : Nat :=
  if 48 ≤ b.toNat ∧ b.toNat ≤ 57 then b.toNat - 48
  else if 97 ≤ b.toNat ∧ b.toNat ≤ 122 then b.toNat - 87
  else if 65 ≤ b.toNat ∧ b.toNat ≤ 90 then b.toNat - 55
  else 36

def isDigit (base : Nat) (b : UInt8) : Bool := decide (digitVal b < base)

/-- The number a list of digits stands for. -/
def value (base : Nat) (digits : List UInt8) : Nat :=
  digits.foldl (fun v b => base * v + digitVal b) 0

/-- The smallest and the largest `long`. -/
def longMin : Int := -2 ^ 63
def longMax : Int := 2 ^ 63 - 1

/-- A number that is too small or too large becomes the smallest or the largest one. -/
def clamp (z : Int) : Int := max longMin (min longMax z)

/-- `0x` and a digit after it: the digits from there on. -/
def hexDigits : List UInt8 → Option (List UInt8)
  | z :: x :: d :: s => if z = 48 ∧ (x = 120 ∨ x = 88) ∧ isDigit 16 d = true then some (d :: s)
    else none
  | _ => none

/-- The base that counts, and where its digits begin. -/
def radix (base : Nat) (s : List UInt8) : Nat × List UInt8 :=
  if base = 0 ∨ base = 16 then
    match hexDigits s with
    | some s => (16, s)
    | none => if base = 16 then (16, s) else if s.head? = some 48 then (8, s) else (10, s)
  else (base, s)

def signed (negative : Bool) (n : Nat) : Int := if negative then -(n : Int) else n

/-- `strtol(s, &endptr, base)`: the number, and what `endptr` points to. -/
def strtol (base : Nat) (s : List UInt8) : Int × List UInt8 :=
  let (negative, body) := Scanf.sign (s.dropWhile Scanf.isSpace)
  let (r, body) := radix base body
  let digits := body.takeWhile (isDigit r)
  if digits = [] then (0, s)
  else (clamp (signed negative (value r digits)), body.dropWhile (isDigit r))

/-! ### What is a number -/

/-- Digits, and with base 0 or 16 what stands in front of them. -/
inductive Literal : Nat → List UInt8 → Nat → Prop
  | digits {base : Nat} {ds : List UInt8} (hbase : base ≠ 0) (hne : ds ≠ [])
      (hds : ∀ b ∈ ds, isDigit base b = true) : Literal base ds (value base ds)
  | decimal {d : UInt8} {ds : List UInt8} (hd : d ≠ 48)
      (hds : ∀ b ∈ d :: ds, isDigit 10 b = true) : Literal 0 (d :: ds) (value 10 (d :: ds))
  | octal {ds : List UInt8} (hds : ∀ b ∈ ds, isDigit 8 b = true) :
      Literal 0 (48 :: ds) (value 8 (48 :: ds))
  | hex {base : Nat} {x : UInt8} {ds : List UInt8} (hbase : base = 0 ∨ base = 16)
      (hx : x = 120 ∨ x = 88) (hne : ds ≠ []) (hds : ∀ b ∈ ds, isDigit 16 b = true) :
      Literal base (48 :: x :: ds) (value 16 ds)

/-- White space, an optional sign and a literal. -/
inductive Numeral (base : Nat) : List UInt8 → Int → Prop
  | mk {spaces sgn body : List UInt8} {n : Nat} (hspaces : ∀ b ∈ spaces, Scanf.isSpace b = true)
      (hsgn : sgn = [] ∨ sgn = [43] ∨ sgn = [45]) (hbody : Literal base body n) :
      Numeral base (spaces ++ sgn ++ body) (signed (decide (sgn = [45])) n)

/-! ### Digits are neither white space nor signs -/

theorem isDigit_mono {b b' : Nat} (h : b ≤ b') {d : UInt8} (hd : isDigit b d = true) :
    isDigit b' d = true := by
  unfold isDigit at hd ⊢
  rw [decide_eq_true_eq] at hd ⊢
  omega

/-- The bytes that can be digits. -/
theorem isDigit_range {d : UInt8} (h : isDigit 36 d = true) :
    48 ≤ d.toNat ∧ d.toNat ≤ 57 ∨ 97 ≤ d.toNat ∧ d.toNat ≤ 122 ∨
      65 ≤ d.toNat ∧ d.toNat ≤ 90 := by
  unfold isDigit digitVal at h
  rw [decide_eq_true_eq] at h
  split_ifs at h <;> omega

theorem isDigit_plain {d : UInt8} (h : isDigit 36 d = true) :
    Scanf.isSpace d = false ∧ d ≠ 45 ∧ d ≠ 43 := by
  have hrange := isDigit_range h
  have hne : ∀ c : UInt8, c.toNat < 48 → d ≠ c := by
    rintro c hc rfl
    omega
  refine ⟨?_, hne 45 (by decide), hne 43 (by decide)⟩
  unfold Scanf.isSpace
  rw [beq_false_of_ne (hne 32 (by decide)), Bool.false_or, decide_eq_false_iff_not]
  omega

theorem sign_of_isDigit {d : UInt8} (h : isDigit 36 d = true) (s : List UInt8) :
    Scanf.sign (d :: s) = (false, d :: s) := by
  obtain ⟨_, hminus, hplus⟩ := isDigit_plain h
  show (if d = 45 then (true, s) else if d = 43 then (false, s) else (false, d :: s)) = _
  rw [if_neg hminus, if_neg hplus]

/-- A literal begins with a digit. -/
theorem Literal.head {base : Nat} {body : List UInt8} {n : Nat} (h : Literal base body n)
    (hbase : base ≤ 36) : ∃ d s, body = d :: s ∧ isDigit 36 d = true := by
  cases h with
  | digits _ hne hds =>
    obtain ⟨d, s, rfl⟩ := List.exists_cons_of_ne_nil hne
    exact ⟨d, s, rfl, isDigit_mono hbase (hds d List.mem_cons_self)⟩
  | @decimal d ds _ hds =>
    exact ⟨d, ds, rfl, isDigit_mono (by decide) (hds d List.mem_cons_self)⟩
  | octal => exact ⟨48, _, rfl, by decide⟩
  | hex => exact ⟨48, _, rfl, by decide⟩

/-! ### The base -/

/-- **Complete.** Of a literal, the base and the digits are found. -/
theorem Literal.radix_eq {base : Nat} {body : List UInt8} {n : Nat} (h : Literal base body n) :
    ∃ r ds, radix base body = (r, ds) ∧ ds ≠ [] ∧ (∀ b ∈ ds, isDigit r b = true) ∧
      n = value r ds := by
  cases h with
  | digits hbase hne hds =>
    refine ⟨base, body, ?_, hne, hds, rfl⟩
    unfold radix
    by_cases h16 : base = 16
    · subst h16
      -- the letter after the zero would not be a digit
      have hnone : hexDigits body = none := by
        match body, hds with
        | [], _ => rfl
        | [_], _ => rfl
        | [_, _], _ => rfl
        | z :: x :: d :: s, hds =>
          refine if_neg fun hhex => ?_
          have hx := hds x (by simp)
          rcases hhex.2.1 with rfl | rfl <;> exact absurd hx (by decide)
      rw [if_pos (Or.inr rfl), hnone]
      rfl
    · exact if_neg (by omega)
  | @decimal d ds hd hds =>
    refine ⟨10, d :: ds, ?_, List.cons_ne_nil d ds, hds, rfl⟩
    have hnone : hexDigits (d :: ds) = none := by
      match ds with
      | [] => rfl
      | [_] => rfl
      | _ :: _ :: _ => exact if_neg fun hhex => hd hhex.1
    have hhead : (d :: ds).head? ≠ some 48 := by simpa using hd
    unfold radix
    rw [if_pos (Or.inl rfl), hnone]
    simp only [if_neg hhead]
    rfl
  | @octal ds hds =>
    refine ⟨8, 48 :: ds, ?_, List.cons_ne_nil 48 ds, ?_, rfl⟩
    · have hnone : hexDigits (48 :: ds) = none := by
        match ds, hds with
        | [], _ => rfl
        | [_], _ => rfl
        | x :: d :: s, hds =>
          refine if_neg fun hhex => ?_
          have hx := hds x (by simp)
          rcases hhex.2.1 with rfl | rfl <;> exact absurd hx (by decide)
      unfold radix
      rw [if_pos (Or.inl rfl), hnone]
      rfl
    · intro b hb
      rcases List.mem_cons.mp hb with rfl | hb
      · decide
      · exact hds b hb
  | @hex _ x ds hbase hx hne hds =>
    refine ⟨16, ds, ?_, hne, hds, rfl⟩
    obtain ⟨d, s, rfl⟩ := List.exists_cons_of_ne_nil hne
    have hsome : hexDigits (48 :: x :: d :: s) = some (d :: s) :=
      if_pos ⟨rfl, hx, hds d List.mem_cons_self⟩
    unfold radix
    rw [if_pos hbase, hsome]

/-- **Sound.** Where only digits follow, a literal was read. -/
theorem literal_of_radix {base : Nat} {body : List UInt8} {r : Nat} {ds : List UInt8}
    (h : radix base body = (r, ds)) (hne : ds ≠ []) (hds : ∀ b ∈ ds, isDigit r b = true) :
    Literal base body (value r ds) := by
  unfold radix at h
  by_cases hbase : base = 0 ∨ base = 16
  · rw [if_pos hbase] at h
    cases hhex : hexDigits body with
    | some s =>
      rw [hhex] at h
      obtain ⟨rfl, rfl⟩ := Prod.mk.inj h
      match body, hhex with
      | z :: x :: d :: s', hhex =>
        simp only [hexDigits] at hhex
        split_ifs at hhex with hz
        obtain ⟨rfl, hx, -⟩ := hz
        rw [← Option.some.inj hhex] at hne hds ⊢
        exact .hex hbase hx hne hds
    | none =>
      rw [hhex] at h
      simp only at h
      by_cases h16 : base = 16
      · rw [if_pos h16] at h
        obtain ⟨rfl, rfl⟩ := Prod.mk.inj h
        rw [h16]
        exact .digits (by decide) hne hds
      · rw [if_neg h16] at h
        have h0 : base = 0 := hbase.resolve_right h16
        rw [h0]
        obtain ⟨d, s, rfl⟩ := List.exists_cons_of_ne_nil (l := body) (by
          rintro rfl
          simp only [List.head?_nil, reduceCtorEq, if_false] at h
          exact hne (Prod.mk.inj h).2.symm)
        by_cases hd : d = 48
        · subst hd
          rw [List.head?_cons, if_pos rfl] at h
          obtain ⟨rfl, rfl⟩ := Prod.mk.inj h
          exact .octal fun b hb => hds b (List.mem_cons_of_mem _ hb)
        · rw [if_neg (by simpa using hd)] at h
          obtain ⟨rfl, rfl⟩ := Prod.mk.inj h
          exact .decimal hd hds
  · rw [if_neg hbase] at h
    obtain ⟨rfl, rfl⟩ := Prod.mk.inj h
    exact .digits (by omega) hne hds

/-! ### `strtol` -/

/-- **Complete.** A numeral is read whole. -/
theorem strtol_numeral {base : Nat} (hbase : base ≤ 36) {s : List UInt8} {z : Int}
    (h : Numeral base s z) : strtol base s = (clamp z, []) := by
  cases h with
  | @mk spaces sgn body n hspaces hsgn hbody =>
    obtain ⟨d, t, rfl, hd⟩ := hbody.head hbase
    obtain ⟨r, ds, hradix, hne, hds, rfl⟩ := hbody.radix_eq
    obtain ⟨hspace, -, -⟩ := isDigit_plain hd
    have hstop : (sgn ++ d :: t).dropWhile Scanf.isSpace = sgn ++ d :: t := by
      rcases hsgn with rfl | rfl | rfl
      · exact List.dropWhile_cons_of_neg (by simp [hspace])
      · rfl
      · rfl
    have hsign : Scanf.sign (sgn ++ d :: t) = (decide (sgn = [45]), d :: t) := by
      rcases hsgn with rfl | rfl | rfl
      · exact sign_of_isDigit hd t
      · rfl
      · rfl
    have htake : ds.takeWhile (isDigit r) = ds := List.takeWhile_eq_self_iff.mpr hds
    have hdrop : ds.dropWhile (isDigit r) = [] := List.dropWhile_eq_nil_iff.mpr hds
    unfold strtol
    rw [List.append_assoc, List.dropWhile_append_of_pos hspaces, hstop, hsign]
    simp only [hradix, htake, hdrop]
    rw [if_neg hne]

/-- **Sound.** If nothing is left of a string, it is a numeral. -/
theorem numeral_of_strtol {base : Nat} {s : List UInt8} (hs : s ≠ [])
    (h : (strtol base s).2 = []) : ∃ z, Numeral base s z ∧ (strtol base s).1 = clamp z := by
  obtain ⟨sgn, hsgn, hsplit, hneg⟩ := Scanf.sign_cases (s.dropWhile Scanf.isSpace)
  cases hradix : radix base (Scanf.sign (s.dropWhile Scanf.isSpace)).2 with
  | mk r ds =>
    have hcall : strtol base s = if ds.takeWhile (isDigit r) = [] then (0, s)
        else (clamp (signed (Scanf.sign (s.dropWhile Scanf.isSpace)).1
          (value r (ds.takeWhile (isDigit r)))), ds.dropWhile (isDigit r)) := by
      unfold strtol
      simp only [hradix]
    by_cases hnone : ds.takeWhile (isDigit r) = []
    · rw [hcall, if_pos hnone] at h
      exact absurd h hs
    · rw [hcall, if_neg hnone] at h ⊢
      have hds : ∀ b ∈ ds, isDigit r b = true := List.dropWhile_eq_nil_iff.mp h
      have htake : ds.takeWhile (isDigit r) = ds := List.takeWhile_eq_self_iff.mpr hds
      rw [htake] at hnone ⊢
      refine ⟨_, ?_, rfl⟩
      have hspaces : ∀ b ∈ s.takeWhile Scanf.isSpace, Scanf.isSpace b = true :=
        fun b hb => List.mem_takeWhile_imp hb
      have hnumeral := Numeral.mk hspaces hsgn (literal_of_radix hradix hnone hds)
      rwa [List.append_assoc, ← hsplit, List.takeWhile_append_dropWhile, ← hneg] at hnumeral

/-- **A whole string.** Nothing is left exactly of the strings that write a number. -/
theorem strtol_iff {base : Nat} (hbase : base ≤ 36) {s : List UInt8} :
    s ≠ [] ∧ (strtol base s).2 = [] ↔ ∃ z, Numeral base s z := by
  constructor
  · rintro ⟨hs, h⟩
    obtain ⟨z, hz, -⟩ := numeral_of_strtol hs h
    exact ⟨z, hz⟩
  · rintro ⟨z, hz⟩
    refine ⟨?_, by rw [strtol_numeral hbase hz]⟩
    cases hz with
    | mk _ _ hbody =>
      obtain ⟨d, t, rfl, -⟩ := hbody.head hbase
      simp

/-- A number in the range of a `long` is not changed. -/
theorem clamp_eq {z : Int} (hmin : longMin ≤ z) (hmax : z ≤ longMax) : clamp z = z := by
  unfold clamp
  omega

/-- Whether the number is between bounds of a smaller type can be seen after the conversion. -/
theorem clamp_between {lo hi : Int} (hlo : longMin < lo) (hhi : hi < longMax) (z : Int) :
    lo ≤ clamp z ∧ clamp z ≤ hi ↔ lo ≤ z ∧ z ≤ hi := by
  unfold clamp
  have hle : longMin ≤ longMax := by decide
  omega

/-! ### Reading back what was printed -/

/-- The digits of `n`, most significant first. -/
def render (base n : Nat) : List UInt8 := (Nat.toDigits base n).map Char.toUInt8

theorem digitVal_digitChar : ∀ d, d < 16 → digitVal (Nat.digitChar d).toUInt8 = d := by decide

section Render

variable {base : Nat} (hlo : 2 ≤ base) (hhi : base ≤ 16)

theorem render_of_lt {n : Nat} (h : n < base) : render base n = [(Nat.digitChar n).toUInt8] := by
  unfold render
  rw [Nat.toDigits_of_lt_base h, List.map_singleton]

include hlo

theorem render_of_le {n : Nat} (h : base ≤ n) :
    render base n = render base (n / base) ++ [(Nat.digitChar (n % base)).toUInt8] := by
  unfold render
  rw [Nat.toDigits_of_base_le (by omega) h, List.map_append, List.map_singleton]

include hhi

/-- **Only digits**, and reading them gives the number back. -/
theorem render_spec (n : Nat) : render base n ≠ [] ∧
    (∀ b ∈ render base n, isDigit base b = true) ∧ value base (render base n) = n := by
  induction n using Nat.strongRecOn with
  | ind n ih =>
    by_cases h : n < base
    · have hval := digitVal_digitChar n (by omega)
      rw [render_of_lt h]
      refine ⟨by simp, ?_, ?_⟩
      · intro b hb
        rw [List.mem_singleton.mp hb, isDigit, hval, decide_eq_true_eq]
        exact h
      · rw [value, List.foldl_cons, List.foldl_nil, hval, Nat.mul_zero, Nat.zero_add]
    · have hlt : n % base < base := Nat.mod_lt n (by omega)
      have hval := digitVal_digitChar (n % base) (by omega)
      obtain ⟨-, hdigits, hvalue⟩ := ih (n / base) (Nat.div_lt_self (by omega) (by omega))
      rw [render_of_le hlo (by omega)]
      refine ⟨by simp, ?_, ?_⟩
      · intro b hb
        rcases List.mem_append.mp hb with hb | hb
        · exact hdigits b hb
        · rw [List.mem_singleton.mp hb, isDigit, hval, decide_eq_true_eq]
          exact hlt
      · calc value base (render base (n / base) ++ [(Nat.digitChar (n % base)).toUInt8])
            = base * value base (render base (n / base))
                + digitVal (Nat.digitChar (n % base)).toUInt8 := by
              unfold value
              rw [List.foldl_append, List.foldl_cons, List.foldl_nil]
          _ = base * (n / base) + n % base := by rw [hvalue, hval]
          _ = n := Nat.div_add_mod n base

/-- A number other than zero does not begin with a zero. -/
theorem head_render {n : Nat} (hn : n ≠ 0) : ∃ d ds, render base n = d :: ds ∧ d ≠ 48 := by
  induction n using Nat.strongRecOn with
  | ind n ih =>
    by_cases h : n < base
    · refine ⟨_, [], render_of_lt h, fun hzero => hn ?_⟩
      have hval := digitVal_digitChar n (by omega)
      rw [hzero] at hval
      exact hval.symm
    · have hdiv : n / base ≠ 0 := by
        have := Nat.div_pos (by omega : base ≤ n) (by omega)
        omega
      obtain ⟨d, ds, hds, hd⟩ := ih (n / base) (Nat.div_lt_self (by omega) (by omega)) hdiv
      refine ⟨d, ds ++ [(Nat.digitChar (n % base)).toUInt8], ?_, hd⟩
      rw [render_of_le hlo (by omega), hds, List.cons_append]

/-- **Round trip** in a given base. -/
theorem numeral_render (n : Nat) : Numeral base (render base n) n := by
  obtain ⟨hne, hds, hvalue⟩ := render_spec hlo hhi n
  have hnumeral : Numeral base ([] ++ [] ++ render base n) _ :=
    .mk (by simp) (.inl rfl) (.digits (by omega) hne hds)
  rw [hvalue] at hnumeral
  exact hnumeral

end Render

/-- **Round trip** of decimal numbers with base 0. -/
theorem numeral_decimal (n : Nat) : Numeral 0 (render 10 n) n := by
  by_cases hn : n = 0
  · subst hn
    have hzero : Numeral 0 ([] ++ [] ++ [48]) _ := .mk (by simp) (.inl rfl) (.octal (by simp))
    exact hzero
  · obtain ⟨-, hds, hvalue⟩ := render_spec (by decide) (by decide : 10 ≤ 16) n
    obtain ⟨d, ds, heq, hd⟩ := head_render (by decide) (by decide : 10 ≤ 16) hn
    rw [heq] at hds hvalue ⊢
    have hnumeral : Numeral 0 ([] ++ [] ++ d :: ds) _ :=
      .mk (by simp) (.inl rfl) (.decimal hd hds)
    rw [hvalue] at hnumeral
    exact hnumeral

end Strtol
