import Sdiol.Lib.Decimal

namespace Scanf

/-!
# `sscanf` for separated unsigned numbers

`lu` is the conversion `%lu` on the rest of a C string: white space, an optional sign and
digits, converted as `strtoul` does.  `fields sep n` is a format of `n` conversions `%lu` with
the byte `sep` between them: the values assigned before the first mismatch.

`lu_digits` and `fields_cons` read back what was printed.  `lu_iff` and `fields_iff` say in
terms of the bytes when a conversion or a whole format succeeds: `Numeral` is what `%lu`
accepts, `Digits` a number without white space and sign, `Separated` a sequence of either.
-/

/-- `isspace` -/
def isSpace (b : UInt8) : Bool := b == 32 || decide (9 ≤ b.toNat ∧ b.toNat ≤ 13)

/-- Whether there is a minus sign, and what follows an optional sign. -/
def sign : List UInt8 → Bool × List UInt8
  | [] => (false, [])
  | b :: s => if b = 45 then (true, s) else if b = 43 then (false, s) else (false, b :: s)

/-- The largest `unsigned long`. -/
def ulongMax : Nat := 2 ^ 64 - 1

/-- `strtoul` on a sign and digits: a number that is too large becomes the largest one. -/
def convert (negative : Bool) (digits : List UInt8) : UInt64 :=
  if Decimal.value digits > ulongMax then UInt64.ofNat ulongMax
  else if negative then -UInt64.ofNat (Decimal.value digits)
  else UInt64.ofNat (Decimal.value digits)

/-- `%lu`: the value, and what is left of the string. -/
def lu (s : List UInt8) : Option (UInt64 × List UInt8) :=
  let (negative, s) := sign (s.dropWhile isSpace)
  let digits := s.takeWhile Decimal.isDigit
  if digits = [] then none else some (convert negative digits, s.dropWhile Decimal.isDigit)

/-- `%lu` repeated `n` times with `sep` in between: the values that were assigned. -/
def fields (sep : UInt8) : Nat → List UInt8 → List UInt64
  | 0, _ => []
  | n + 1, s =>
    match lu s with
    | none => []
    | some (v, []) => [v]
    | some (v, b :: s) => if b = sep then v :: fields sep n s else [v]

/-! ### Reading back what was printed -/

/-- A digit is neither white space nor a sign. -/
theorem not_isSpace_of_isDigit {b : UInt8} (h : Decimal.isDigit b = true) : isSpace b = false := by
  have hrange : 48 ≤ b.toNat ∧ b.toNat ≤ 57 := of_decide_eq_true h
  have hne : b ≠ 32 := by
    rintro rfl
    exact absurd hrange (by decide)
  unfold isSpace
  rw [beq_false_of_ne hne, decide_eq_false (by omega)]
  rfl

theorem sign_of_isDigit {b : UInt8} (h : Decimal.isDigit b = true) (s : List UInt8) :
    sign (b :: s) = (false, b :: s) := by
  have hrange : 48 ≤ b.toNat ∧ b.toNat ≤ 57 := of_decide_eq_true h
  have hminus : b ≠ 45 := by
    rintro rfl
    exact absurd hrange (by decide)
  have hplus : b ≠ 43 := by
    rintro rfl
    exact absurd hrange (by decide)
  show (if b = 45 then (true, s) else if b = 43 then (false, s) else (false, b :: s)) = _
  rw [if_neg hminus, if_neg hplus]

theorem convert_of_le {digits : List UInt8} (h : Decimal.value digits ≤ ulongMax) :
    convert false digits = UInt64.ofNat (Decimal.value digits) := by
  unfold convert
  rw [if_neg (by omega), if_neg (by simp)]

/-- The bytes up to where the digits of a nonempty list end. -/
theorem takeWhile_isDigit {digits rest : List UInt8}
    (hdigits : ∀ b ∈ digits, Decimal.isDigit b = true)
    (hrest : ∀ b ∈ rest.head?, Decimal.isDigit b = false) :
    (digits ++ rest).takeWhile Decimal.isDigit = digits ∧
      (digits ++ rest).dropWhile Decimal.isDigit = rest := by
  have hstop : rest.takeWhile Decimal.isDigit = [] ∧ rest.dropWhile Decimal.isDigit = rest := by
    cases rest with
    | nil => exact ⟨rfl, rfl⟩
    | cons b rest =>
      have hb := hrest b rfl
      exact ⟨List.takeWhile_cons_of_neg (by simp [hb]), List.dropWhile_cons_of_neg (by simp [hb])⟩
  rw [List.takeWhile_append_of_pos hdigits, List.dropWhile_append_of_pos hdigits, hstop.1, hstop.2,
    List.append_nil]
  exact ⟨rfl, rfl⟩

/-- **One number.** Digits that stand for an `unsigned long` and end there are read whole. -/
theorem lu_digits {digits rest : List UInt8} (hne : digits ≠ [])
    (hdigits : ∀ b ∈ digits, Decimal.isDigit b = true)
    (hrest : ∀ b ∈ rest.head?, Decimal.isDigit b = false)
    (hvalue : Decimal.value digits ≤ ulongMax) :
    lu (digits ++ rest) = some (UInt64.ofNat (Decimal.value digits), rest) := by
  obtain ⟨htake, hdrop⟩ := takeWhile_isDigit hdigits hrest
  have hstart : sign ((digits ++ rest).dropWhile isSpace) = (false, digits ++ rest) := by
    cases digits with
    | nil => exact absurd rfl hne
    | cons b digits =>
      have hb := hdigits b List.mem_cons_self
      rw [List.cons_append, List.dropWhile_cons_of_neg (by simp [not_isSpace_of_isDigit hb])]
      exact sign_of_isDigit hb (digits ++ rest)
  unfold lu
  rw [hstart]
  simp only [htake, hdrop]
  rw [if_neg hne, convert_of_le hvalue]

/-- A printed number is read back. -/
theorem lu_render (n : UInt64) {rest : List UInt8}
    (hrest : ∀ b ∈ rest.head?, Decimal.isDigit b = false) :
    lu (Decimal.render n.toNat ++ rest) = some (n, rest) := by
  have hvalue := Decimal.value_render n.toNat
  have hlt := n.toNat_lt
  have hread := lu_digits (Decimal.render_ne_nil n.toNat) (Decimal.isDigit_render n.toNat) hrest
    (by rw [hvalue]; unfold ulongMax; omega)
  rw [hread, hvalue, UInt64.ofNat_toNat]

/-- The last number. -/
theorem fields_one (sep : UInt8) (n : UInt64) {rest : List UInt8}
    (hrest : ∀ b ∈ rest.head?, Decimal.isDigit b = false) :
    fields sep 1 (Decimal.render n.toNat ++ rest) = [n] := by
  unfold fields
  rw [lu_render n hrest]
  cases rest with
  | nil => rfl
  | cons b rest =>
    show (if b = sep then n :: fields sep 0 rest else [n]) = [n]
    by_cases h : b = sep
    · rw [if_pos h]
      rfl
    · rw [if_neg h]

/-- A number and its separator. -/
theorem fields_cons (sep : UInt8) (hsep : Decimal.isDigit sep = false) (k : Nat) (n : UInt64)
    (rest : List UInt8) :
    fields sep (k + 1) (Decimal.render n.toNat ++ sep :: rest) = n :: fields sep k rest := by
  have hhead : ∀ b ∈ (sep :: rest).head?, Decimal.isDigit b = false := by
    rintro b ⟨⟩
    exact hsep
  rw [fields, lu_render n hhead]
  exact if_pos rfl


/-! ### What a format matches -/

/-- A number of digits only, and its value as an `unsigned long`. -/
def Digits (bytes : List UInt8) (v : UInt64) : Prop :=
  bytes ≠ [] ∧ (∀ b ∈ bytes, Decimal.isDigit b = true) ∧ v = convert false bytes

/-- What `%lu` accepts, and the value it assigns: white space, an optional sign, digits. -/
inductive Numeral : List UInt8 → UInt64 → Prop
  | mk (spaces sgn digits : List UInt8) (hspaces : ∀ b ∈ spaces, isSpace b = true)
      (hsgn : sgn = [] ∨ sgn = [43] ∨ sgn = [45]) (hne : digits ≠ [])
      (hdigits : ∀ b ∈ digits, Decimal.isDigit b = true) :
      Numeral (spaces ++ sgn ++ digits) (convert (decide (sgn = [45])) digits)

/-- Numbers with `sep` in between. -/
inductive Separated (num : List UInt8 → UInt64 → Prop) (sep : UInt8) :
    List UInt64 → List UInt8 → Prop
  | last {b : List UInt8} {v : UInt64} (h : num b v) : Separated num sep [v] b
  | cons {b bs : List UInt8} {v : UInt64} {vs : List UInt64} (h : num b v)
      (hrest : Separated num sep vs bs) : Separated num sep (v :: vs) (b ++ sep :: bs)

/-- The string starts with the bytes `used`, which are numbers with `sep` in between, and the
    last of them ends there. -/
def Scanned (sep : UInt8) (vs : List UInt64) (s used rest : List UInt8) : Prop :=
  s = used ++ rest ∧ Separated Numeral sep vs used ∧
    ∀ b ∈ rest.head?, Decimal.isDigit b = false

theorem Digits.numeral {bytes : List UInt8} {v : UInt64} (h : Digits bytes v) :
    Numeral bytes v := by
  obtain ⟨hne, hdigits, rfl⟩ := h
  exact Numeral.mk [] [] bytes (by simp) (.inl rfl) hne hdigits

theorem Separated.mono {num num' : List UInt8 → UInt64 → Prop} {sep : UInt8} {vs : List UInt64}
    {bytes : List UInt8} (h : Separated num sep vs bytes) (himp : ∀ b v, num b v → num' b v) :
    Separated num' sep vs bytes := by
  induction h with
  | last h => exact .last (himp _ _ h)
  | cons h _ ih => exact .cons (himp _ _ h) ih

/-- The sign, seen from the bytes. -/
theorem sign_append {sgn digits rest : List UInt8} (hsgn : sgn = [] ∨ sgn = [43] ∨ sgn = [45])
    (hne : digits ≠ []) (hdigits : ∀ b ∈ digits, Decimal.isDigit b = true) :
    sign (sgn ++ digits ++ rest) = (decide (sgn = [45]), digits ++ rest) := by
  rcases hsgn with rfl | rfl | rfl
  · cases digits with
    | nil => exact absurd rfl hne
    | cons b digits => exact sign_of_isDigit (hdigits b List.mem_cons_self) (digits ++ rest)
  · rfl
  · rfl

/-- **Complete.** What is a number in the sense of `%lu` is read, as far as its digits go. -/
theorem lu_complete {used rest : List UInt8} {v : UInt64} (h : Numeral used v)
    (hrest : ∀ b ∈ rest.head?, Decimal.isDigit b = false) : lu (used ++ rest) = some (v, rest) := by
  cases h with
  | mk spaces sgn digits hspaces hsgn hne hdigits =>
    obtain ⟨htake, hdrop⟩ := takeWhile_isDigit hdigits hrest
    -- neither the sign nor a digit is white space
    have hstop : (sgn ++ digits ++ rest).dropWhile isSpace = sgn ++ digits ++ rest := by
      rcases hsgn with rfl | rfl | rfl
      · cases digits with
        | nil => exact absurd rfl hne
        | cons b digits =>
          have hb := not_isSpace_of_isDigit (hdigits b List.mem_cons_self)
          exact List.dropWhile_cons_of_neg (by simp [hb])
      · rfl
      · rfl
    have hskip : (spaces ++ sgn ++ digits ++ rest).dropWhile isSpace = sgn ++ digits ++ rest := by
      rw [List.append_assoc, List.append_assoc, List.dropWhile_append_of_pos hspaces,
        ← List.append_assoc]
      exact hstop
    unfold lu
    rw [hskip, sign_append hsgn hne hdigits]
    simp only [htake, hdrop]
    rw [if_neg hne]

theorem sign_cases (s : List UInt8) : ∃ sgn, (sgn = [] ∨ sgn = [43] ∨ sgn = [45]) ∧
    s = sgn ++ (sign s).2 ∧ (sign s).1 = decide (sgn = [45]) := by
  cases s with
  | nil => exact ⟨[], .inl rfl, rfl, rfl⟩
  | cons b s =>
    by_cases hminus : b = 45
    · rw [hminus]
      exact ⟨[45], .inr (.inr rfl), rfl, rfl⟩
    · by_cases hplus : b = 43
      · rw [hplus]
        exact ⟨[43], .inr (.inl rfl), rfl, rfl⟩
      · have hsign : sign (b :: s) = (false, b :: s) := by
          show (if b = 45 then (true, s) else if b = 43 then (false, s) else (false, b :: s)) = _
          rw [if_neg hminus, if_neg hplus]
        rw [hsign]
        exact ⟨[], .inl rfl, rfl, rfl⟩

/-- **Sound.** What `%lu` reads is a number and ends where its digits end. -/
theorem lu_sound {s rest : List UInt8} {v : UInt64} (h : lu s = some (v, rest)) :
    ∃ used, s = used ++ rest ∧ Numeral used v ∧
      ∀ b ∈ rest.head?, Decimal.isDigit b = false := by
  obtain ⟨sgn, hsgn, hsplit, hneg⟩ := sign_cases (s.dropWhile isSpace)
  unfold lu at h
  simp only at h
  split at h
  · exact absurd h (by simp)
  · rename_i hne
    obtain ⟨rfl, rfl⟩ := Prod.mk.inj (Option.some.inj h)
    refine ⟨s.takeWhile isSpace ++ sgn ++
      (sign (s.dropWhile isSpace)).2.takeWhile Decimal.isDigit, ?_, ?_, ?_⟩
    · rw [List.append_assoc, List.takeWhile_append_dropWhile, List.append_assoc, ← hsplit,
        List.takeWhile_append_dropWhile]
    · rw [hneg]
      exact Numeral.mk _ sgn _ (fun b hb => List.mem_takeWhile_imp hb) hsgn hne
        fun b hb => List.mem_takeWhile_imp hb
    · intro b hb
      have hstop := List.head?_dropWhile_not Decimal.isDigit (sign (s.dropWhile isSpace)).2
      rw [Option.mem_def.mp hb] at hstop
      exact hstop

theorem fields_complete {sep : UInt8} (hsep : Decimal.isDigit sep = false) {vs : List UInt64}
    {s used rest : List UInt8} (h : Scanned sep vs s used rest) : fields sep vs.length s = vs := by
  obtain ⟨rfl, hnums, hrest⟩ := h
  induction hnums with
  | last hnum =>
    show fields sep 1 _ = _
    rw [fields, lu_complete hnum hrest]
    cases rest with
    | nil => rfl
    | cons b rest =>
      show (if b = sep then _ :: fields sep 0 rest else [_]) = [_]
      split <;> rfl
  | @cons b bs v vs hnum _ ih =>
    have hhead : ∀ c ∈ (sep :: (bs ++ rest)).head?, Decimal.isDigit c = false := by
      rintro c ⟨⟩
      exact hsep
    rw [List.append_assoc, List.cons_append, List.length_cons, fields, lu_complete hnum hhead]
    show (if sep = sep then v :: fields sep vs.length (bs ++ rest) else [v]) = v :: vs
    rw [if_pos rfl, ih]

theorem fields_sound {sep : UInt8} {n : Nat} {s : List UInt8}
    (h : (fields sep (n + 1) s).length = n + 1) :
    ∃ used rest, Scanned sep (fields sep (n + 1) s) s used rest := by
  induction n generalizing s with
  | zero =>
    cases hlu : lu s with
    | none => rw [fields, hlu] at h; exact absurd h (by simp)
    | some x =>
      obtain ⟨v, rest⟩ := x
      obtain ⟨used, hs, hnum, hrest⟩ := lu_sound hlu
      -- after the last number nothing has to match any more
      have hone : fields sep (0 + 1) s = [v] := by
        rw [fields, hlu]
        cases rest with
        | nil => rfl
        -- the separator has to follow
        | cons b rest =>
          show (if b = sep then v :: fields sep 0 rest else [v]) = [v]
          split <;> rfl
      rw [hone]
      exact ⟨used, rest, hs, .last hnum, hrest⟩
  | succ n ih =>
    cases hlu : lu s with
    | none => rw [fields, hlu] at h; exact absurd h (by simp)
    | some x =>
      obtain ⟨v, rest⟩ := x
      obtain ⟨used, rfl, hnum, _⟩ := lu_sound hlu
      cases rest with
      | nil => rw [fields, hlu] at h; exact absurd h (by simp)
      | cons b rest =>
        have hstep : fields sep (n + 1 + 1) (used ++ b :: rest)
            = if b = sep then v :: fields sep (n + 1) rest else [v] := by
          rw [fields, hlu]
        by_cases hb : b = sep
        · rw [hstep, if_pos hb, List.length_cons] at h
          obtain ⟨used', rest', hrest, hnums, hend⟩ := ih (Nat.succ_injective h)
          rw [hstep, if_pos hb]
          refine ⟨used ++ sep :: used', rest', ?_, .cons hnum hnums, hend⟩
          rw [hrest, hb, List.append_assoc, List.cons_append]
        · rw [hstep, if_neg hb] at h
          exact absurd h (by simp)

/-- **A whole format.** All conversions succeed exactly if the string starts with that many
    numbers. -/
theorem fields_iff {sep : UInt8} (hsep : Decimal.isDigit sep = false) {n : Nat}
    {s : List UInt8} {vs : List UInt64} :
    fields sep (n + 1) s = vs ∧ vs.length = n + 1 ↔
      vs.length = n + 1 ∧ ∃ used rest, Scanned sep vs s used rest := by
  constructor
  · rintro ⟨rfl, hlen⟩
    exact ⟨hlen, fields_sound hlen⟩
  · rintro ⟨hlen, used, rest, hscan⟩
    refine ⟨?_, hlen⟩
    rw [← hlen]
    exact fields_complete hsep hscan

/-! ### The bytes of what matches -/

/-- The bytes of a numeral: white space, signs, digits. -/
theorem Numeral.mem {bytes : List UInt8} {v : UInt64} (h : Numeral bytes v) {b : UInt8}
    (hb : b ∈ bytes) : isSpace b = true ∨ b = 43 ∨ b = 45 ∨ Decimal.isDigit b = true := by
  cases h with
  | mk spaces sgn digits hspaces hsgn hne hdigits =>
    rcases List.mem_append.mp hb with hb | hb
    · rcases List.mem_append.mp hb with hb | hb
      · exact .inl (hspaces b hb)
      · rcases hsgn with rfl | rfl | rfl
        · exact absurd hb (by simp)
        · exact .inr (.inl (List.mem_singleton.mp hb))
        · exact .inr (.inr (.inl (List.mem_singleton.mp hb)))
    · exact .inr (.inr (.inr (hdigits b hb)))

/-- A numeral without white space and sign is a number of digits only. -/
theorem Numeral.digits {bytes : List UInt8} {v : UInt64} (h : Numeral bytes v)
    (hbytes : ∀ b ∈ bytes, isSpace b = false ∧ b ≠ 43 ∧ b ≠ 45) : Digits bytes v := by
  cases h with
  | mk spaces sgn digits hspaces hsgn hne hdigits =>
    have hnil : spaces = [] := by
      apply List.eq_nil_iff_forall_not_mem.mpr
      intro b hb
      have hclean := (hbytes b (by simp [hb])).1
      rw [hspaces b hb] at hclean
      exact absurd hclean (by simp)
    rw [hnil] at hbytes ⊢
    rcases hsgn with rfl | rfl | rfl
    · exact ⟨hne, hdigits, rfl⟩
    · exact absurd rfl (hbytes 43 (by simp)).2.1
    · exact absurd rfl (hbytes 45 (by simp)).2.2

theorem Separated.digits {sep : UInt8} {vs : List UInt64} {bytes : List UInt8}
    (h : Separated Numeral sep vs bytes)
    (hbytes : ∀ b ∈ bytes, isSpace b = false ∧ b ≠ 43 ∧ b ≠ 45) :
    Separated Digits sep vs bytes := by
  induction h with
  | last hnum => exact .last (hnum.digits hbytes)
  | cons hnum _ ih =>
    refine .cons (hnum.digits fun b hb => ?_) (ih fun b hb => ?_)
    · exact hbytes b (List.mem_append_left _ hb)
    · exact hbytes b (List.mem_append_right _ (List.mem_cons_of_mem _ hb))

/-- What holds of the separator and of the bytes of each number holds of all bytes. -/
theorem Separated.forall_mem {num : List UInt8 → UInt64 → Prop} {sep : UInt8} {vs : List UInt64}
    {bytes : List UInt8} (h : Separated num sep vs bytes) {P : UInt8 → Prop} (hsep : P sep)
    (hnum : ∀ b v, num b v → ∀ x ∈ b, P x) : ∀ x ∈ bytes, P x := by
  induction h with
  | last h => exact hnum _ _ h
  | cons h _ ih =>
    intro x hx
    rcases List.mem_append.mp hx with hx | hx
    · exact hnum _ _ h x hx
    · rcases List.mem_cons.mp hx with rfl | hx
      · exact hsep
      · exact ih x hx

/-- Between `n` numbers there are `n - 1` separators. -/
theorem Separated.count {num : List UInt8 → UInt64 → Prop} {sep : UInt8} {vs : List UInt64}
    {bytes : List UInt8} (h : Separated num sep vs bytes) (hsep : ∀ b v, num b v → sep ∉ b) :
    bytes.count sep + 1 = vs.length := by
  induction h with
  | last hnum => rw [List.count_eq_zero_of_not_mem (hsep _ _ hnum)]; rfl
  | cons hnum _ ih =>
    rw [List.count_append, List.count_cons_self, List.count_eq_zero_of_not_mem (hsep _ _ hnum),
      List.length_cons]
    omega

end Scanf
