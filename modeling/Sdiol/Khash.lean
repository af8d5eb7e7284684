import Sdiol.Lib.Probing

namespace Sdiol

open Probing

/-!
# The hash table of the key names

`khash.h`: an open-addressing table with two flag bits for each bucket, packed sixteen to a
word, and the operations that `names.c` uses.  The hash function and the equality of the keys
are parameters, as the macro `KHASH_INIT` has them.

A loop of the source that need not end is a function of `fuel`, and has no result where that
runs out.  `kh_resize` moves the entries inside the arrays of the table; its state meanwhile is
a `Rehash`.
-/

/-- The flag words: bit 1 of a bucket's two bits says empty, bit 0 says deleted. -/
abbrev Flags := Nat → BitVec 32

/-- `__ac_isempty` -/
def acIsempty (flag : Flags) (i : Nat) : Bool :=
  decide ((flag (i >>> 4) >>> ((i &&& 0xf) <<< 1)) &&& 2#32 ≠ 0#32)

/-- `__ac_isdel` -/
def acIsdel (flag : Flags) (i : Nat) : Bool :=
  decide ((flag (i >>> 4) >>> ((i &&& 0xf) <<< 1)) &&& 1#32 ≠ 0#32)

/-- `__ac_iseither` -/
def acIseither (flag : Flags) (i : Nat) : Bool :=
  decide ((flag (i >>> 4) >>> ((i &&& 0xf) <<< 1)) &&& 3#32 ≠ 0#32)

/-- `__ac_set_isempty_false` -/
def acSetIsemptyFalse (flag : Flags) (i : Nat) : Flags :=
  Function.update flag (i >>> 4) (flag (i >>> 4) &&& ~~~(2#32 <<< ((i &&& 0xf) <<< 1)))

/-- `__ac_set_isboth_false` -/
def acSetIsbothFalse (flag : Flags) (i : Nat) : Flags :=
  Function.update flag (i >>> 4) (flag (i >>> 4) &&& ~~~(3#32 <<< ((i &&& 0xf) <<< 1)))

/-- `__ac_set_isdel_true` -/
def acSetIsdelTrue (flag : Flags) (i : Nat) : Flags :=
  Function.update flag (i >>> 4) (flag (i >>> 4) ||| (1#32 <<< ((i &&& 0xf) <<< 1)))

/-- What `memset(new_flags, 0xaa, ..)` writes. -/
def emptyFlags : Flags := fun _ => 0xaaaaaaaa#32

/-! ### The two bits of a bucket -/

/-- Bit `b` of the two bits of bucket `i`. -/
def flagBit (flag : Flags) (i b : Nat) : Bool := (flag (i / 16)).getLsbD (2 * (i % 16) + b)

theorem flag_word (i : Nat) : i >>> 4 = i / 16 := Nat.shiftRight_eq_div_pow i 4

theorem flag_place (i : Nat) : (i &&& 0xf) <<< 1 = 2 * (i % 16) := by
  rw [Nat.shiftLeft_eq, show i &&& 0xf = i % 16 from Nat.and_two_pow_sub_one_eq_mod i 4]
  omega

theorem and_ne_zero (w : BitVec 32) (b : Nat) (hb : b < 32) :
    decide (w &&& BitVec.twoPow 32 b ≠ 0#32) = w.getLsbD b := by
  rw [BitVec.and_twoPow]
  cases hw : w.getLsbD b with
  | true =>
    rw [if_pos rfl, decide_eq_true_eq]
    intro hzero
    have hbit := congrArg (fun x : BitVec 32 => x.getLsbD b) hzero
    simp [hb] at hbit
  | false => simp

theorem acIsempty_eq (flag : Flags) (i : Nat) : acIsempty flag i = flagBit flag i 1 := by
  unfold acIsempty flagBit
  rw [flag_word, flag_place, show (2#32 : BitVec 32) = BitVec.twoPow 32 1 from rfl,
    and_ne_zero _ 1 (by decide), BitVec.getLsbD_ushiftRight]

theorem acIsdel_eq (flag : Flags) (i : Nat) : acIsdel flag i = flagBit flag i 0 := by
  unfold acIsdel flagBit
  rw [flag_word, flag_place, show (1#32 : BitVec 32) = BitVec.twoPow 32 0 from rfl,
    and_ne_zero _ 0 (by decide), BitVec.getLsbD_ushiftRight]

theorem acIseither_eq (flag : Flags) (i : Nat) :
    acIseither flag i = (acIsempty flag i || acIsdel flag i) := by
  rw [Bool.eq_iff_iff, Bool.or_eq_true]
  unfold acIseither acIsempty acIsdel
  simp only [decide_eq_true_eq]
  generalize flag (i >>> 4) >>> ((i &&& 0xf) <<< 1) = w
  have hsplit : w &&& 3#32 = (w &&& 2#32) ||| (w &&& 1#32) := by
    rw [← BitVec.and_or_distrib_left]
    rfl
  rw [hsplit]
  constructor
  · intro h
    by_contra hboth
    push Not at hboth
    rw [hboth.1, hboth.2] at h
    exact h rfl
  · intro h hzero
    have hparts := BitVec.or_eq_zero_iff.mp hzero
    exact h.elim (fun h => h hparts.1) (fun h => h hparts.2)

/-- The mask that the setters shift to the place of bucket `i`, read at bucket `j`. -/
theorem mask_getLsbD (c : BitVec 32) (hc : c.toNat < 4) (i j b : Nat) (hb : b < 2)
    (hij : i / 16 = j / 16) :
    (c <<< (2 * (i % 16))).getLsbD (2 * (j % 16) + b) = (decide (j = i) && c.getLsbD b) := by
  rw [BitVec.getLsbD_shiftLeft]
  have hroom : 2 * (j % 16) + b < 32 := by omega
  rcases Nat.lt_trichotomy (i % 16) (j % 16) with hlt | heq | hgt
  · have hhigh : c.getLsbD (2 * (j % 16) + b - 2 * (i % 16)) = false := by
      apply Nat.testBit_lt_two_pow
      exact Nat.lt_of_lt_of_le hc (Nat.pow_le_pow_right (n := 2) (by decide) (by omega : 2 ≤ _))
    have hne : ¬ j = i := by omega
    simp [hhigh, hne]
  · have hji : j = i := by omega
    subst hji
    simp [hroom]
  · have hne : ¬ j = i := by omega
    have hlow : 2 * (j % 16) + b < 2 * (i % 16) := by omega
    simp [hne, hlow]

/-- Clearing the bits of `c` in the flags of bucket `i`. -/
theorem flagBit_clear (flag : Flags) (c : BitVec 32) (hc : c.toNat < 4) (i j b : Nat) (hb : b < 2) :
    flagBit (Function.update flag (i >>> 4) (flag (i >>> 4) &&& ~~~(c <<< ((i &&& 0xf) <<< 1))))
      j b = (flagBit flag j b && !(decide (j = i) && c.getLsbD b)) := by
  unfold flagBit
  rw [flag_word, flag_place]
  by_cases hword : j / 16 = i / 16
  · have hroom : 2 * (j % 16) + b < 32 := by omega
    rw [hword, Function.update_self, BitVec.getLsbD_and, BitVec.getLsbD_not,
      mask_getLsbD c hc i j b hb hword.symm]
    simp [hroom]
  · have hne : ¬ j = i := fun h => hword (by rw [h])
    rw [Function.update_of_ne hword]
    simp [hne]

/-- Setting the bits of `c` in the flags of bucket `i`. -/
theorem flagBit_set (flag : Flags) (c : BitVec 32) (hc : c.toNat < 4) (i j b : Nat) (hb : b < 2) :
    flagBit (Function.update flag (i >>> 4) (flag (i >>> 4) ||| (c <<< ((i &&& 0xf) <<< 1)))) j b
      = (flagBit flag j b || (decide (j = i) && c.getLsbD b)) := by
  unfold flagBit
  rw [flag_word, flag_place]
  by_cases hword : j / 16 = i / 16
  · rw [hword, Function.update_self, BitVec.getLsbD_or, mask_getLsbD c hc i j b hb hword.symm]
  · have hne : ¬ j = i := fun h => hword (by rw [h])
    rw [Function.update_of_ne hword]
    simp [hne]

@[simp] theorem acIsempty_setIsemptyFalse (flag : Flags) (i j : Nat) :
    acIsempty (acSetIsemptyFalse flag i) j = (acIsempty flag j && decide (j ≠ i)) := by
  rw [acIsempty_eq, acIsempty_eq, acSetIsemptyFalse,
    flagBit_clear _ _ (by decide) _ _ _ (by decide)]
  simp

@[simp] theorem acIsdel_setIsemptyFalse (flag : Flags) (i j : Nat) :
    acIsdel (acSetIsemptyFalse flag i) j = acIsdel flag j := by
  rw [acIsdel_eq, acIsdel_eq, acSetIsemptyFalse, flagBit_clear _ _ (by decide) _ _ _ (by decide)]
  simp

@[simp] theorem acIsempty_setIsbothFalse (flag : Flags) (i j : Nat) :
    acIsempty (acSetIsbothFalse flag i) j = (acIsempty flag j && decide (j ≠ i)) := by
  rw [acIsempty_eq, acIsempty_eq, acSetIsbothFalse, flagBit_clear _ _ (by decide) _ _ _ (by decide)]
  simp

@[simp] theorem acIsdel_setIsbothFalse (flag : Flags) (i j : Nat) :
    acIsdel (acSetIsbothFalse flag i) j = (acIsdel flag j && decide (j ≠ i)) := by
  rw [acIsdel_eq, acIsdel_eq, acSetIsbothFalse, flagBit_clear _ _ (by decide) _ _ _ (by decide)]
  simp

@[simp] theorem acIsempty_setIsdelTrue (flag : Flags) (i j : Nat) :
    acIsempty (acSetIsdelTrue flag i) j = acIsempty flag j := by
  rw [acIsempty_eq, acIsempty_eq, acSetIsdelTrue, flagBit_set _ _ (by decide) _ _ _ (by decide)]
  simp

@[simp] theorem acIsdel_setIsdelTrue (flag : Flags) (i j : Nat) :
    acIsdel (acSetIsdelTrue flag i) j = (acIsdel flag j || decide (j = i)) := by
  rw [acIsdel_eq, acIsdel_eq, acSetIsdelTrue, flagBit_set _ _ (by decide) _ _ _ (by decide)]
  simp

@[simp] theorem acIsempty_emptyFlags (i : Nat) : acIsempty emptyFlags i = true := by
  have h : ∀ r < 16, (0xaaaaaaaa#32).getLsbD (2 * r + 1) = true := by decide
  rw [acIsempty_eq]
  exact h (i % 16) (Nat.mod_lt _ (by decide))

@[simp] theorem acIsdel_emptyFlags (i : Nat) : acIsdel emptyFlags i = false := by
  have h : ∀ r < 16, (0xaaaaaaaa#32).getLsbD (2 * r + 0) = false := by decide
  rw [acIsdel_eq]
  exact h (i % 16) (Nat.mod_lt _ (by decide))

/-- `kroundup32` -/
def kroundup32 (x : BitVec 32) : BitVec 32 :=
  let x := x - 1
  let x := x ||| (x >>> 1)
  let x := x ||| (x >>> 2)
  let x := x ||| (x >>> 4)
  let x := x ||| (x >>> 8)
  let x := x ||| (x >>> 16)
  x + 1

/-! ### Rounding up to a power of two -/

/-- A number whose bits were or-ed with those up to `k` places above them. -/
def Smears (x y : BitVec 32) (k : Nat) : Prop :=
  ∀ i, y.getLsbD i = true ↔ ∃ j, i ≤ j ∧ j ≤ i + k ∧ x.getLsbD j = true

theorem Smears.refl (x : BitVec 32) : Smears x x 0 := by
  intro i
  constructor
  · intro h
    exact ⟨i, le_refl i, le_refl i, h⟩
  · rintro ⟨j, hij, hji, hj⟩
    rwa [le_antisymm hij hji]

theorem Smears.shift {x y : BitVec 32} {k : Nat} (h : Smears x y k) {d : Nat} (hd : d ≤ k + 1) :
    Smears x (y ||| (y >>> d)) (k + d) := by
  intro i
  rw [BitVec.getLsbD_or, BitVec.getLsbD_ushiftRight, Bool.or_eq_true, h i, h (d + i)]
  constructor
  · rintro (⟨j, hij, hjk, hj⟩ | ⟨j, hij, hjk, hj⟩)
    · exact ⟨j, hij, by omega, hj⟩
    · exact ⟨j, by omega, by omega, hj⟩
  · rintro ⟨j, hij, hjk, hj⟩
    by_cases hnear : j ≤ i + k
    · exact Or.inl ⟨j, hij, hnear, hj⟩
    · exact Or.inr ⟨j, by omega, by omega, hj⟩

/-- Every bit at or below the highest bit of the argument. -/
theorem smear_eq {x y : BitVec 32} (h : Smears x y 31) : y.toNat = 2 ^ x.toNat.size - 1 := by
  apply Nat.eq_of_testBit_eq
  intro i
  rw [Nat.testBit_two_pow_sub_one, Bool.eq_iff_iff, decide_eq_true_eq, Nat.lt_size]
  rw [show y.toNat.testBit i = y.getLsbD i from rfl, h i]
  constructor
  · rintro ⟨j, hij, -, hj⟩
    exact Nat.le_trans (Nat.pow_le_pow_right (by decide) hij) (Nat.ge_two_pow_of_testBit hj)
  · intro hle
    obtain ⟨j, hij, hj⟩ := Nat.exists_ge_and_testBit_of_ge_two_pow hle
    refine ⟨j, hij, ?_, hj⟩
    by_contra hfar
    have hout : x.getLsbD j = false := BitVec.getLsbD_of_ge x j (by omega)
    rw [show x.getLsbD j = x.toNat.testBit j from rfl, hj] at hout
    exact absurd hout (by decide)

/-- **The rounding macro.** The least power of two that is not below the argument. -/
theorem kroundup32_eq {n : Nat} (hpos : 0 < n) (hn : n ≤ 2 ^ 31) :
    (kroundup32 (BitVec.ofNat 32 n)).toNat = 2 ^ (n - 1).size := by
  have hpred : (BitVec.ofNat 32 n - 1).toNat = n - 1 := by
    rw [BitVec.toNat_sub, BitVec.toNat_ofNat]
    change (2 ^ 32 - 1 + n % 2 ^ 32) % 2 ^ 32 = n - 1
    omega
  have hsmear : Smears (BitVec.ofNat 32 n - 1) _ 31 :=
    ((Smears.refl _).shift (by decide : 1 ≤ 0 + 1)).shift (by decide : 2 ≤ 0 + 1 + 1)
      |>.shift (by decide : 4 ≤ 0 + 1 + 2 + 1) |>.shift (by decide : 8 ≤ 0 + 1 + 2 + 4 + 1)
      |>.shift (by decide : 16 ≤ 0 + 1 + 2 + 4 + 8 + 1)
  have hsize : (n - 1).size ≤ 31 := Nat.size_le.mpr (by omega)
  have hpow : 2 ^ (n - 1).size ≤ 2 ^ 31 := Nat.pow_le_pow_right (by decide) hsize
  have hpowpos : 0 < 2 ^ (n - 1).size := by positivity
  unfold kroundup32
  rw [BitVec.toNat_add, smear_eq hsmear, hpred]
  change (2 ^ (n - 1).size - 1 + 1) % 2 ^ 32 = _
  omega

/-- `(khint_t)(n * __ac_HASH_UPPER + 0.5)` with `__ac_HASH_UPPER = 0.77`.  The tables have
    `2 ^ m` buckets, where the product is exact and never half a unit from an integer. -/
def hashUpper (n : Nat) : Nat := (77 * n + 50) / 100

/-- `kh_name_t`. -/
structure Khash (κ ν : Type) where
  nBuckets : Nat
  size : Nat
  nOccupied : Nat
  upperBound : Nat
  flags : Flags
  keys : Nat → κ
  vals : Nat → ν

/-- Which of the allocations that `kh_resize` makes succeed. -/
structure ResizeAlloc where
  flags : Bool
  keys : Bool
  vals : Bool
deriving DecidableEq

/-- Every allocation succeeds. -/
def ResizeAlloc.ok : ResizeAlloc := ⟨true, true, true⟩

/-- The arrays while `kh_resize` moves the entries. -/
structure Rehash (κ ν : Type) where
  flags : Flags
  newFlags : Flags
  keys : Nat → κ
  vals : Nat → ν

variable {κ ν : Type}

/-- `kh_init`: `kcalloc` of the struct.  Nothing reads the arrays before they are written. -/
def khInit [Inhabited κ] [Inhabited ν] : Khash κ ν :=
  ⟨0, 0, 0, 0, fun _ => 0, fun _ => default, fun _ => default⟩

/-- The search loops of `kh_get` and `kh_put` go on while this is false. -/
def Khash.stops [DecidableEq κ] (h : Khash κ ν) (key : κ) (i : Nat) : Bool :=
  acIsempty h.flags i || !(acIsdel h.flags i || decide (h.keys i ≠ key))

/-- `kh_get`; a bucket, or `n_buckets` for a key that is not there. -/
def khGet [DecidableEq κ] (hash : κ → Nat) (h : Khash κ ν) (key : κ) : Option Nat :=
  if h.nBuckets ≠ 0 then
    let mask := h.nBuckets - 1
    let last := hash key &&& mask
    match walk (h.stops key) (fun i => i == last) mask (2 * h.nBuckets) 0 last with
    | none => none
    | some none => some h.nBuckets
    | some (some i) => some (if acIseither h.flags i then h.nBuckets else i)
  else some 0

/-- The kick-out process of `kh_resize`: the entry in hand goes to a bucket that is empty in the
    new table, and the entry of the old table that it finds there is in hand next. -/
def kickOut (hash : κ → Nat) (nBuckets newNBuckets : Nat) :
    Nat → κ → ν → Rehash κ ν → Option (Rehash κ ν)
  | 0, _, _, _ => none
  | fuel + 1, key, val, s => do
      let newMask := newNBuckets - 1
      let i ← (walk (acIsempty s.newFlags) (fun _ => false) newMask newNBuckets 0
        (hash key &&& newMask)).join
      let placed : Rehash κ ν :=
        { s with
          newFlags := acSetIsemptyFalse s.newFlags i
          keys := Function.update s.keys i key
          vals := Function.update s.vals i val }
      if i < nBuckets && !acIseither s.flags i then
        kickOut hash nBuckets newNBuckets fuel (s.keys i) (s.vals i)
          { placed with flags := acSetIsdelTrue s.flags i }
      else some placed

/-- One round of the loop over the old buckets. -/
def rehashBucket (hash : κ → Nat) (nBuckets newNBuckets : Nat) (s : Rehash κ ν) (j : Nat) :
    Option (Rehash κ ν) :=
  if acIseither s.flags j = false then
    kickOut hash nBuckets newNBuckets (nBuckets + 1) (s.keys j) (s.vals j)
      { s with flags := acSetIsdelTrue s.flags j }
  else some s

/-- `kh_resize`; `false` is its -1. -/
def khResize (hash : κ → Nat) (alloc : ResizeAlloc) (newNBuckets : Nat) (h : Khash κ ν) :
    Option (Bool × Khash κ ν) :=
  let rounded := (kroundup32 (BitVec.ofNat 32 newNBuckets)).toNat
  let n := if rounded < 4 then 4 else rounded
  -- requested size is too small
  if h.size ≥ hashUpper n then some (true, h)
  else if !alloc.flags then some (false, h)
  else if h.nBuckets < n && !alloc.keys then some (false, h)
  else if h.nBuckets < n && !alloc.vals then some (false, h)
  else do
    let s ← (List.range h.nBuckets).foldlM (rehashBucket hash h.nBuckets n)
      ⟨h.flags, emptyFlags, h.keys, h.vals⟩
    some (true,
      { nBuckets := n
        size := h.size
        nOccupied := h.size
        upperBound := hashUpper n
        flags := s.newFlags
        keys := s.keys
        vals := s.vals })

/-- The search loop of `kh_put`, which also remembers a deleted bucket; what `x`, `site` and `i`
    hold behind it. -/
def putLoop [DecidableEq κ] (h : Khash κ ν) (key : κ) (mask last : Nat) :
    Nat → Nat → Nat → Nat → Option (Nat × Nat × Nat)
  | 0, _, _, _ => none
  | fuel + 1, step, i, site =>
      if h.stops key i then some (h.nBuckets, site, i)
      else
        let site := if acIsdel h.flags i then i else site
        let i := (i + (step + 1)) &&& mask
        if i = last then some (site, site, i)
        else putLoop h key mask last fuel (step + 1) i site

/-- The bucket `x` that `kh_put` settles on. -/
def putBucket [DecidableEq κ] (hash : κ → Nat) (h : Khash κ ν) (key : κ) : Option Nat := do
  let mask := h.nBuckets - 1
  let last := hash key &&& mask
  if acIsempty h.flags last then some last
  else
    let (x, site, i) ← putLoop h key mask last (2 * h.nBuckets) 0 last h.nBuckets
    if x = h.nBuckets then
      some (if acIsempty h.flags i && site ≠ h.nBuckets then site else i)
    else some x

/-- The end of `kh_put`: the key into its bucket, and the value of `*ret`. -/
def putKey (key : κ) (x : Nat) (h : Khash κ ν) : Int × Khash κ ν :=
  if acIsempty h.flags x then
    (1, { h with
      keys := Function.update h.keys x key
      flags := acSetIsbothFalse h.flags x
      size := h.size + 1
      nOccupied := h.nOccupied + 1 })
  else if acIsdel h.flags x then
    (2, { h with
      keys := Function.update h.keys x key
      flags := acSetIsbothFalse h.flags x
      size := h.size + 1 })
  else (0, h)

/-- `kh_put` clears the deleted buckets or grows the table when too many buckets are in use. -/
def putRoom (hash : κ → Nat) (alloc : ResizeAlloc) (h : Khash κ ν) : Option (Bool × Khash κ ν) :=
  if h.nOccupied ≥ h.upperBound then
    if h.nBuckets > (h.size <<< 1) % 2 ^ 32 then khResize hash alloc (h.nBuckets - 1) h
    else khResize hash alloc ((h.nBuckets + 1) % 2 ^ 32) h
  else some (true, h)

/-- `kh_put`; the bucket, `*ret` and the table. -/
def khPut [DecidableEq κ] (hash : κ → Nat) (alloc : ResizeAlloc) (key : κ) (h : Khash κ ν) :
    Option (Nat × Int × Khash κ ν) := do
  let (room, h) ← putRoom hash alloc h
  if room then
    let x ← putBucket hash h key
    let (ret, h) := putKey key x h
    some (x, ret, h)
  else some (h.nBuckets, -1, h)

/-- `kh_del` -/
def khDel (x : Nat) (h : Khash κ ν) : Khash κ ν :=
  if x ≠ h.nBuckets && !acIseither h.flags x then
    { h with flags := acSetIsdelTrue h.flags x, size := h.size - 1 }
  else h

/-- `kh_val(h, x) = v` -/
def Khash.setVal (h : Khash κ ν) (x : Nat) (v : ν) : Khash κ ν :=
  { h with vals := Function.update h.vals x v }

/-- What a loop from `kh_begin` to `kh_end` that asks `kh_exist` visits. -/
def Khash.entries (h : Khash κ ν) : List (κ × ν) :=
  ((List.range h.nBuckets).filter fun k => !acIseither h.flags k).map fun k => (h.keys k, h.vals k)

end Sdiol
