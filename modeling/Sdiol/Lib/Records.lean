import Mathlib
import Sdiol.Lib.Buffer

namespace Records

/-!
# Records one behind the other

An array holds records of different sizes, one behind the other, and the size of a record can be
read off at its start.  A loop goes from one record to the next by its size.

* `starts` — where the loop finds records;
* `starts_flatten` — it finds each record that was put there once, at its start and in order;
* `starts_map` — so what it reads off each place is what was to be read off the record;
* `starts_fuel` — and the loop ends if no size is 0.

`le32` and `le32At` are a 32-bit number as four bytes, the lowest first.
-/

variable {α β : Type*}

/-- The places visited by `for(i = …; i < stop; i += size(i))`, for at most `fuel` iterations. -/
def starts (size : Nat → Nat) (stop : Nat) : Nat → Nat → List Nat
  | 0, _ => []
  | fuel + 1, i => if i < stop then i :: starts size stop fuel (i + size i) else []

/-- If every record has a cell, then no more iterations are needed than there are cells. -/
theorem starts_fuel {size : Nat → Nat} (hsize : ∀ i, 0 < size i) {stop fuel i : Nat}
    (hfuel : stop - i ≤ fuel) (more : Nat) :
    starts size stop (fuel + more) i = starts size stop fuel i := by
  induction fuel generalizing i with
  | zero =>
    have hdone : ¬ i < stop := by omega
    cases more with
    | zero => rfl
    | succ more => rw [Nat.zero_add, starts, starts, if_neg hdone]
  | succ fuel ih =>
    have hpos := hsize i
    rw [Nat.add_right_comm, starts, starts]
    by_cases hi : i < stop
    · rw [if_pos hi, if_pos hi, ih (by omega)]
    · rw [if_neg hi, if_neg hi]

/-- **Round trip.** Where records stand one behind the other, each one is found at its place, if
    at that place its size is read. -/
theorem starts_flatten {buf : Nat → α} {size : Nat → Nat} {records : List (List α)}
    (hnonempty : ∀ r ∈ records, r ≠ [])
    (hsize : ∀ r ∈ records, ∀ i, Buffer.slice buf i r.length = r → size i = r.length)
    {i fuel : Nat} (hbuf : Buffer.slice buf i records.flatten.length = records.flatten)
    (hfuel : records.length ≤ fuel) :
    List.Forall₂ (fun j r => Buffer.slice buf j r.length = r)
      (starts size (i + records.flatten.length) fuel i) records := by
  induction records generalizing i fuel with
  | nil =>
    have hdone : starts size (i + ([] : List (List α)).flatten.length) fuel i = [] := by
      cases fuel with
      | zero => rfl
      | succ fuel => exact if_neg (by simp)
    rw [hdone]
    exact .nil
  | cons r records ih =>
    obtain ⟨fuel, rfl⟩ : ∃ k, fuel = k + 1 := by
      rw [List.length_cons] at hfuel
      exact ⟨fuel - 1, by omega⟩
    rw [List.flatten_cons, List.length_append, Buffer.slice_add] at hbuf
    obtain ⟨hfirst, hrest⟩ := List.append_inj hbuf (Buffer.length_slice ..)
    have hpos := List.length_pos_iff.mpr (hnonempty r List.mem_cons_self)
    rw [starts, List.flatten_cons, List.length_append, if_pos (by omega),
      hsize r List.mem_cons_self i hfirst, ← Nat.add_assoc]
    exact .cons hfirst (ih (fun r' hr' => hnonempty r' (List.mem_cons_of_mem _ hr'))
      (fun r' hr' => hsize r' (List.mem_cons_of_mem _ hr')) hrest (Nat.le_of_succ_le_succ hfuel))

/-- What is read at each place is what stands in the record there. -/
theorem starts_map {buf : Nat → α} {size : Nat → Nat} {encode : β → List α} {xs : List β}
    (hnonempty : ∀ x ∈ xs, encode x ≠ [])
    (hsize : ∀ x ∈ xs, ∀ i, Buffer.slice buf i (encode x).length = encode x →
      size i = (encode x).length)
    {γ : Type*} {f : Nat → γ} {g : β → γ}
    (hread : ∀ x ∈ xs, ∀ i, Buffer.slice buf i (encode x).length = encode x → f i = g x)
    {i fuel : Nat} (hbuf : Buffer.slice buf i (xs.flatMap encode).length = xs.flatMap encode)
    (hfuel : xs.length ≤ fuel) :
    (starts size (i + (xs.flatMap encode).length) fuel i).map f = xs.map g := by
  rw [List.flatMap_def] at hbuf ⊢
  have hplaces := starts_flatten (List.forall_mem_map.mpr hnonempty)
    (List.forall_mem_map.mpr hsize) hbuf (by simpa using hfuel)
  rw [List.forall₂_map_right_iff] at hplaces
  generalize starts size (i + (xs.map encode).flatten.length) fuel i = places at hplaces
  clear hbuf hfuel hnonempty hsize
  induction hplaces with
  | nil => rfl
  | cons hfirst _ ih =>
    rw [List.map_cons, List.map_cons, hread _ List.mem_cons_self _ hfirst,
      ih fun x hx => hread x (List.mem_cons_of_mem _ hx)]

/-! ### Numbers -/

/-- A 32-bit number as it stands in memory. -/
def le32 (n : Nat) : List UInt8 :=
  [UInt8.ofNat n, UInt8.ofNat (n / 2 ^ 8), UInt8.ofNat (n / 2 ^ 16), UInt8.ofNat (n / 2 ^ 24)]

/-- The 32-bit number that stands in memory at `i`. -/
def le32At (mem : Nat → UInt8) (i : Nat) : Nat :=
  (mem i).toNat + 2 ^ 8 * (mem (i + 1)).toNat + 2 ^ 16 * (mem (i + 2)).toNat +
    2 ^ 24 * (mem (i + 3)).toNat

@[simp] theorem length_le32 (n : Nat) : (le32 n).length = 4 := rfl

/-- A number is read back. -/
theorem le32At_of_slice {mem : Nat → UInt8} {i n : Nat} (hn : n < 2 ^ 32)
    (h : Buffer.slice mem i 4 = le32 n) : le32At mem i = n := by
  have hbytes : [mem (i + 0), mem (i + 1), mem (i + 2), mem (i + 3)] = le32 n := h
  obtain ⟨h₀, h₁, h₂, h₃⟩ : mem i = UInt8.ofNat n ∧ mem (i + 1) = UInt8.ofNat (n / 2 ^ 8) ∧
      mem (i + 2) = UInt8.ofNat (n / 2 ^ 16) ∧ mem (i + 3) = UInt8.ofNat (n / 2 ^ 24) := by
    simpa [le32] using hbytes
  unfold le32At
  rw [h₀, h₁, h₂, h₃]
  simp only [UInt8.toNat_ofNat']
  omega

end Records
