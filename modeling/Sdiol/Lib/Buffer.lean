import Mathlib.Data.List.Range
import Mathlib.Logic.Function.Basic

namespace Buffer

/-!
# Arrays that are read and written in slices

An array is a function on its indices.  `slice` reads consecutive cells, `copy` is `memcpy`
from a list and `move` is `memmove` within one array.  The lemmas say what a slice holds after
the cells below, in or above it were written:

* `slice_copy` — what was written is read back;
* `slice_copy_of_le` — writing behind a slice leaves it alone;
* `slice_append_copy` — writing right behind a slice appends to it;
* `slice_move` — moving cells to the front shifts the slice;
* `slice_push`, `slice_close` — an array with a length gains a last element, or loses one and
  closes the gap.
-/

variable {α : Type*}

/-- The `n` cells from `start` on. -/
def slice (buf : Nat → α) (start n : Nat) : List α :=
  (List.range n).map fun i => buf (start + i)

/-- `memcpy(&buf[start], xs, length xs)` -/
def copy (buf : Nat → α) (start : Nat) (xs : List α) (i : Nat) : α :=
  if start ≤ i then (xs[i - start]?).getD (buf i) else buf i

/-- `memmove(&buf[dst], &buf[src], n)` -/
def move (buf : Nat → α) (dst src n : Nat) : Nat → α := copy buf dst (slice buf src n)

@[simp] theorem slice_zero (buf : Nat → α) (start : Nat) : slice buf start 0 = [] := rfl

@[simp] theorem length_slice (buf : Nat → α) (start n : Nat) : (slice buf start n).length = n := by
  simp [slice]

theorem getElem?_slice (buf : Nat → α) (start n i : Nat) :
    (slice buf start n)[i]? = if i < n then some (buf (start + i)) else none := by
  unfold slice
  rw [List.getElem?_map]
  by_cases h : i < n
  · rw [if_pos h, List.getElem?_range h]
    rfl
  · rw [if_neg h, List.getElem?_eq_none (by simpa using h)]
    rfl

/-- Two slices in a row are one. -/
theorem slice_add (buf : Nat → α) (start m n : Nat) :
    slice buf start (m + n) = slice buf start m ++ slice buf (start + m) n := by
  unfold slice
  rw [List.range_add, List.map_append, List.map_map]
  congr 1
  apply List.map_congr_left
  intro i _
  show buf (start + (m + i)) = buf (start + m + i)
  rw [Nat.add_assoc]

theorem take_slice (buf : Nat → α) (start : Nat) {m n : Nat} (h : m ≤ n) :
    (slice buf start n).take m = slice buf start m := by
  obtain ⟨k, rfl⟩ := Nat.exists_eq_add_of_le h
  rw [slice_add, List.take_left' (length_slice buf start m)]

theorem drop_slice (buf : Nat → α) (start : Nat) {m n : Nat} (h : m ≤ n) :
    (slice buf start n).drop m = slice buf (start + m) (n - m) := by
  obtain ⟨k, rfl⟩ := Nat.exists_eq_add_of_le h
  rw [slice_add, List.drop_left' (length_slice buf start m), Nat.add_sub_cancel_left]

theorem copy_of_lt (buf : Nat → α) {start i : Nat} (xs : List α) (h : i < start) :
    copy buf start xs i = buf i := if_neg (by omega)

theorem copy_add (buf : Nat → α) (start : Nat) (xs : List α) (i : Nat) :
    copy buf start xs (start + i) = (xs[i]?).getD (buf (start + i)) := by
  unfold copy
  rw [if_pos (Nat.le_add_right start i), Nat.add_sub_cancel_left]

/-- **Read back.** What was written is read. -/
theorem slice_copy (buf : Nat → α) (start : Nat) (xs : List α) :
    slice (copy buf start xs) start xs.length = xs := by
  apply List.ext_getElem?
  intro i
  rw [getElem?_slice]
  by_cases h : i < xs.length
  · rw [if_pos h, copy_add, List.getElem?_eq_getElem h]
    rfl
  · rw [if_neg h, List.getElem?_eq_none (by omega)]

/-- **Frame.** Writing behind a slice leaves it alone. -/
theorem slice_copy_of_le (buf : Nat → α) {start n dst : Nat} (xs : List α) (h : start + n ≤ dst) :
    slice (copy buf dst xs) start n = slice buf start n := by
  unfold slice
  apply List.map_congr_left
  intro i hi
  rw [List.mem_range] at hi
  exact copy_of_lt buf xs (by omega)

/-- **Append.** Writing right behind a slice appends to it. -/
theorem slice_append_copy (buf : Nat → α) (n : Nat) (xs : List α) :
    slice (copy buf n xs) 0 (n + xs.length) = slice buf 0 n ++ xs := by
  rw [slice_add, slice_copy_of_le buf xs (by omega), Nat.zero_add, slice_copy]

/-- **Shift.** Moving the last `n` cells to the front drops the cells before them. -/
theorem slice_move (buf : Nat → α) (src n : Nat) :
    slice (move buf 0 src n) 0 n = (slice buf 0 (src + n)).drop src := by
  have hlen : (slice buf src n).length = n := length_slice buf src n
  have hback := slice_copy buf 0 (slice buf src n)
  rw [hlen] at hback
  rw [drop_slice buf 0 (Nat.le_add_right src n), Nat.zero_add, Nat.add_sub_cancel_left]
  exact hback

theorem slice_push (buf : Nat → α) (n : Nat) (x : α) :
    slice (Function.update buf n x) 0 (n + 1) = slice buf 0 n ++ [x] := by
  have hlast : slice (Function.update buf n x) n 1 = [x] := by
    show [Function.update buf n x (n + 0)] = [x]
    rw [Nat.add_zero, Function.update_self]
  have hrest : slice (Function.update buf n x) 0 n = slice buf 0 n := by
    unfold slice
    apply List.map_congr_left
    intro i hi
    have hne : 0 + i ≠ n := by
      have hlt := List.mem_range.mp hi
      omega
    exact Function.update_of_ne hne x buf
  rw [slice_add, hrest, Nat.zero_add, hlast]

/-- **Close the gap.** Moving the `m` cells behind cell `i` one to the front removes cell `i`. -/
theorem slice_close (buf : Nat → α) {i n m : Nat} (hi : i < n) (hn : n ≤ i + 1 + m) :
    slice (move buf i (i + 1) m) 0 (n - 1) = (slice buf 0 n).eraseIdx i := by
  apply List.ext_getElem?
  intro j
  rw [List.getElem?_eraseIdx]
  simp only [getElem?_slice, Nat.zero_add]
  by_cases hj : j < i
  · -- before the gap
    have hlt : j < n - 1 := by omega
    have hlt' : j < n := by omega
    rw [if_pos hlt, if_pos hj, if_pos hlt']
    exact congrArg some (copy_of_lt buf _ hj)
  · rw [if_neg hj]
    by_cases hlt : j < n - 1
    · have hlt' : j + 1 < n := by omega
      have hin : j - i < m := by omega
      have hsrc : i + 1 + (j - i) = j + 1 := by omega
      rw [if_pos hlt, if_pos hlt']
      unfold move copy
      rw [if_pos (by omega), getElem?_slice, if_pos hin, hsrc]
      rfl
    · have hge : ¬ j + 1 < n := by omega
      rw [if_neg hlt, if_neg hge]

end Buffer
