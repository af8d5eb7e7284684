import Mathlib.Data.List.Range
import Mathlib.Logic.Function.Basic

namespace RingBuffer

/-!
# Ring buffers: a window of a backing array, read modulo its capacity

A ring buffer is a backing array `buf` of capacity `cap`, the index `start` of the oldest
element and the number `len` of stored elements.  Element `i` lives in the cell
`(start + i) % cap`.  `contents` reads the stored elements, oldest first; the lemmas below
say what the three updates of a double-ended queue do to that list:

* `contents_push` — writing the cell behind the newest element appends;
* `contents_succ` / `contents_rest` — advancing `start` removes the oldest element;
* `contents_succ_last` — shortening `len` removes the newest element.
-/

variable {α : Type*}

/-- The stored elements, oldest first. -/
def contents (cap : Nat) (buf : Nat → α) (start len : Nat) : List α :=
  (List.range len).map fun i => buf ((start + i) % cap)

@[simp] theorem contents_zero (cap : Nat) (buf : Nat → α) (start : Nat) :
    contents cap buf start 0 = [] := rfl

@[simp] theorem length_contents (cap : Nat) (buf : Nat → α) (start len : Nat) :
    (contents cap buf start len).length = len := by
  simp [contents]

/-- Two offsets within one revolution name different cells. -/
theorem cell_ne {start i n cap : Nat} (hi : i < n) (hn : n < cap) :
    (start + i) % cap ≠ (start + n) % cap := by
  intro he
  have hmod : (start + n - (start + i)) % cap = 0 := Nat.sub_mod_eq_zero_of_mod_eq he.symm
  have hlt : start + n - (start + i) < cap := by omega
  rw [Nat.mod_eq_of_lt hlt] at hmod
  omega

/-- **Append.** Writing the cell behind the newest element appends it, as long as the
    buffer is not full. -/
theorem contents_push (cap : Nat) (buf : Nat → α) (start len : Nat) (x : α) (hlen : len < cap) :
    contents cap (Function.update buf ((start + len) % cap) x) start (len + 1)
      = contents cap buf start len ++ [x] := by
  unfold contents
  rw [List.range_succ, List.map_append, List.map_singleton, Function.update_self]
  congr 1
  apply List.map_congr_left
  intro i hi
  rw [List.mem_range] at hi
  exact Function.update_of_ne (cell_ne hi hlen) _ _

/-- The elements behind the oldest one, read at their offsets `1, 2, …` -/
theorem contents_rest (cap : Nat) (buf : Nat → α) (start len : Nat) :
    (List.range' 1 len).map (fun i => buf ((start + i) % cap))
      = contents cap buf ((start + 1) % cap) len := by
  unfold contents
  rw [List.range'_eq_map_range, List.map_map]
  apply List.map_congr_left
  intro i _
  simp only [Function.comp, Nat.mod_add_mod]
  congr 2
  omega

/-- **Remove the oldest.** The oldest element is the head of the contents, and advancing
    `start` leaves the tail. -/
theorem contents_succ (cap : Nat) (buf : Nat → α) (start len : Nat) :
    contents cap buf start (len + 1)
      = buf (start % cap) :: contents cap buf ((start + 1) % cap) len := by
  rw [← contents_rest]
  unfold contents
  rw [List.range_eq_range', List.range'_succ, List.map_cons, Nat.add_zero]

/-- **Remove the newest.** The newest element is the last of the contents, and shortening
    `len` leaves the others. -/
theorem contents_succ_last (cap : Nat) (buf : Nat → α) (start len : Nat) :
    contents cap buf start (len + 1)
      = contents cap buf start len ++ [buf ((start + len) % cap)] := by
  unfold contents
  rw [List.range_succ, List.map_append, List.map_singleton]

end RingBuffer
