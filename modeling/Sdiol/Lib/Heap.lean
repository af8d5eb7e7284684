import Mathlib.Logic.Function.Basic
import Mathlib.Order.Nat

/-!
# A heap that can run out of memory

Blocks of type `β` at addresses.  `malloc` gives out addresses one after the other and fails
once `left` calls have succeeded; an address is never given out again, so that a block that was
freed twice, or used after it was freed, cannot be mistaken for a new one: `store` and `free`
fail if there is no block.

* `Wrote p o h h'` — at most the block at `p` has changed, and it is `o`;
* `Freed a b h h'` — the blocks from `a` up to `b` are gone and nothing else has changed;
* `Swept p o a b h h'` — the same, but the block at `p` is now `o`;
* `Extends h h'` — every block of `h` is as it was, there may be new ones;
* `Clean n h` — no block is left from `n` on.

The lemmas say how these compose.
-/

/-- `next` is the address of the next block, `left` the number of calls of `malloc` that
    succeed. -/
@[ext] structure Heap (β : Type*) where
  block : Nat → Option β
  next : Nat
  left : Nat
  fresh : ∀ p, next ≤ p → block p = none

namespace Heap

variable {β : Type*}

theorem lt_next {h : Heap β} {p : Nat} {b : β} (hp : h.block p = some b) : p < h.next := by
  by_contra hge
  rw [h.fresh p (by omega)] at hp
  exact absurd hp (by simp)

/-! ### Operations -/

/-- No block was allocated yet. -/
def empty (left : Nat) : Heap β where
  block _ := none
  next := 0
  left := left
  fresh _ _ := rfl

/-- The heap with one block more. -/
def push (h : Heap β) (b : β) : Heap β where
  block := Function.update h.block h.next (some b)
  next := h.next + 1
  left := h.left - 1
  fresh := by
    intro p hp
    rw [Function.update_of_ne (by omega)]
    exact h.fresh p (by omega)

/-- `malloc`: the address of a new block that holds `b`, or `NULL`. -/
def malloc (b : β) (h : Heap β) : Heap β × Option Nat :=
  if h.left = 0 then (h, none) else (h.push b, some h.next)

/-- The heap with another block, or none, at the address of a block. -/
def put (h : Heap β) (p : Nat) (o : Option β) (hp : (h.block p).isSome = true) : Heap β :=
  { h with
    block := Function.update h.block p o
    fresh := by
      intro q hq
      have hne : q ≠ p := by
        rintro rfl
        rw [h.fresh q hq] at hp
        exact absurd hp (by simp)
      rw [Function.update_of_ne hne]
      exact h.fresh q hq }

/-- A write to the block at `p`. -/
def store (p : Nat) (b : β) (h : Heap β) : Option (Heap β) :=
  if hp : (h.block p).isSome = true then some (h.put p (some b) hp) else none

/-- `free(p)` -/
def free (p : Nat) (h : Heap β) : Option (Heap β) :=
  if hp : (h.block p).isSome = true then some (h.put p none hp) else none

/-! ### What they change -/

/-- Beside the block at `p`, which is `o` afterwards, nothing has changed. -/
structure Wrote (p : Nat) (o : Option β) (h h' : Heap β) : Prop where
  next : h'.next = h.next
  left : h'.left = h.left
  here : h'.block p = o
  elsewhere : ∀ q, q ≠ p → h'.block q = h.block q

/-- The blocks from `a` up to `b` are gone, and nothing else has changed. -/
structure Freed (a b : Nat) (h h' : Heap β) : Prop where
  next : h'.next = h.next
  left : h'.left = h.left
  gone : ∀ p, a ≤ p → p < b → h'.block p = none
  kept : ∀ p, p < a ∨ b ≤ p → h'.block p = h.block p

/-- The blocks from `a` up to `b` are gone, the one at `p` is `o`, and nothing else has
    changed. -/
structure Swept (p : Nat) (o : Option β) (a b : Nat) (h h' : Heap β) : Prop where
  next : h'.next = h.next
  left : h'.left = h.left
  here : h'.block p = o
  gone : ∀ q, a ≤ q → q < b → h'.block q = none
  kept : ∀ q, q ≠ p → q < a ∨ b ≤ q → h'.block q = h.block q

/-- Every block of `h` is in `h'` as it was, and `malloc` has succeeded once for each address
    that `h'` has given out since. -/
structure Extends (h h' : Heap β) : Prop where
  next : h.next ≤ h'.next
  budget : h'.next + h'.left = h.next + h.left
  kept : ∀ p, p < h.next → h'.block p = h.block p

/-- No block is left from `n` on. -/
def Clean (n : Nat) (h : Heap β) : Prop := ∀ p, n ≤ p → h.block p = none

variable {h h₁ h₂ h₀ h' : Heap β} {a b m p n : Nat} {o o' : Option β}

theorem malloc_of_left (hleft : h.left ≠ 0) (x : β) : h.malloc x = (h.push x, some h.next) :=
  if_neg hleft

theorem malloc_of_none (hleft : h.left = 0) (x : β) : h.malloc x = (h, none) := if_pos hleft

@[simp] theorem push_next (h : Heap β) (x : β) : (h.push x).next = h.next + 1 := rfl

@[simp] theorem push_left (h : Heap β) (x : β) : (h.push x).left = h.left - 1 := rfl

@[simp] theorem push_block_next (h : Heap β) (x : β) : (h.push x).block h.next = some x :=
  Function.update_self ..

theorem push_block_of_ne (h : Heap β) (x : β) (hp : p ≠ h.next) :
    (h.push x).block p = h.block p := Function.update_of_ne hp ..

theorem wrote_put (hp : (h.block p).isSome = true) : Wrote p o h (h.put p o hp) :=
  ⟨rfl, rfl, Function.update_self .., fun _ hq => Function.update_of_ne hq ..⟩

/-- **Store.** A live block can be written to. -/
theorem exists_store {x : β} (hp : h.block p = some x) (y : β) :
    ∃ h', h.store p y = some h' ∧ Wrote p (some y) h h' := by
  have hsome : (h.block p).isSome = true := by rw [hp]; rfl
  exact ⟨_, dif_pos hsome, wrote_put hsome⟩

/-- **Free.** A live block can be freed. -/
theorem exists_free {x : β} (hp : h.block p = some x) :
    ∃ h', h.free p = some h' ∧ Freed p (p + 1) h h' := by
  have hsome : (h.block p).isSome = true := by rw [hp]; rfl
  have hput : Wrote p none h (h.put p none hsome) := wrote_put hsome
  refine ⟨_, dif_pos hsome, hput.next, hput.left, fun q hle hlt => ?_, fun q hq => ?_⟩
  · obtain rfl : q = p := by omega
    exact hput.here
  · exact hput.elsewhere q (by omega)

/-- Storing what is there already changes nothing. -/
theorem store_self {x : β} (hp : h.block p = some x) : h.store p x = some h := by
  have hsome : (h.block p).isSome = true := by rw [hp]; rfl
  have hsame : h.put p (some x) hsome = h := by
    ext1
    · show Function.update h.block p (some x) = h.block
      rw [← hp, Function.update_eq_self]
    · rfl
    · rfl
  rw [store, dif_pos hsome, hsame]

/-! ### How changes compose -/

theorem Extends.refl (h : Heap β) : Extends h h := ⟨le_rfl, rfl, fun _ _ => rfl⟩

theorem Extends.trans (h₁₂ : Extends h h₁) (h₂₃ : Extends h₁ h₂) : Extends h h₂ := by
  refine ⟨h₁₂.next.trans h₂₃.next, h₂₃.budget.trans h₁₂.budget, fun p hp => ?_⟩
  rw [h₂₃.kept p (hp.trans_le h₁₂.next), h₁₂.kept p hp]

theorem extends_push (hleft : h.left ≠ 0) (x : β) : Extends h (h.push x) := by
  refine ⟨Nat.le_succ _, ?_, fun p hp => push_block_of_ne h x (by omega)⟩
  rw [push_next, push_left]
  omega

/-- Writing to a new block leaves the old ones alone. -/
theorem Extends.wrote (hext : Extends h₀ h) (hw : Wrote p o h h') (hp : h₀.next ≤ p) :
    Extends h₀ h' := by
  refine ⟨hext.next.trans_eq hw.next.symm, ?_, fun q hq => ?_⟩
  · rw [hw.next, hw.left, hext.budget]
  · rw [hw.elsewhere q (by omega), hext.kept q hq]

/-- What was there is only changed where it was written to. -/
theorem Extends.kept_wrote (hext : Extends h h₁) (hw : Wrote p o h₁ h₂) {q : Nat} (hne : q ≠ p)
    (hq : q < h.next) : h₂.block q = h.block q := by
  rw [hw.elsewhere q hne, hext.kept q hq]

theorem Extends.freed (hext : Extends h₀ h) (hf : Freed a b h h') (ha : h₀.next ≤ a) :
    Extends h₀ h' := by
  refine ⟨hext.next.trans_eq hf.next.symm, ?_, fun q hq => ?_⟩
  · rw [hf.next, hf.left, hext.budget]
  · rw [hf.kept q (.inl (by omega)), hext.kept q hq]

/-- A block of `h` is a block of `h'`. -/
theorem Extends.block (hext : Extends h h') {x : β} (hp : h.block p = some x) :
    h'.block p = some x := (hext.kept p (lt_next hp)).trans hp

/-- If no new block is left, nothing has changed. -/
theorem Extends.block_eq_iff (hext : Extends h h') : h'.block = h.block ↔ Clean h.next h' := by
  constructor
  · intro heq p hp
    rw [heq]
    exact h.fresh p hp
  · intro hclean
    funext p
    by_cases hp : p < h.next
    · exact hext.kept p hp
    · rw [hclean p (by omega), h.fresh p (by omega)]

theorem Freed.refl (h : Heap β) (a : Nat) : Freed a a h h :=
  ⟨rfl, rfl, fun p hle hlt => absurd hlt (by omega), fun _ _ => rfl⟩

/-- Two neighbouring pieces, the lower one first. -/
theorem Freed.trans (hf : Freed a m h h₁) (hf' : Freed m b h₁ h₂) (ham : a ≤ m) (hmb : m ≤ b) :
    Freed a b h h₂ := by
  refine ⟨hf'.next.trans hf.next, hf'.left.trans hf.left, fun p hle hlt => ?_, fun p hp => ?_⟩
  · by_cases hpm : p < m
    · rw [hf'.kept p (.inl hpm)]
      exact hf.gone p hle hpm
    · exact hf'.gone p (by omega) hlt
  · rw [hf'.kept p (by omega), hf.kept p (by omega)]

/-- The last blocks are gone. -/
theorem Freed.clean (hf : Freed a h.next h h') : Clean a h' := by
  intro p hp
  by_cases hlt : p < h.next
  · exact hf.gone p hp hlt
  · rw [hf.kept p (.inr (by omega)), h.fresh p (by omega)]

/-- A block that is written to and freed: what is left is behind it. -/
theorem Wrote.clean_iff (hw : Wrote p o h h₁) (hf : Freed p (p + 1) h₁ h₂) :
    Clean p h₂ ↔ Clean (p + 1) h := by
  have hsame : ∀ q, p + 1 ≤ q → h₂.block q = h.block q := by
    intro q hq
    rw [hf.kept q (.inr hq), hw.elsewhere q (by omega)]
  constructor
  · intro hclean q hq
    rw [← hsame q hq]
    exact hclean q (by omega)
  · intro hclean q hq
    by_cases hqp : q < p + 1
    · exact hf.gone q hq hqp
    · rw [hsame q (by omega)]
      exact hclean q (by omega)

theorem Swept.refl (h : Heap β) (p a : Nat) : Swept p (h.block p) a a h h :=
  ⟨rfl, rfl, rfl, fun q hle hlt => absurd hlt (by omega), fun _ _ _ => rfl⟩

theorem Freed.swept (hf : Freed a b h h₁) (hw : Wrote p o h₁ h₂) (hp : p < a) :
    Swept p o a b h h₂ := by
  refine ⟨hw.next.trans hf.next, hw.left.trans hf.left, hw.here, fun q hle hlt => ?_,
    fun q hne hq => ?_⟩
  · rw [hw.elsewhere q (by omega)]
    exact hf.gone q hle hlt
  · rw [hw.elsewhere q hne, hf.kept q hq]

theorem Swept.trans (hs : Swept p o a m h h₁) (hs' : Swept p o' m b h₁ h₂) (hp : p < a)
    (ham : a ≤ m) (hmb : m ≤ b) : Swept p o' a b h h₂ := by
  refine ⟨hs'.next.trans hs.next, hs'.left.trans hs.left, hs'.here, fun q hle hlt => ?_,
    fun q hne hq => ?_⟩
  · by_cases hqm : q < m
    · rw [hs'.kept q (by omega) (.inl hqm)]
      exact hs.gone q hle hqm
    · exact hs'.gone q (by omega) hlt
  · rw [hs'.kept q hne (by omega), hs.kept q hne (by omega)]

/-- The block in front is freed last. -/
theorem Swept.freed (hs : Swept p o (p + 1) b h h₁) (hf : Freed p (p + 1) h₁ h₂) (hb : p < b) :
    Freed p b h h₂ := by
  refine ⟨hf.next.trans hs.next, hf.left.trans hs.left, fun q hle hlt => ?_, fun q hq => ?_⟩
  · by_cases hqp : q = p
    · exact hf.gone q hle (by omega)
    · rw [hf.kept q (by omega)]
      exact hs.gone q (by omega) hlt
  · rw [hf.kept q (by omega), hs.kept q (by omega) (by omega)]

end Heap
