import Mathlib.Algebra.BigOperators.Group.Finset.Basic
import Mathlib.Algebra.BigOperators.Group.Finset.Piecewise
import Mathlib.Algebra.Order.BigOperators.Group.Finset
import Mathlib.Data.Fintype.Basic
import Mathlib.Data.List.Perm.Basic

namespace Counter

open scoped BigOperators

/-!
# Press/release counters

An *edge* is a `Bool`: `true` counts up (a press), `false` counts down (a release).

* `bump` — the counter that ignores a release at zero instead of going negative;
* `balance` — presses minus releases of a list of edges;
* `Covered n l` — starting from `n`, no initial segment of `l` releases more than is there.
  On a covered list `bump` never ignores anything (`foldl_bump_of_covered`);
* `Balanced l` — a covered list whose total is zero, so that it leaves every counter as it
  was (`foldl_bump_of_balanced`);
* `part a l` — the share of one party in a list that several parties wrote; parties whose own
  shares are covered write a covered list (`covered_merge`), whose balance is the sum of theirs
  (`balance_merge`);
* `tally P` — the number of indices of a finite type at which `P` holds, with the one law
  that changing `P` at one index changes it there only (`tally_change`);
* `countP_eraseIdx`, `countP_change` — the same for the elements of a list, where one is taken
  out, or `P` changes at the one element that has a certain key;
* `Caps h l h'` and `Backs h l h'` — a party that shares the counter with others and has a
  stake of `h` in it acts by the edges `l` and ends with a stake of `h'`, such that the sum of
  all stakes stays an upper bound of the counter (`Caps`), or a lower bound (`Backs`).
-/

/-- One edge: a release at zero is ignored. -/
def bump (n : Int) : Bool → Int
  | true  => n + 1
  | false => if n < 1 then n else n - 1

/-- Presses minus releases. -/
def balance (l : List Bool) : Int := (l.count true : Int) - l.count false

@[simp] theorem balance_nil : balance [] = 0 := rfl
@[simp] theorem balance_true (l : List Bool) : balance (true :: l) = balance l + 1 := by
  simp [balance]; omega
@[simp] theorem balance_false (l : List Bool) : balance (false :: l) = balance l - 1 := by
  simp [balance]; omega
@[simp] theorem balance_append (l₁ l₂ : List Bool) :
    balance (l₁ ++ l₂) = balance l₁ + balance l₂ := by
  simp [balance]; omega

/-- Starting from `n`, no initial segment of `l` releases more than has been pressed. -/
def Covered (n : Int) (l : List Bool) : Prop := ∀ p, p <+: l → 0 ≤ n + balance p

theorem covered_nil {n : Int} (hn : 0 ≤ n) : Covered n [] := by
  intro p hp
  rw [List.prefix_nil.mp hp]
  simpa using hn

theorem Covered.nonneg {n : Int} {l : List Bool} (h : Covered n l) : 0 ≤ n := by
  simpa using h [] List.nil_prefix

theorem covered_cons {n : Int} {e : Bool} {l : List Bool} :
    Covered n (e :: l) ↔ 0 ≤ n ∧ Covered (n + balance [e]) l := by
  constructor
  · intro h
    refine ⟨h.nonneg, fun p hp => ?_⟩
    have := h (e :: p) (List.cons_prefix_cons.mpr ⟨rfl, hp⟩)
    rw [show e :: p = [e] ++ p from rfl, balance_append] at this
    omega
  · rintro ⟨hn, h⟩ p hp
    cases p with
    | nil => simpa using hn
    | cons x q =>
      obtain ⟨rfl, hq⟩ := List.cons_prefix_cons.mp hp
      have := h q hq
      rw [show x :: q = [x] ++ q from rfl, balance_append]
      omega

theorem covered_append {n : Int} {l₁ l₂ : List Bool} :
    Covered n (l₁ ++ l₂) ↔ Covered n l₁ ∧ Covered (n + balance l₁) l₂ := by
  induction l₁ generalizing n with
  | nil =>
    simp only [List.nil_append, balance_nil, add_zero]
    exact ⟨fun h => ⟨covered_nil h.nonneg, h⟩, fun h => h.2⟩
  | cons e l ih =>
    rw [List.cons_append, covered_cons, ih, covered_cons, show e :: l = [e] ++ l from rfl,
      balance_append, add_assoc, and_assoc]

/-- A larger start covers what a smaller one covers. -/
theorem Covered.mono {m n : Int} {l : List Bool} (h : Covered m l) (hmn : m ≤ n) :
    Covered n l := by
  intro p hp
  have := h p hp
  omega

/-- **No release is ignored** on a covered list: the counter is presses minus releases. -/
theorem foldl_bump_of_covered {n : Int} {l : List Bool} (h : Covered n l) :
    l.foldl bump n = n + balance l := by
  induction l generalizing n with
  | nil => simp
  | cons e l ih =>
    obtain ⟨_, hl⟩ := covered_cons.mp h
    have hstep : bump n e = n + balance [e] := by
      cases e with
      | true => simp [bump]
      | false =>
        have := hl.nonneg
        simp only [balance_false, balance_nil] at this
        have hn : ¬ n < 1 := by omega
        simp only [bump, if_neg hn, balance_false, balance_nil]
        omega
    rw [List.foldl_cons, hstep, ih hl, show e :: l = [e] ++ l from rfl, balance_append]
    omega

theorem bump_nonneg {n : Int} (hn : 0 ≤ n) (e : Bool) : 0 ≤ bump n e := by
  cases e with
  | true => simp only [bump]; omega
  | false => simp only [bump]; split <;> omega

/-- A list that leaves every counter as it found it, without ever borrowing from it. -/
def Balanced (l : List Bool) : Prop := Covered 0 l ∧ balance l = 0

theorem balanced_nil : Balanced [] := ⟨covered_nil le_rfl, rfl⟩

theorem Balanced.append {l₁ l₂ : List Bool} (h₁ : Balanced l₁) (h₂ : Balanced l₂) :
    Balanced (l₁ ++ l₂) := by
  refine ⟨covered_append.mpr ⟨h₁.1, h₂.1.mono ?_⟩, ?_⟩
  · rw [h₁.2, add_zero]
  · rw [balance_append, h₁.2, h₂.2, add_zero]

/-- A press before and a release after. -/
theorem Balanced.wrap {l : List Bool} (h : Balanced l) : Balanced (true :: (l ++ [false])) := by
  refine ⟨covered_cons.mpr ⟨le_rfl, covered_append.mpr ⟨h.1.mono (by simp), ?_⟩⟩, ?_⟩
  · rw [h.2, covered_cons]
    exact ⟨by simp, covered_nil (by simp)⟩
  · simp [h.2]

theorem foldl_bump_of_balanced {n : Int} {l : List Bool} (hn : 0 ≤ n) (h : Balanced l) :
    l.foldl bump n = n := by
  rw [foldl_bump_of_covered (h.1.mono hn), h.2, add_zero]

/-- On the way through a list that never borrows, the counter never falls below its start. -/
theorem le_foldl_bump {n : Int} {l p : List Bool} (hn : 0 ≤ n) (hl : Covered 0 l)
    (hp : p <+: l) : n ≤ p.foldl bump n := by
  have hcov : Covered n p := by
    intro q hq
    have := hl q (hq.trans hp)
    omega
  have hlast := hl p hp
  rw [foldl_bump_of_covered hcov]
  omega

/-! ### Shared counters -/

/-- If all stakes together bound the counter from above, they still do afterwards. -/
def Caps (h : Nat) (l : List Bool) (h' : Nat) : Prop :=
  ∀ n others : Int, 0 ≤ n → 0 ≤ others → n ≤ others + h → l.foldl bump n ≤ others + h'

/-- If all stakes together bound the counter from below, they still do afterwards. -/
def Backs (h : Nat) (l : List Bool) (h' : Nat) : Prop :=
  ∀ n others : Int, 0 ≤ others → others + h ≤ n → others + h' ≤ l.foldl bump n

theorem foldl_bump_nonneg {n : Int} (hn : 0 ≤ n) (l : List Bool) : 0 ≤ l.foldl bump n := by
  induction l generalizing n with
  | nil => exact hn
  | cons e l ih => exact ih (bump_nonneg hn e)

theorem caps_nil (h : Nat) : Caps h [] h := fun _ _ _ _ hle => hle

theorem Caps.append {h h₁ h₂ : Nat} {l₁ l₂ : List Bool} (h₁₂ : Caps h l₁ h₁)
    (h₂₃ : Caps h₁ l₂ h₂) : Caps h (l₁ ++ l₂) h₂ := by
  intro n others hn hothers hle
  rw [List.foldl_append]
  exact h₂₃ _ others (foldl_bump_nonneg hn l₁) hothers (h₁₂ n others hn hothers hle)

theorem Caps.mono {h h₁ h₂ : Nat} {l : List Bool} (hl : Caps h l h₁) (hle : h₁ ≤ h₂) :
    Caps h l h₂ := by
  intro n others hn hothers hbound
  have := hl n others hn hothers hbound
  omega

/-- A press that adds one to the stake. -/
theorem caps_press (h : Nat) : Caps h [true] (h + 1) := by
  intro n others _ _ hle
  show n + 1 ≤ _
  push_cast
  omega

/-- A release that takes one from the stake. -/
theorem caps_release (h : Nat) : Caps (h + 1) [false] h := by
  intro n others hn hothers hle
  show (if n < 1 then n else n - 1) ≤ _
  push_cast at hle
  split <;> omega

theorem caps_balanced {l : List Bool} (h : Nat) (hl : Balanced l) : Caps h l h := by
  intro n others hn _ hle
  rw [foldl_bump_of_balanced hn hl]
  exact hle

theorem backs_nil (h : Nat) : Backs h [] h := fun _ _ _ hle => hle

theorem Backs.append {h h₁ h₂ : Nat} {l₁ l₂ : List Bool} (h₁₂ : Backs h l₁ h₁)
    (h₂₃ : Backs h₁ l₂ h₂) : Backs h (l₁ ++ l₂) h₂ := by
  intro n others hothers hle
  rw [List.foldl_append]
  exact h₂₃ _ others hothers (h₁₂ n others hothers hle)

theorem Backs.anti {h h₁ h₂ : Nat} {l : List Bool} (hl : Backs h l h₁) (hle : h₂ ≤ h₁) :
    Backs h l h₂ := by
  intro n others hothers hbound
  have := hl n others hothers hbound
  omega

theorem backs_press (h : Nat) : Backs h [true] (h + 1) := by
  intro n others _ hle
  show _ ≤ n + 1
  push_cast
  omega

theorem backs_release (h : Nat) : Backs (h + 1) [false] h := by
  intro n others hothers hle
  show _ ≤ (if n < 1 then n else n - 1)
  push_cast at hle
  split <;> omega

theorem backs_balanced {l : List Bool} (h : Nat) (hl : Balanced l) : Backs h l h := by
  intro n others hothers hle
  have hn : 0 ≤ n := by omega
  rw [foldl_bump_of_balanced hn hl]
  exact hle

/-! ### Interleaved parties -/

section Parts

variable {α β : Type*} [DecidableEq α]

/-- What party `a` contributed. -/
def part (a : α) (l : List (α × β)) : List β :=
  l.filterMap fun x => if x.1 = a then some x.2 else none

@[simp] theorem part_nil (a : α) : part a ([] : List (α × β)) = [] := rfl

theorem part_cons (a : α) (x : α × β) (l : List (α × β)) :
    part a (x :: l) = if x.1 = a then x.2 :: part a l else part a l := by
  unfold part
  by_cases h : x.1 = a <;> simp [h]

theorem part_mono (a : α) {p l : List (α × β)} (h : p <+: l) : part a p <+: part a l := by
  obtain ⟨t, rfl⟩ := h
  refine ⟨part a t, ?_⟩
  exact List.filterMap_append.symm

/-- The balance of an interleaving is the sum of the balances. -/
theorem balance_merge [Fintype α] (l : List (α × Bool)) :
    balance (l.map Prod.snd) = ∑ a, balance (part a l) := by
  induction l with
  | nil => simp
  | cons x l ih =>
    have hstep : ∀ a, balance (part a (x :: l))
        = (if x.1 = a then balance [x.2] else 0) + balance (part a l) := by
      intro a
      rw [part_cons]
      by_cases h : x.1 = a
      · rw [if_pos h, if_pos h, ← balance_append, List.singleton_append]
      · rw [if_neg h, if_neg h, zero_add]
    rw [List.map_cons, show x.2 :: l.map Prod.snd = [x.2] ++ l.map Prod.snd from rfl,
      balance_append, ih, Finset.sum_congr rfl fun a _ => hstep a, Finset.sum_add_distrib,
      Finset.sum_ite_eq, if_pos (Finset.mem_univ x.1)]

/-- **Interleaving.** If no party ever releases more than it pressed, then all together do
    not. -/
theorem covered_merge [Fintype α] {l : List (α × Bool)} (h : ∀ a, Covered 0 (part a l)) :
    Covered 0 (l.map Prod.snd) := by
  intro p hp
  obtain ⟨q, hq, rfl⟩ := List.prefix_map_iff.mp hp
  rw [zero_add, balance_merge]
  refine Finset.sum_nonneg fun a _ => ?_
  have hpart := h a (part a q) (part_mono a hq)
  rwa [zero_add] at hpart

/-- Then some key is held by all together exactly if it is held by one. -/
theorem balance_merge_pos [Fintype α] {l : List (α × Bool)} (h : ∀ a, Covered 0 (part a l)) :
    0 < balance (l.map Prod.snd) ↔ ∃ a, 0 < balance (part a l) := by
  have hnonneg : ∀ a ∈ Finset.univ, 0 ≤ balance (part a l) := by
    intro a _
    have hself := h a (part a l) (List.prefix_refl _)
    rwa [zero_add] at hself
  rw [balance_merge, Finset.sum_pos_iff_of_nonneg hnonneg]
  simp

end Parts

/-! ### Tallies over a finite index type -/

section Tally

variable {α : Type*} [Fintype α] [DecidableEq α]

/-- The number of indices at which `P` holds. -/
def tally (P : α → Bool) : Nat := ∑ a, (P a).toNat

/-- **One index at a time.** What changes at one index only changes the tally by the
    difference there. -/
theorem tally_change {P Q : α → Bool} {i : α} (h : ∀ a, a ≠ i → Q a = P a) :
    tally Q + (P i).toNat = tally P + (Q i).toNat := by
  have hrest : ∑ a ∈ Finset.univ.erase i, (Q a).toNat
      = ∑ a ∈ Finset.univ.erase i, (P a).toNat := by
    refine Finset.sum_congr rfl fun a ha => ?_
    rw [h a (Finset.ne_of_mem_erase ha)]
  unfold tally
  rw [← Finset.add_sum_erase Finset.univ (fun a => (Q a).toNat) (Finset.mem_univ i),
    ← Finset.add_sum_erase Finset.univ (fun a => (P a).toNat) (Finset.mem_univ i), hrest]
  omega

omit [DecidableEq α] in
theorem tally_eq_zero {P : α → Bool} (h : ∀ a, P a = false) : tally P = 0 := by
  simp [tally, h]

omit [DecidableEq α] in
theorem one_le_tally {P : α → Bool} {i : α} (h : P i = true) : 1 ≤ tally P := by
  have hle : (P i).toNat ≤ tally P :=
    Finset.single_le_sum (f := fun a => (P a).toNat) (fun _ _ => Nat.zero_le _)
      (Finset.mem_univ i)
  simpa [h] using hle

end Tally

/-! ### Counting the elements of a list -/

section Elements

variable {α κ : Type*}

/-- Taking out one element. -/
theorem countP_eraseIdx (p : α → Bool) {l : List α} {i : Nat} (h : i < l.length) :
    (l.eraseIdx i).countP p + (p l[i]).toNat = l.countP p := by
  have hperm := (List.getElem_cons_eraseIdx_perm h).countP_eq p
  rw [← hperm, List.countP_cons]
  cases p l[i] <;> rfl

/-- **One element at a time.** If no two elements have the same key, then what changes at one
    element only changes the count by the difference there. -/
theorem countP_change {key : α → κ} {p q : α → Bool} {l : List α} {i : Nat} (h : i < l.length)
    (hkeys : (l.map key).Nodup) (hsame : ∀ x, key x ≠ key l[i] → q x = p x) :
    l.countP q + (p l[i]).toNat = l.countP p + (q l[i]).toNat := by
  have hperm := (List.getElem_cons_eraseIdx_perm h).map key
  have hnodup := hperm.nodup_iff.mpr hkeys
  rw [List.map_cons, List.nodup_cons] at hnodup
  have hrest : (l.eraseIdx i).countP q = (l.eraseIdx i).countP p := by
    apply List.countP_congr
    intro x hx
    have hne : key x ≠ key l[i] := by
      intro heq
      exact hnodup.1 (heq ▸ List.mem_map_of_mem hx)
    rw [hsame x hne]
  rw [← countP_eraseIdx p h, ← countP_eraseIdx q h, hrest]
  omega

end Elements

/-! ### The stakes of finitely many parties -/

section Shared

variable {α : Type*} [Fintype α] [DecidableEq α]

/-- One party acts and the sum of all stakes changes by the difference of its own. -/
theorem sum_stakes (stake : α → Nat) (i : α) (h : Nat) :
    ∃ others : Int, 0 ≤ others ∧ (∑ a, (stake a : Int)) = others + stake i ∧
      (∑ a, (Function.update stake i h a : Int)) = others + h := by
  refine ⟨∑ a ∈ Finset.univ.erase i, (stake a : Int), ?_, ?_, ?_⟩
  · exact Finset.sum_nonneg fun a _ => Int.natCast_nonneg _
  · rw [← Finset.add_sum_erase Finset.univ (fun a => (stake a : Int)) (Finset.mem_univ i),
      add_comm]
  · rw [← Finset.add_sum_erase Finset.univ (fun a => (Function.update stake i h a : Int))
      (Finset.mem_univ i), add_comm, Function.update_self]
    congr 1
    refine Finset.sum_congr rfl fun a ha => ?_
    rw [Function.update_of_ne (Finset.ne_of_mem_erase ha)]

theorem Caps.shared (stake : α → Nat) {i : α} {h : Nat} {l : List Bool}
    (hl : Caps (stake i) l h) {n : Int} (hn : 0 ≤ n) (hle : n ≤ ∑ a, (stake a : Int)) :
    l.foldl bump n ≤ ∑ a, (Function.update stake i h a : Int) := by
  obtain ⟨others, hothers, hsum, hsum'⟩ := sum_stakes stake i h
  rw [hsum']
  exact hl n others hn hothers (by omega)

theorem Backs.shared (stake : α → Nat) {i : α} {h : Nat} {l : List Bool}
    (hl : Backs (stake i) l h) {n : Int} (hle : ∑ a, (stake a : Int) ≤ n) :
    ∑ a, (Function.update stake i h a : Int) ≤ l.foldl bump n := by
  obtain ⟨others, hothers, hsum, hsum'⟩ := sum_stakes stake i h
  rw [hsum']
  exact hl n others hothers (by omega)

end Shared

end Counter
