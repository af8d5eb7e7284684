import Mathlib.Data.List.Basic

namespace Alternation

/-!
# Alternating presses and releases

`settle d l` follows a list of edges (`true` a press, `false` a release) from the position
`d` of a key and fails when a key that is down is pressed or one that is up is released.
-/

/-- The position after the edges of `l`, if they alternate from position `d` on. -/
def settle : Bool → List Bool → Option Bool
  | d, [] => some d
  | d, e :: l => if e = d then none else settle e l

@[simp] theorem settle_nil (d : Bool) : settle d [] = some d := rfl

theorem settle_cons {d e b : Bool} {l : List Bool} :
    settle d (e :: l) = some b ↔ e ≠ d ∧ settle e l = some b := by
  show (if e = d then none else settle e l) = some b ↔ _
  by_cases h : e = d
  · simp [h]
  · simp [h]

theorem settle_append {d b : Bool} {l₁ l₂ : List Bool} :
    settle d (l₁ ++ l₂) = some b ↔ ∃ m, settle d l₁ = some m ∧ settle m l₂ = some b := by
  induction l₁ generalizing d with
  | nil => simp
  | cons e l ih =>
    rw [List.cons_append, settle_cons, ih]
    constructor
    · rintro ⟨hne, m, h₁, h₂⟩
      exact ⟨m, settle_cons.mpr ⟨hne, h₁⟩, h₂⟩
    · rintro ⟨m, h₁, h₂⟩
      obtain ⟨hne, h₁⟩ := settle_cons.mp h₁
      exact ⟨hne, m, h₁, h₂⟩

/-- Without a press there is at most one edge: the release of a key that is down. -/
theorem settle_no_press {d b : Bool} {l : List Bool} (h : settle d l = some b)
    (hl : true ∉ l) : (l = [] ∧ b = d) ∨ (l = [false] ∧ d = true ∧ b = false) := by
  cases l with
  | nil => exact .inl ⟨rfl, (Option.some.inj h).symm⟩
  | cons e l =>
    obtain ⟨hne, h⟩ := settle_cons.mp h
    have he : e = false := by
      by_contra hcon
      exact hl (by simp [Bool.not_eq_false] at hcon; simp [hcon])
    subst he
    have hd : d = true := by
      cases d with
      | false => exact absurd rfl hne
      | true => rfl
    cases l with
    | nil => exact .inr ⟨rfl, hd, (Option.some.inj h).symm⟩
    | cons e l =>
      obtain ⟨hne', _⟩ := settle_cons.mp h
      have he : e = true := by
        cases e with
        | false => exact absurd rfl hne'
        | true => rfl
      exact absurd (by simp [he]) hl

/-- A key that is pressed and not released again ends down. -/
theorem settle_press {d b : Bool} {l : List Bool} (h : settle d (true :: l) = some b)
    (hl : false ∉ l) : d = false ∧ b = true := by
  obtain ⟨hne, h⟩ := settle_cons.mp h
  refine ⟨by cases d <;> simp_all, ?_⟩
  cases l with
  | nil => exact (Option.some.inj h).symm
  | cons e l =>
    obtain ⟨hne', _⟩ := settle_cons.mp h
    have he : e = false := by cases e <;> simp_all
    exact absurd (by simp [he]) hl

/-- Nothing follows a press of a key that is not released. -/
theorem settle_press_alone {d b : Bool} {l : List Bool} (h : settle d (true :: l) = some b)
    (hl : false ∉ l) : l = [] := by
  obtain ⟨_, h⟩ := settle_cons.mp h
  cases l with
  | nil => rfl
  | cons e l =>
    obtain ⟨hne, _⟩ := settle_cons.mp h
    have he : e = false := by cases e <;> simp_all
    exact absurd (by simp [he]) hl

end Alternation
