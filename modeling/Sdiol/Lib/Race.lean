import Sdiol.Lib.Steps

namespace Race

/-!
# Which of two patterns completes first

A *pattern* on a list says at which elements it completes, given the elements in front:
`P before x`.  `Precedes P Q l` says that some element of `l` completes `P` and that none in
front of it completes `Q`; `Never P l` that no element completes `P`.

A single pass that stops at the first element that completes one of two patterns decides
between them: `precedes_cons` and `never_cons` are its steps, and for patterns that are never
completed by one and the same element the three answers exclude each other
(`Precedes.asymm`, `Precedes.not_never`).
-/

variable {α : Type*} {P Q : List α → α → Prop}

/-- No element completes `P`. -/
def Never (P : List α → α → Prop) (l : List α) : Prop :=
  Steps.Along (fun before x _ => ¬ P before x) l

/-- An element completes `P`, and no element in front of it completes `Q`. -/
def Precedes (P Q : List α → α → Prop) (l : List α) : Prop :=
  ∃ l₁ x l₂, l = l₁ ++ x :: l₂ ∧ P l₁ x ∧ Never Q l₁

@[simp] theorem never_nil : Never P [] := Steps.along_nil _

@[simp] theorem not_precedes_nil : ¬ Precedes P Q [] := by
  rintro ⟨l₁, x, l₂, h, -⟩
  simp at h

theorem never_cons {x : α} {l : List α} :
    Never P (x :: l) ↔ ¬ P [] x ∧ Never (fun before => P (x :: before)) l :=
  Steps.along_cons

/-- The first element completes `P`, or it completes neither and the rest decides. -/
theorem precedes_cons {x : α} {l : List α} :
    Precedes P Q (x :: l) ↔
      P [] x ∨ ¬ Q [] x ∧
        Precedes (fun before => P (x :: before)) (fun before => Q (x :: before)) l := by
  constructor
  · rintro ⟨l₁, y, l₂, hsplit, hP, hQ⟩
    cases l₁ with
    | nil =>
      obtain ⟨rfl, rfl⟩ := List.cons.inj hsplit
      exact .inl hP
    | cons z l₁ =>
      obtain ⟨rfl, hrest⟩ := List.cons.inj hsplit
      obtain ⟨hx, hl⟩ := never_cons.mp hQ
      exact .inr ⟨hx, l₁, y, l₂, hrest, hP, hl⟩
  · rintro (hP | ⟨hx, l₁, y, l₂, rfl, hP, hQ⟩)
    · exact ⟨[], x, l, rfl, hP, never_nil⟩
    · exact ⟨x :: l₁, y, l₂, rfl, hP, never_cons.mpr ⟨hx, hQ⟩⟩

/-- If `P` completes before `Q`, it completes. -/
theorem Precedes.not_never {l : List α} (h : Precedes P Q l) : ¬ Never P l := by
  obtain ⟨l₁, x, l₂, hsplit, hP, -⟩ := h
  intro hnever
  exact hnever l₁ x l₂ hsplit hP

/-- Two patterns that no element completes both cannot each complete before the other. -/
theorem Precedes.asymm (hdisj : ∀ before x, P before x → ¬ Q before x) {l : List α}
    (h : Precedes P Q l) : ¬ Precedes Q P l := by
  induction l generalizing P Q with
  | nil => exact absurd h not_precedes_nil
  | cons x l ih =>
    intro h'
    rcases precedes_cons.mp h with hP | ⟨hQ, hl⟩
    · rcases precedes_cons.mp h' with hQ | ⟨hP', -⟩
      · exact hdisj [] x hP hQ
      · exact hP' hP
    · rcases precedes_cons.mp h' with hQ' | ⟨-, hl'⟩
      · exact hQ hQ'
      · exact ih (fun before y hP => hdisj (x :: before) y hP) hl hl'

/-- Two ways to split a list at an element with `p`, with as many elements with `p` in front,
    are one. -/
theorem split_unique {p : α → Bool} {x x' : α} {l₁ l₂ l₁' l₂' : List α} (hx : p x = true)
    (hx' : p x' = true) (hcount : (l₁.filter p).length = (l₁'.filter p).length)
    (h : l₁ ++ x :: l₂ = l₁' ++ x' :: l₂') : l₁ = l₁' ∧ x = x' ∧ l₂ = l₂' := by
  induction l₁ generalizing l₁' with
  | nil =>
    cases l₁' with
    | nil => exact ⟨rfl, List.cons.inj h⟩
    | cons y l₁' =>
      obtain ⟨rfl, _⟩ := List.cons.inj h
      rw [List.filter_cons_of_pos hx] at hcount
      exact absurd hcount (by simp)
  | cons y l₁ ih =>
    cases l₁' with
    | nil =>
      obtain ⟨rfl, _⟩ := List.cons.inj h
      rw [List.filter_cons_of_pos hx'] at hcount
      exact absurd hcount (by simp)
    | cons z l₁' =>
      obtain ⟨rfl, hrest⟩ := List.cons.inj h
      have htail : (l₁.filter p).length = (l₁'.filter p).length := by
        by_cases hy : p y = true
        · simpa [List.filter_cons_of_pos hy] using hcount
        · simpa [List.filter_cons_of_neg hy] using hcount
      obtain ⟨rfl, hboth⟩ := ih htail hrest
      exact ⟨rfl, hboth⟩

end Race
