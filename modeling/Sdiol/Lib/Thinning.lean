import Mathlib.Data.List.Basic

namespace Thinning

/-!
# Thinned queues

`Thinned Drop seen full thin` says that the queue `thin` is the queue `full` without some of
its elements, where leaving out `x` needs `Drop before x` for the elements `before` it: those
of `seen`, which are in front of both queues, and those of `full` in front of `x`.

Queues change at both ends, so the lemmas are about the ends: `push` and `skip_last` append to
the full queue, `drop_last` takes the newest element out of the thin one only, and `head`
finds the oldest element of the thin queue in the full one.
-/

variable {α : Type*}

/-- `thin` is `full` without some elements that may be dropped where they stand. -/
inductive Thinned (Drop : List α → α → Prop) : List α → List α → List α → Prop
  | nil (seen : List α) : Thinned Drop seen [] []
  | keep {seen full thin : List α} (x : α) (h : Thinned Drop (seen ++ [x]) full thin) :
      Thinned Drop seen (x :: full) (x :: thin)
  | skip {seen full thin : List α} {x : α} (hx : Drop seen x)
      (h : Thinned Drop (seen ++ [x]) full thin) : Thinned Drop seen (x :: full) thin

variable {Drop : List α → α → Prop} {seen full thin : List α}

/-- A new element in both queues. -/
theorem Thinned.push (h : Thinned Drop seen full thin) (x : α) :
    Thinned Drop seen (full ++ [x]) (thin ++ [x]) := by
  induction h with
  | nil seen => exact .keep x (.nil _)
  | keep y _ ih => exact .keep y ih
  | skip hy _ ih => exact .skip hy ih

/-- The newest element leaves the thin queue. -/
theorem Thinned.drop_last {x : α} (h : Thinned Drop seen full (thin ++ [x]))
    (hx : ∀ l₁ l₂, full = l₁ ++ x :: l₂ → Drop (seen ++ l₁) x) : Thinned Drop seen full thin := by
  generalize hq : thin ++ [x] = queue at h
  induction h generalizing thin with
  | nil seen => exact absurd hq (by simp)
  | @keep seen full _ y h ih =>
    cases thin with
    | nil =>
      -- `x` is the only element left in the thin queue
      obtain ⟨rfl, rfl⟩ := List.cons.inj hq
      have hdrop := hx [] full rfl
      rw [List.append_nil] at hdrop
      exact .skip hdrop h
    | cons z thin =>
      obtain ⟨rfl, hrest⟩ := List.cons.inj hq
      refine .keep z (ih (fun l₁ l₂ hsplit => ?_) hrest)
      have := hx (z :: l₁) l₂ (by rw [hsplit, List.cons_append])
      rwa [List.append_assoc, List.singleton_append]
  | @skip seen full _ y hy _ ih =>
    refine .skip hy (ih (fun l₁ l₂ hsplit => ?_) hq)
    have := hx (y :: l₁) l₂ (by rw [hsplit, List.cons_append])
    rwa [List.append_assoc, List.singleton_append]

/-- The oldest element of the thin queue: what stands in front of it in the full queue has
    been dropped. -/
theorem Thinned.head {x : α} (h : Thinned Drop seen full (x :: thin)) :
    ∃ l₁ l₂, full = l₁ ++ x :: l₂ ∧ Thinned Drop seen l₁ [] ∧
      Thinned Drop (seen ++ l₁ ++ [x]) l₂ thin := by
  generalize hq : x :: thin = queue at h
  induction h with
  | nil seen => exact absurd hq (by simp)
  | @keep seen full _ y h _ =>
    obtain ⟨rfl, rfl⟩ := List.cons.inj hq
    exact ⟨[], full, rfl, .nil _, by rwa [List.append_nil]⟩
  | @skip seen full _ y hy _ ih =>
    obtain ⟨l₁, l₂, rfl, hl₁, hl₂⟩ := ih hq
    refine ⟨y :: l₁, l₂, rfl, .skip hy hl₁, ?_⟩
    rwa [List.append_assoc seen, List.singleton_append] at hl₂

/-- An element of the thin queue splits both. -/
theorem Thinned.split {x : α} {m₁ m₂ : List α} (h : Thinned Drop seen full (m₁ ++ x :: m₂)) :
    ∃ l₁ l₂, full = l₁ ++ x :: l₂ ∧ Thinned Drop seen l₁ m₁ := by
  generalize hq : m₁ ++ x :: m₂ = queue at h
  induction h generalizing m₁ with
  | nil seen => exact absurd hq (by simp)
  | @keep seen full thin y h ih =>
    cases m₁ with
    | nil =>
      obtain ⟨rfl, rfl⟩ := List.cons.inj hq
      exact ⟨[], full, rfl, .nil _⟩
    | cons z m₁ =>
      obtain ⟨rfl, hrest⟩ := List.cons.inj hq
      obtain ⟨l₁, l₂, rfl, hl₁⟩ := ih hrest
      exact ⟨z :: l₁, l₂, rfl, .keep z hl₁⟩
  | @skip seen full _ y hy _ ih =>
    obtain ⟨l₁, l₂, rfl, hl₁⟩ := ih hq
    exact ⟨y :: l₁, l₂, rfl, .skip hy hl₁⟩

/-- An element of the full queue is in the thin one, or it was dropped after the elements of
    `seen` and some of those in front of it. -/
theorem Thinned.mem_or_drop (h : Thinned Drop seen full thin) :
    ∀ x ∈ full, x ∈ thin ∨ ∃ l, Drop (seen ++ l) x := by
  induction h with
  | nil seen => exact fun x hx => absurd hx (by simp)
  | @keep seen full thin y _ ih =>
    intro x hx
    rcases List.mem_cons.mp hx with rfl | hx
    · exact .inl List.mem_cons_self
    · rcases ih x hx with hmem | ⟨l, hl⟩
      · exact .inl (List.mem_cons_of_mem y hmem)
      · rw [List.append_assoc] at hl
        exact .inr ⟨_, hl⟩
  | @skip seen full thin y hy _ ih =>
    intro x hx
    rcases List.mem_cons.mp hx with rfl | hx
    · exact .inr ⟨[], by rwa [List.append_nil]⟩
    · rcases ih x hx with hmem | ⟨l, hl⟩
      · exact .inl hmem
      · rw [List.append_assoc] at hl
        exact .inr ⟨_, hl⟩

/-- Every element of the full queue is in the thin one or was dropped somewhere. -/
theorem Thinned.mem_or_dropped {P : α → Prop} (h : Thinned Drop seen full thin)
    (hP : ∀ l x, Drop l x → P x) : ∀ x ∈ full, x ∈ thin ∨ P x := by
  intro x hx
  refine (h.mem_or_drop x hx).imp_right ?_
  rintro ⟨l, hl⟩
  exact hP _ x hl

/-- What may be dropped after `seen` may be dropped after `seen'`. -/
theorem Thinned.mono {Drop' : List α → α → Prop} {seen' : List α}
    (h : Thinned Drop seen full thin) (hdrop : ∀ l x, Drop (seen ++ l) x → Drop' (seen' ++ l) x) :
    Thinned Drop' seen' full thin := by
  induction h generalizing seen' with
  | nil seen => exact .nil _
  | @keep seen full thin y _ ih =>
    refine .keep y (ih fun l x hx => ?_)
    rw [List.append_assoc] at hx ⊢
    exact hdrop _ x hx
  | @skip seen full thin y hy _ ih =>
    refine .skip ?_ (ih fun l x hx => ?_)
    · have := hdrop [] y (by rwa [List.append_nil])
      rwa [List.append_nil] at this
    · rw [List.append_assoc] at hx ⊢
      exact hdrop _ x hx

end Thinning
