import Mathlib.Data.List.Basic
import Mathlib.Data.List.Induction
import Mathlib.Data.List.Perm.Basic

namespace LastWrite

/-!
# Writes into a map, one after the other

A list of *writes* `(k, v)` is applied to a map from the front to the back, so that of several
writes to one key the last one counts (`writeAll_cases`).  In another order any of them can be
the last one (`exists_perm_concat`); if no key is written with two different values, that makes
no difference (`Functional.writeAll_eq`).
-/

variable {κ ν : Type*} {ws : List (κ × ν)} {f : κ → ν} {k : κ} {v : ν}

/-- No key is written with two different values. -/
def Functional (ws : List (κ × ν)) : Prop :=
  ∀ k v v', (k, v) ∈ ws → (k, v') ∈ ws → v = v'

/-- Every write can be made the last one. -/
theorem exists_perm_concat (hmem : (k, v) ∈ ws) :
    ∃ front, (front ++ [(k, v)]).Perm ws := by
  obtain ⟨l₁, l₂, rfl⟩ := List.append_of_mem hmem
  refine ⟨l₁ ++ l₂, ?_⟩
  rw [List.append_assoc]
  apply List.Perm.append_left
  exact List.perm_append_comm

variable [DecidableEq κ]

/-- The map after all writes. -/
def writeAll (ws : List (κ × ν)) (f : κ → ν) : κ → ν :=
  ws.foldl (fun f w => Function.update f w.1 w.2) f

@[simp] theorem writeAll_nil : writeAll [] f = f := rfl

theorem writeAll_cons {w : κ × ν} :
    writeAll (w :: ws) f = writeAll ws (Function.update f w.1 w.2) := rfl

/-- The last write counts. -/
theorem writeAll_concat : writeAll (ws ++ [(k, v)]) f k = v := by
  rw [writeAll, List.foldl_append]
  exact Function.update_self ..

/-- A key gets one of the values written to it, or keeps its own if there is none. -/
theorem writeAll_cases (ws : List (κ × ν)) (f : κ → ν) (k : κ) :
    (k, writeAll ws f k) ∈ ws ∨ (∀ v, (k, v) ∉ ws) ∧ writeAll ws f k = f k := by
  induction ws generalizing f with
  | nil => exact .inr ⟨fun _ => List.not_mem_nil, rfl⟩
  | cons w ws ih =>
    rw [writeAll_cons]
    rcases ih (Function.update f w.1 w.2) with hmem | ⟨hnone, hkept⟩
    · exact .inl (List.mem_cons_of_mem w hmem)
    · by_cases hk : k = w.1
      · subst hk
        rw [hkept, Function.update_self]
        exact .inl List.mem_cons_self
      · rw [hkept, Function.update_of_ne hk]
        refine .inr ⟨fun v hv => ?_, rfl⟩
        rcases List.mem_cons.mp hv with rfl | hv
        · exact hk rfl
        · exact hnone v hv

/-- The value of a key is that of the first write to it from the back. -/
theorem writeAll_eq_find? (ws : List (κ × ν)) (f : κ → ν) (k : κ) :
    writeAll ws f k = ((ws.reverse.find? fun w => w.1 == k).map Prod.snd).getD (f k) := by
  induction ws using List.reverseRecOn with
  | nil => rfl
  | append_singleton ws w ih =>
    have hlast : writeAll (ws ++ [w]) f k = Function.update (writeAll ws f) w.1 w.2 k := by
      rw [writeAll, List.foldl_append]
      rfl
    rw [hlast, List.reverse_concat]
    by_cases hk : k = w.1
    · subst hk
      rw [Function.update_self, List.find?_cons_of_pos (by simp)]
      rfl
    · rw [Function.update_of_ne hk, ih, List.find?_cons_of_neg (by simpa using Ne.symm hk)]

/-- A key that is not written keeps its value. -/
theorem writeAll_of_not_mem (h : ∀ v, (k, v) ∉ ws) : writeAll ws f k = f k := by
  rcases writeAll_cases ws f k with hmem | ⟨_, hkept⟩
  · exact absurd hmem (h _)
  · exact hkept

/-- A key that is written with one value only gets that value. -/
theorem Functional.writeAll_eq (h : Functional ws) (hmem : (k, v) ∈ ws) : writeAll ws f k = v := by
  rcases writeAll_cases ws f k with hwritten | ⟨hnone, _⟩
  · exact h k _ _ hwritten hmem
  · exact absurd hmem (hnone v)

end LastWrite
