import Mathlib
import Sdiol.Lib.Steps

namespace Handles

/-!
# Handles

A program is given handles and gives them back, and a handle that was given back may be given out
again for something else.  The table has the open handles with what each was opened for.  To close
a handle that is not open, or not for this purpose, is the mistake `Fault.notOwned`; to give out a
handle that is open is `Fault.reissued`, which is not the program's.

`Trades cs a b` says that the calls `cs` need the handles `a` and leave the handles `b`, and
do not care what else is open:

* `Trades.opened`, `Trades.closed`, `Trades.closeAll` — single calls, and closing several handles;
* `Trades.append`, `Trades.frame` — calls one after the other, and beside other handles;
* `Trades.run` — the calls of a run, from those of its steps;
* `Trades.never_notOwned` — such calls make no mistake;
* `Trades.leaves` — and if they close nothing of some kinds, and leave nothing else, then exactly
  what they open of these kinds is left.
-/

variable {κ π : Type*}

/-- A call that was answered. -/
inductive Call (κ π : Type*) where
  | opened (h : κ) (p : π)
  | closed (h : κ) (p : π)
deriving DecidableEq

inductive Fault where
  /-- a handle was given out that was open -/
  | reissued
  /-- what was closed was not open for this purpose -/
  | notOwned
deriving DecidableEq

section Table

variable [DecidableEq κ] [DecidableEq π]

/-- What a call does to the table. -/
def call : Call κ π → List (κ × π) → Except Fault (List (κ × π))
  | .opened h p, t => if h ∈ t.map Prod.fst then .error .reissued else .ok ((h, p) :: t)
  | .closed h p, t => if (h, p) ∈ t then .ok (t.erase (h, p)) else .error .notOwned

/-- What some calls do, one after the other. -/
def calls : List (Call κ π) → List (κ × π) → Except Fault (List (κ × π))
  | [], t => .ok t
  | c :: cs, t => do
    let t ← call c t
    calls cs t

@[simp] theorem call_opened (h : κ) (p : π) (t : List (κ × π)) :
    call (.opened h p) t
      = if h ∈ t.map Prod.fst then .error .reissued else .ok ((h, p) :: t) := rfl

@[simp] theorem call_closed (h : κ) (p : π) (t : List (κ × π)) :
    call (.closed h p) t = if (h, p) ∈ t then .ok (t.erase (h, p)) else .error .notOwned := rfl

@[simp] theorem calls_singleton (c : Call κ π) (t : List (κ × π)) : calls [c] t = call c t := by
  unfold calls
  cases call c t <;> rfl

theorem calls_append (cs₁ cs₂ : List (Call κ π)) (t : List (κ × π)) :
    calls (cs₁ ++ cs₂) t = calls cs₁ t >>= calls cs₂ := by
  induction cs₁ generalizing t with
  | nil => rfl
  | cons c cs₁ ih =>
    rw [List.cons_append, calls, calls]
    cases call c t with
    | error e => rfl
    | ok t₁ => exact ih t₁

/-- Open handles are different. -/
theorem calls_nodup {cs : List (Call κ π)} {t t' : List (κ × π)} (h : calls cs t = .ok t')
    (ht : (t.map Prod.fst).Nodup) : (t'.map Prod.fst).Nodup := by
  induction cs generalizing t with
  | nil =>
    cases h
    exact ht
  | cons c cs ih =>
    obtain ⟨t₁, hcall, h⟩ := Steps.bind_eq_ok.mp h
    refine ih h ?_
    cases c with
    | opened k p =>
      rw [call_opened] at hcall
      split at hcall
      · exact absurd hcall (by simp)
      · rename_i hfresh
        cases hcall
        exact List.nodup_cons.mpr ⟨hfresh, ht⟩
    | closed k p =>
      rw [call_closed] at hcall
      split at hcall
      · cases hcall
        exact ht.sublist (List.erase_sublist.map _)
      · exact absurd hcall (by simp)

/-! ### What calls need and leave -/

/-- The calls need `a` to be open and leave `b`, whatever else is open, unless an open handle is
    given out. -/
def Trades (cs : List (Call κ π)) (a b : List (κ × π)) : Prop :=
  ∀ rest t, t.Perm (a ++ rest) →
    calls cs t = .error .reissued ∨ ∃ t', calls cs t = .ok t' ∧ t'.Perm (b ++ rest)

variable {cs cs₁ cs₂ : List (Call κ π)} {a b c : List (κ × π)}

theorem Trades.nil (a : List (κ × π)) : Trades [] a a := fun _ t ht => .inr ⟨t, rfl, ht⟩

theorem Trades.perm {a' b' : List (κ × π)} (h : Trades cs a b) (ha : a.Perm a')
    (hb : b.Perm b') : Trades cs a' b' := by
  intro rest t ht
  rcases h rest t (ht.trans (ha.symm.append_right rest)) with hfault | ⟨t', hok, ht'⟩
  · exact .inl hfault
  · exact .inr ⟨t', hok, ht'.trans (hb.append_right rest)⟩

/-- **Sequence.** -/
theorem Trades.append (h₁ : Trades cs₁ a b) (h₂ : Trades cs₂ b c) :
    Trades (cs₁ ++ cs₂) a c := by
  intro rest t ht
  rw [calls_append]
  rcases h₁ rest t ht with hfault | ⟨t₁, hok, ht₁⟩
  · rw [hfault]
    exact .inl rfl
  · rw [hok]
    exact h₂ rest t₁ ht₁

/-- **Frame.** Other handles stay open. -/
theorem Trades.frame (h : Trades cs a b) (other : List (κ × π)) :
    Trades cs (a ++ other) (b ++ other) := by
  intro rest t ht
  rw [List.append_assoc] at ht ⊢
  exact h (other ++ rest) t ht

theorem Trades.opened (h : κ) (p : π) (a : List (κ × π)) :
    Trades [.opened h p] a ((h, p) :: a) := by
  intro rest t ht
  rw [calls_singleton, call_opened]
  by_cases hopen : h ∈ t.map Prod.fst
  · rw [if_pos hopen]
    exact .inl rfl
  · rw [if_neg hopen]
    exact .inr ⟨(h, p) :: t, rfl, ht.cons (h, p)⟩

theorem Trades.closed (h : κ) (p : π) (a : List (κ × π)) :
    Trades [.closed h p] ((h, p) :: a) a := by
  intro rest t ht
  have hmem : (h, p) ∈ t := ht.mem_iff.mpr List.mem_cons_self
  rw [calls_singleton, call_closed, if_pos hmem]
  refine .inr ⟨t.erase (h, p), rfl, ?_⟩
  have herase := ht.erase (h, p)
  rwa [List.cons_append, List.erase_cons_head] at herase

/-- To close handles one after the other. -/
theorem Trades.closeAll (l a : List (κ × π)) :
    Trades (l.map fun x => .closed x.1 x.2) (l ++ a) a := by
  induction l with
  | nil => exact .nil a
  | cons x l ih => exact (Trades.closed x.1 x.2 (l ++ a)).append ih

/-- **Run.** What every step keeps, and what is open in each state by it. -/
theorem Trades.run {ι σ ε : Type*} {step : ι → σ → Except ε (σ × List (Call κ π))}
    {inv : σ → Prop} {owned : σ → List (κ × π)}
    (hstep : ∀ i s s' l, inv s → step i s = .ok (s', l) →
      inv s' ∧ Trades l (owned s) (owned s'))
    {is : List ι} {s s' : σ} (hs : inv s) {l : List (Call κ π)}
    (hrun : Steps.run step is s = .ok (s', l)) : inv s' ∧ Trades l (owned s) (owned s') := by
  refine Steps.run_inv (fun l s' => inv s' ∧ Trades l (owned s) (owned s')) ?_
    ⟨hs, .nil (owned s)⟩ hrun
  rintro i _ l s₁ s₂ l₂ ⟨hs₁, hl⟩ h₂
  obtain ⟨hs₂, hl₂⟩ := hstep i s₁ s₂ l₂ hs₁ h₂
  exact ⟨hs₂, hl.append hl₂⟩

/-! ### What is never closed -/

/-- The handles that are opened for purposes of some kinds, in order. -/
def openedFor (keep : π → Bool) (cs : List (Call κ π)) : List (κ × π) :=
  cs.filterMap fun
    | .opened h p => if keep p then some (h, p) else none
    | .closed _ _ => none

/-- Nothing of these kinds is closed. -/
def Spares (keep : π → Bool) (cs : List (Call κ π)) : Prop :=
  ∀ h p, .closed h p ∈ cs → keep p = false

section Kept

omit [DecidableEq κ] [DecidableEq π]

variable {keep : π → Bool}

theorem Spares.nil : Spares (κ := κ) keep [] := fun _ _ hmem => absurd hmem List.not_mem_nil

theorem Spares.append (h₁ : Spares keep cs₁) (h₂ : Spares keep cs₂) : Spares keep (cs₁ ++ cs₂) :=
  fun h p hmem => (List.mem_append.mp hmem).elim (h₁ h p) (h₂ h p)

theorem Spares.opened (l : List (κ × π)) : Spares keep (l.map fun x => .opened x.1 x.2) := by
  intro h p hmem
  obtain ⟨x, -, hx⟩ := List.mem_map.mp hmem
  exact absurd hx (by simp)

theorem Spares.closed {l : List (κ × π)} (h : ∀ x ∈ l, keep x.2 = false) :
    Spares keep (l.map fun x => .closed x.1 x.2) := by
  intro k p hmem
  obtain ⟨x, hx, heq⟩ := List.mem_map.mp hmem
  cases heq
  exact h x hx

end Kept

variable {keep : π → Bool}

/-- What is open of these kinds was open before or was opened. -/
theorem Spares.calls (hspares : Spares keep cs) {t t' : List (κ × π)} (h : calls cs t = .ok t') :
    (t'.filter fun x => keep x.2).Perm (openedFor keep cs ++ t.filter fun x => keep x.2) := by
  induction cs generalizing t with
  | nil =>
    cases h
    exact List.Perm.refl _
  | cons c cs ih =>
    obtain ⟨t₁, hcall, h⟩ := Steps.bind_eq_ok.mp h
    have hrest := ih (fun k p hmem => hspares k p (List.mem_cons_of_mem c hmem)) h
    cases c with
    | opened k p =>
      rw [call_opened] at hcall
      split at hcall
      · exact absurd hcall (by simp)
      · cases hcall
        by_cases hkeep : keep p = true
        · have hcons : openedFor keep (.opened k p :: cs) = (k, p) :: openedFor keep cs :=
            List.filterMap_cons_some (if_pos hkeep)
          have hfilter : ((k, p) :: t).filter (fun x => keep x.2)
              = (k, p) :: t.filter fun x => keep x.2 := List.filter_cons_of_pos hkeep
          rw [hfilter] at hrest
          rw [hcons]
          exact hrest.trans List.perm_middle
        · have hcons : openedFor keep (.opened k p :: cs) = openedFor keep cs :=
            List.filterMap_cons_none (if_neg hkeep)
          have hfilter : ((k, p) :: t).filter (fun x => keep x.2)
              = t.filter fun x => keep x.2 := List.filter_cons_of_neg hkeep
          rw [hfilter] at hrest
          rw [hcons]
          exact hrest
    | closed k p =>
      rw [call_closed] at hcall
      split at hcall
      · rename_i hmem
        cases hcall
        have hkeep := hspares k p List.mem_cons_self
        have herase := (List.perm_cons_erase hmem).filter fun x => keep x.2
        rw [List.filter_cons_of_neg (by simp [hkeep])] at herase
        exact hrest.trans (herase.symm.append_left _)
      · exact absurd hcall (by simp)

/-- **No mistakes**, and what is open afterwards. -/
theorem Trades.never_notOwned (h : Trades cs [] b) (t : List (κ × π)) :
    calls cs t = .error .reissued ∨ ∃ t', calls cs t = .ok t' ∧ t'.Perm (b ++ t) :=
  h t t (List.Perm.refl t)

/-- **Exactly** what is opened of some kinds is left, if nothing of these kinds is closed and
    nothing else is left. -/
theorem Trades.leaves (h : Trades cs [] b) (hkept : ∀ x ∈ b, keep x.2 = true)
    (hspares : Spares keep cs) (t : List (κ × π)) :
    calls cs t = .error .reissued ∨
      ∃ t', calls cs t = .ok t' ∧ t'.Perm (openedFor keep cs ++ t) := by
  rcases h.never_notOwned t with hfault | ⟨t', hok, hperm⟩
  · exact .inl hfault
  · refine .inr ⟨t', hok, hperm.trans (List.Perm.append_right t ?_)⟩
    have hleft := hperm.symm.filter fun x => keep x.2
    rw [List.filter_append, List.filter_eq_self.mpr hkept] at hleft
    exact (List.perm_append_right_iff _).mp (hleft.trans (hspares.calls hok))

end Table

end Handles
