import Mathlib

namespace Slots

/-!
# A map in slots

The entries of a finite map stand in the slots of two arrays, `keys` and `vals`, and one entry
may be *in hand* while entries are moved.  `Holds m full keys vals hand` says that the full
slots and the hand together hold the entries of `m`, each key once.  The moves:

* `take` / `put` — an entry from its slot into the hand, and from the hand into a free slot;
* `swap` — the entry in hand changes places with the one of a full slot;
* `pick` / `drop` — the map gains the entry that is in hand, or loses it;
* `setVal` — another value for the key of a full slot.
-/

variable {κ ν : Type*} {m : κ → Option ν} {full full' : Nat → Prop} {keys : Nat → κ}
  {vals : Nat → ν} {hand : Option (κ × ν)} {i : Nat} {key : κ} {val : ν}

/-- The full slots and the hand hold the entries of `m`, each key once. -/
structure Holds (m : κ → Option ν) (full : Nat → Prop) (keys : Nat → κ) (vals : Nat → ν)
    (hand : Option (κ × ν)) : Prop where
  entry : ∀ k v, m k = some v ↔ hand = some (k, v) ∨ ∃ i, full i ∧ keys i = k ∧ vals i = v
  distinct : ∀ i j, full i → full j → keys i = keys j → i = j
  apart : ∀ k v, hand = some (k, v) → ∀ i, full i → keys i ≠ k

/-- Only which slots are full matters. -/
theorem Holds.congr (h : Holds m full keys vals hand) (hfull : ∀ i, full' i ↔ full i) :
    Holds m full' keys vals hand := by
  rwa [show full' = full from funext fun i => propext (hfull i)]

/-- What stands in a full slot. -/
theorem Holds.of_full (h : Holds m full keys vals hand) (hi : full i) :
    m (keys i) = some (vals i) :=
  (h.entry _ _).mpr (Or.inr ⟨i, hi, rfl, rfl⟩)

theorem Holds.exists_slot {v : ν} (h : Holds m full keys vals none) (hkey : m key = some v) :
    ∃ i, full i ∧ keys i = key ∧ vals i = v :=
  ((h.entry _ _).mp hkey).resolve_left (by simp)

/-- A key without a slot has no entry. -/
theorem Holds.eq_none (h : Holds m full keys vals none) (hkey : ∀ i, full i → keys i ≠ key) :
    m key = none := by
  cases hm : m key with
  | none => rfl
  | some v =>
    obtain ⟨i, hi, hik, -⟩ := h.exists_slot hm
    exact absurd hik (hkey i hi)

theorem Holds.in_hand (h : Holds m full keys vals (some (key, val))) : m key = some val :=
  (h.entry _ _).mpr (Or.inl rfl)

/-- An entry from its slot into the hand. -/
theorem Holds.take (h : Holds m full keys vals none) (hi : full i) :
    Holds m (fun j => full j ∧ j ≠ i) keys vals (some (keys i, vals i)) where
  entry k v := by
    rw [h.entry k v]
    constructor
    · rintro (h | ⟨j, hj, rfl, rfl⟩)
      · exact absurd h (by simp)
      · by_cases hji : j = i
        · exact Or.inl (by rw [hji])
        · exact Or.inr ⟨j, ⟨hj, hji⟩, rfl, rfl⟩
    · rintro (h | ⟨j, hj, rfl, rfl⟩)
      · obtain ⟨rfl, rfl⟩ := Prod.mk.inj (Option.some.inj h)
        exact Or.inr ⟨i, hi, rfl, rfl⟩
      · exact Or.inr ⟨j, hj.1, rfl, rfl⟩
  distinct j l hj hl := h.distinct j l hj.1 hl.1
  apart k v hkv j hj hk := by
    obtain ⟨rfl, rfl⟩ := Prod.mk.inj (Option.some.inj hkv)
    exact hj.2 (h.distinct j i hj.1 hi hk)

/-- The entry in hand into a free slot. -/
theorem Holds.put (h : Holds m full keys vals (some (key, val))) (hi : ¬ full i) :
    Holds m (fun j => full j ∨ j = i) (Function.update keys i key) (Function.update vals i val)
      none where
  entry k v := by
    rw [h.entry k v]
    constructor
    · rintro (h | ⟨j, hj, rfl, rfl⟩)
      · obtain ⟨rfl, rfl⟩ := Prod.mk.inj (Option.some.inj h)
        exact Or.inr ⟨i, Or.inr rfl, by simp, by simp⟩
      · have hji : j ≠ i := fun he => hi (he ▸ hj)
        exact Or.inr ⟨j, Or.inl hj, by simp [hji], by simp [hji]⟩
    · rintro (h | ⟨j, hj, rfl, rfl⟩)
      · exact absurd h (by simp)
      · by_cases hji : j = i
        · subst hji
          simp
        · exact Or.inr ⟨j, hj.resolve_right hji, by simp [hji], by simp [hji]⟩
  distinct j l hj hl heq := by
    by_cases hji : j = i
    · by_cases hli : l = i
      · rw [hji, hli]
      · subst hji
        rw [Function.update_self, Function.update_of_ne hli] at heq
        exact absurd heq.symm (h.apart key val rfl l (hl.resolve_right hli))
    · rw [Function.update_of_ne hji] at heq
      by_cases hli : l = i
      · subst hli
        rw [Function.update_self] at heq
        exact absurd heq (h.apart key val rfl j (hj.resolve_right hji))
      · rw [Function.update_of_ne hli] at heq
        exact h.distinct j l (hj.resolve_right hji) (hl.resolve_right hli) heq
  apart k v hkv := absurd hkv (by simp)

/-- The map gains an entry, which is in hand. -/
theorem Holds.pick [DecidableEq κ] (h : Holds m full keys vals none) (hkey : m key = none)
    (val : ν) :
    Holds (Function.update m key (some val)) full keys vals (some (key, val)) where
  entry k v := by
    by_cases hk : k = key
    · subst hk
      rw [Function.update_self, Option.some.injEq, Option.some.injEq, Prod.mk.injEq]
      constructor
      · intro hv
        exact Or.inl ⟨rfl, hv⟩
      · rintro (⟨-, hv⟩ | ⟨j, hj, hjk, -⟩)
        · exact hv
        · exact absurd (h.of_full hj) (by rw [hjk, hkey]; simp)
    · rw [Function.update_of_ne hk, h.entry k v]
      simp [Ne.symm hk]
  distinct := h.distinct
  apart k v hkv j hj hjk := by
    obtain ⟨rfl, rfl⟩ := Prod.mk.inj (Option.some.inj hkv)
    exact absurd (h.of_full hj) (by rw [hjk, hkey]; simp)

/-- The map loses the entry that is in hand. -/
theorem Holds.drop [DecidableEq κ] (h : Holds m full keys vals (some (key, val))) :
    Holds (Function.update m key none) full keys vals none where
  entry k v := by
    by_cases hk : k = key
    · subst hk
      rw [Function.update_self]
      constructor
      · intro hv
        exact absurd hv (by simp)
      · rintro (hv | ⟨j, hj, hjk, -⟩)
        · exact absurd hv (by simp)
        · exact absurd hjk (h.apart k val rfl j hj)
    · rw [Function.update_of_ne hk, h.entry k v]
      simp [Ne.symm hk]
  distinct := h.distinct
  apart k v hkv := absurd hkv (by simp)

/-- The entry in hand and the one of a full slot change places. -/
theorem Holds.swap [DecidableEq κ] (h : Holds m full keys vals (some (key, val))) (hi : full i) :
    Holds m full (Function.update keys i key) (Function.update vals i val)
      (some (keys i, vals i)) := by
  -- Without the entry in hand, take that of the slot, put the first in its place and gain it.
  have hne : keys i ≠ key := h.apart key val rfl i hi
  have htaken := ((h.drop).take hi).drop
  have hgone : Function.update (Function.update m key none) (keys i) none key = none := by
    rw [Function.update_of_ne (Ne.symm hne), Function.update_self]
  have hput := (htaken.pick hgone val).put (i := i) (by simp)
  have hfull : ∀ j, full j ↔ (full j ∧ j ≠ i) ∨ j = i := by
    intro j
    by_cases hji : j = i
    · simp [hji, hi]
    · simp [hji]
  have hback := hput.congr hfull
  have hnone : Function.update (Function.update (Function.update m key none) (keys i) none) key
      (some val) (keys i) = none := by
    rw [Function.update_of_ne hne, Function.update_self]
  have hpick := hback.pick hnone (vals i)
  convert hpick using 1
  funext k
  by_cases hk : k = keys i
  · subst hk
    rw [Function.update_self]
    exact h.of_full hi
  · rw [Function.update_of_ne hk]
    by_cases hkk : k = key
    · subst hkk
      rw [Function.update_self]
      exact h.in_hand
    · rw [Function.update_of_ne hkk, Function.update_of_ne hk, Function.update_of_ne hkk]

/-- Another value for the key of a full slot. -/
theorem Holds.setVal [DecidableEq κ] (h : Holds m full keys vals none) (hi : full i) (val : ν) :
    Holds (Function.update m (keys i) (some val)) full keys (Function.update vals i val) none := by
  have htaken := (h.take hi).drop
  have hput := (htaken.pick (Function.update_self ..) val).put (i := i) (by simp)
  rw [Function.update_idem, Function.update_eq_self] at hput
  exact hput.congr (fun j => by
    by_cases hji : j = i
    · simp [hji, hi]
    · simp [hji])

end Slots
