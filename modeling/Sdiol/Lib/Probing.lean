import Mathlib

namespace Probing

/-!
# Open addressing with triangular probing

A table of `n` buckets is searched for a key with hash `h` along the path `probe n h`: first
the bucket `h % n`, and then each time one bucket further than the time before.  When `n` is a
power of two the first `n` buckets of a path are all the buckets (`probe_injOn`,
`exists_probe`), so a search that stops at an unused bucket ends as long as there is one
(`first_stop`).

* `walk` — the search loop; `walk_first` says where it ends;
* `Reaches` — the buckets that a path visits before a given one are all in use: what a table
  has to keep for each of its keys;
* `search_key` — under that invariant the search for a key ends at the bucket of the key, or
  at an unused one if there is none.
-/

/-- The bucket that the path of the hash `h` visits after `s` steps. -/
def probe (n h s : Nat) : Nat := (h + s * (s + 1) / 2) % n

@[simp] theorem probe_zero (n h : Nat) : probe n h 0 = h % n := rfl

theorem probe_lt {n : Nat} (hn : 0 < n) (h s : Nat) : probe n h s < n := Nat.mod_lt _ hn

/-- Half of the product of two successors: one more step. -/
theorem triangle_succ (s : Nat) : (s + 1) * (s + 1 + 1) / 2 = s * (s + 1) / 2 + (s + 1) := by
  have hmul : (s + 1) * (s + 1 + 1) = s * (s + 1) + 2 * (s + 1) := by ring
  rw [hmul, Nat.add_mul_div_left _ _ (by omega)]

/-- One step of the loop. -/
theorem probe_succ (n h s : Nat) : probe n h (s + 1) = (probe n h s + (s + 1)) % n := by
  unfold probe
  rw [triangle_succ, Nat.mod_add_mod, Nat.add_assoc]

/-- The same step, with the mask of a table of `2 ^ m` buckets. -/
theorem probe_succ_mask (m h s : Nat) :
    probe (2 ^ m) h (s + 1) = (probe (2 ^ m) h s + (s + 1)) &&& (2 ^ m - 1) := by
  rw [Nat.and_two_pow_sub_one_eq_mod, probe_succ]

theorem two_mul_triangle (s : Nat) : 2 * (s * (s + 1) / 2) = s * (s + 1) :=
  Nat.mul_div_cancel' (Nat.even_mul_succ_self s).two_dvd

/-- Two steps of a path that are fewer than `n` apart visit different buckets. -/
theorem not_dvd_triangle_sub {m s t : Nat} (hst : s < t) (ht : t < 2 ^ m) :
    ¬ 2 ^ m ∣ t * (t + 1) / 2 - s * (s + 1) / 2 := by
  -- Twice the difference is `(t - s) * (t + s + 1)`, and exactly one of the factors is odd.
  intro hdvd
  have htwice : 2 * (t * (t + 1) / 2 - s * (s + 1) / 2) = (t - s) * (t + s + 1) := by
    rw [Nat.mul_sub, two_mul_triangle, two_mul_triangle]
    obtain ⟨d, rfl⟩ := Nat.exists_eq_add_of_lt hst
    rw [show s + d + 1 - s = d + 1 by omega]
    apply Nat.sub_eq_of_eq_add
    ring
  have hpow : 2 ^ (m + 1) ∣ (t - s) * (t + s + 1) := by
    rw [← htwice, pow_succ, Nat.mul_comm]
    exact Nat.mul_dvd_mul_left 2 hdvd
  rcases Nat.even_or_odd (t - s) with heven | hodd
  · have hother : Odd (t + s + 1) := by
      obtain ⟨c, hc⟩ := heven
      exact ⟨s + c, by omega⟩
    have hle := Nat.le_of_dvd (by omega)
      ((hother.coprime_two_left.pow_left (m + 1)).dvd_of_dvd_mul_right hpow)
    rw [pow_succ] at hle
    omega
  · have hle := Nat.le_of_dvd (by omega)
      ((hodd.coprime_two_left.pow_left (m + 1)).dvd_of_dvd_mul_left hpow)
    rw [pow_succ] at hle
    omega

/-- **The first `n` buckets of a path are distinct.** -/
theorem probe_injOn {m h s t : Nat} (hs : s < 2 ^ m) (ht : t < 2 ^ m)
    (heq : probe (2 ^ m) h s = probe (2 ^ m) h t) : s = t := by
  have hmono : ∀ {a b : Nat}, a ≤ b → a * (a + 1) / 2 ≤ b * (b + 1) / 2 := fun hab =>
    Nat.div_le_div_right (Nat.mul_le_mul hab (by omega))
  rcases Nat.lt_trichotomy s t with hlt | rfl | hgt
  · have hdvd := (Nat.modEq_iff_dvd' (Nat.add_le_add_left (hmono hlt.le) h)).mp heq
    rw [Nat.add_sub_add_left] at hdvd
    exact absurd hdvd (not_dvd_triangle_sub hlt ht)
  · rfl
  · have hdvd := (Nat.modEq_iff_dvd' (Nat.add_le_add_left (hmono hgt.le) h)).mp heq.symm
    rw [Nat.add_sub_add_left] at hdvd
    exact absurd hdvd (not_dvd_triangle_sub hgt hs)

/-- **A path visits every bucket.** -/
theorem exists_probe {m b : Nat} (h : Nat) (hb : b < 2 ^ m) :
    ∃ s < 2 ^ m, probe (2 ^ m) h s = b := by
  have hinj : Function.Injective fun s : Fin (2 ^ m) =>
      (⟨probe (2 ^ m) h s, probe_lt (by positivity) h s⟩ : Fin (2 ^ m)) := by
    intro s t heq
    exact Fin.ext (probe_injOn s.isLt t.isLt (congrArg Fin.val heq))
  obtain ⟨s, hs⟩ := (Finite.injective_iff_surjective.mp hinj) ⟨b, hb⟩
  exact ⟨s, s.isLt, congrArg Fin.val hs⟩

/-- A search that may stop in some bucket stops within `n` steps. -/
theorem first_stop {m b : Nat} (h : Nat) {stop : Nat → Bool} (hb : b < 2 ^ m)
    (hstop : stop b = true) :
    ∃ s < 2 ^ m, stop (probe (2 ^ m) h s) = true ∧
      ∀ t < s, stop (probe (2 ^ m) h t) = false := by
  obtain ⟨s, hs, rfl⟩ := exists_probe h hb
  have hex : ∃ s, stop (probe (2 ^ m) h s) = true := ⟨s, hstop⟩
  refine ⟨Nat.find hex, Nat.lt_of_le_of_lt (Nat.find_min' hex hstop) hs, Nat.find_spec hex, ?_⟩
  intro t ht
  simpa using Nat.find_min hex ht

section Walk

variable {stop : Nat → Bool} {m h s : Nat}

/-- The search loop: from bucket `i`, with `step` steps taken, until `stop`.  It gives up where
    `back` holds of the next bucket.  Without fuel it does not return. -/
def walk (stop back : Nat → Bool) (mask : Nat) : Nat → Nat → Nat → Option (Option Nat)
  | 0, _, _ => none
  | fuel + 1, step, i =>
      if stop i then some (some i)
      else if back ((i + (step + 1)) &&& mask) then some none
      else walk stop back mask fuel (step + 1) ((i + (step + 1)) &&& mask)

/-- The loop from step `t` of the path on. -/
theorem walk_from {back : Nat → Bool} (hstop : stop (probe (2 ^ m) h s) = true)
    (hback : ∀ t, 0 < t → t ≤ s → back (probe (2 ^ m) h t) = false) {fuel t : Nat} (hts : t ≤ s)
    (hgo : ∀ u, t ≤ u → u < s → stop (probe (2 ^ m) h u) = false) (hfuel : s < t + fuel) :
    walk stop back (2 ^ m - 1) fuel t (probe (2 ^ m) h t)
      = some (some (probe (2 ^ m) h s)) := by
  induction fuel generalizing t with
  | zero => omega
  | succ fuel ih =>
    unfold walk
    rcases Nat.eq_or_lt_of_le hts with rfl | hlt
    · rw [if_pos hstop]
    · have hnext := hback (t + 1) (by omega) hlt
      rw [if_neg (by simp [hgo t (le_refl t) hlt]), ← probe_succ_mask, if_neg (by simp [hnext])]
      exact ih hlt (fun u hu hus => hgo u (by omega) hus) (by omega)

/-- **Where the search ends.** At the first bucket of the path where it may stop, before the
    path comes back to its start. -/
theorem walk_first (hs : s < 2 ^ m) (hstop : stop (probe (2 ^ m) h s) = true)
    (hgo : ∀ t < s, stop (probe (2 ^ m) h t) = false) {back : Nat → Bool}
    (hback : ∀ i, back i = true → i = h &&& (2 ^ m - 1)) {fuel : Nat} (hfuel : 2 ^ m ≤ fuel) :
    walk stop back (2 ^ m - 1) fuel 0 (h &&& (2 ^ m - 1))
      = some (some (probe (2 ^ m) h s)) := by
  have hstart : h &&& (2 ^ m - 1) = probe (2 ^ m) h 0 := Nat.and_two_pow_sub_one_eq_mod h m
  rw [hstart]
  apply walk_from hstop ?_ (Nat.zero_le s) (fun u _ hu => hgo u hu) (by omega)
  intro t ht hts
  by_contra hb
  have hzero := hback _ (by simpa using hb)
  rw [hstart] at hzero
  have := probe_injOn (Nat.lt_of_le_of_lt hts hs) (by positivity) hzero
  omega

end Walk

section Table

variable {κ : Type*} {n : Nat} {used live : Nat → Prop} {key : Nat → κ} {hash : κ → Nat}

/-- Every bucket that the path of `h` visits before `b` is in use. -/
def Reaches (n : Nat) (used : Nat → Prop) (h b : Nat) : Prop :=
  ∃ s, probe n h s = b ∧ ∀ t < s, used (probe n h t)

theorem Reaches.mono {used' : Nat → Prop} {h b : Nat} (hr : Reaches n used h b)
    (hsub : ∀ b, used b → used' b) : Reaches n used' h b := by
  obtain ⟨s, hs, hused⟩ := hr
  exact ⟨s, hs, fun t ht => hsub _ (hused t ht)⟩

/-- **A search finds its key.** In a table whose live buckets hold different keys, each of them
    reached by the path of its hash, the search for `k` along its path ends in a bucket of `k`
    exactly when a live bucket holds `k`. -/
theorem search_key {k : κ} {s : Nat}
    (hreach : ∀ b, live b → Reaches n used (hash (key b)) b)
    (hstop : ¬ used (probe n (hash k) s) ∨
      live (probe n (hash k) s) ∧ key (probe n (hash k) s) = k)
    (hgo : ∀ t < s, ¬ (¬ used (probe n (hash k) t) ∨
      live (probe n (hash k) t) ∧ key (probe n (hash k) t) = k)) :
    (∃ b, live b ∧ key b = k) ↔
      live (probe n (hash k) s) ∧ key (probe n (hash k) s) = k := by
  constructor
  · rintro ⟨b, hb, rfl⟩
    obtain ⟨t, ht, hpath⟩ := hreach b hb
    rcases Nat.lt_trichotomy s t with hst | rfl | hts
    · exact hstop.resolve_left (fun hfree => hfree (hpath s hst))
    · rw [ht]
      exact ⟨hb, rfl⟩
    · refine absurd (Or.inr ?_) (hgo t hts)
      rw [ht]
      exact ⟨hb, rfl⟩
  · intro hfound
    exact ⟨_, hfound⟩

end Table

section Count

variable {n i : Nat} {p q : Nat → Prop} [DecidablePred p] [DecidablePred q]

/-- One bucket more. -/
theorem card_filter_succ (hi : i < n) (hp : ¬ p i) (hq : q i) (hother : ∀ j, j ≠ i → (q j ↔ p j)) :
    ((Finset.range n).filter q).card = ((Finset.range n).filter p).card + 1 := by
  have hinsert : (Finset.range n).filter q = insert i ((Finset.range n).filter p) := by
    ext j
    rw [Finset.mem_insert, Finset.mem_filter, Finset.mem_filter, Finset.mem_range]
    by_cases hj : j = i
    · subst hj
      simp [hi, hq]
    · simp [hj, hother j hj]
  rw [hinsert, Finset.card_insert_of_notMem (by simp [hp])]

/-- Fewer buckets in use than there are: one is not. -/
theorem exists_not_of_card_lt (h : ((Finset.range n).filter p).card < n) : ∃ i < n, ¬ p i := by
  by_contra hall
  push Not at hall
  rw [Finset.filter_true_of_mem (fun i hi => hall i (Finset.mem_range.mp hi)),
    Finset.card_range] at h
  omega

end Count

end Probing
