import Sdiol.Rehash

namespace Sdiol

open Probing

/-!
# The hash table is a map

The operations of `khash.h` that search a table, on a table that holds the entries of a map
(`Khash.IsMap`), and then any sequence of operations.

* `khGet_isMap`, `khPut_isMap`, `khDel_isMap` — what each operation does to the map;
* `entries_isMap` — a loop over the buckets visits every entry, once;
* `MapStep` — the operations on a map, without any buckets;
* `khash_refines_map` — every run of the table answers as the map does.

The sizes are 32-bit numbers: up to `2 ^ 30` entries nothing overflows.
-/

variable {κ ν : Type} {hash : κ → Nat} {m : κ → Option ν} {h : Khash κ ν}

/-! ### Searching -/

/-- The table has an empty bucket. -/
theorem Khash.IsMap.exists_empty (hm : h.IsMap hash m) (hne : h.nBuckets ≠ 0) :
    ∃ b < h.nBuckets, ¬ Used h.flags b := by
  apply exists_not_of_card_lt
  obtain ⟨e, he, -, hpow⟩ := hm.buckets.resolve_left hne
  have hfour : 4 ≤ h.nBuckets := by
    rw [hpow]
    exact Nat.pow_le_pow_right (n := 2) (by decide) he
  have hupper := hashUpper_lt hfour
  have hroom := hm.room
  rw [hm.occupied, hm.upper] at hroom
  exact Nat.lt_of_le_of_lt hroom hupper

variable [DecidableEq κ]

/-- Where the search loops stop. -/
theorem Khash.stops_iff {key : κ} {i : Nat} (hi : i < h.nBuckets) :
    h.stops key i = true ↔
      ¬ Used h.flags i ∨ Live h.flags h.nBuckets i ∧ h.keys i = key := by
  unfold Khash.stops
  rw [live_iff]
  unfold Used
  cases acIsempty h.flags i <;> cases acIsdel h.flags i <;> simp [hi]

/-- The end of the search for `key`: the bucket of its entry, or an empty one. -/
structure Khash.Ends (h : Khash κ ν) (hash : κ → Nat) (m : κ → Option ν) (key : κ) (s : Nat) :
    Prop where
  within : s < h.nBuckets
  stop : h.stops key (probe h.nBuckets (hash key) s) = true
  go : ∀ t < s, h.stops key (probe h.nBuckets (hash key) t) = false
  found : ∀ v, m key = some v ↔ Live h.flags h.nBuckets (probe h.nBuckets (hash key) s) ∧
    h.keys (probe h.nBuckets (hash key) s) = key ∧
    h.vals (probe h.nBuckets (hash key) s) = v

theorem Khash.IsMap.exists_end (hm : h.IsMap hash m) (hne : h.nBuckets ≠ 0) (key : κ) :
    ∃ s, h.Ends hash m key s := by
  obtain ⟨b, hb, hfree⟩ := hm.exists_empty hne
  obtain ⟨e, -, -, hpow⟩ := hm.buckets.resolve_left hne
  have hstop : h.stops key b = true := (Khash.stops_iff hb).mpr (Or.inl hfree)
  rw [hpow] at hb
  obtain ⟨s, hs, hends, hgo⟩ := first_stop (hash key) hb hstop
  rw [← hpow] at hs hends hgo
  have hlt : ∀ t, probe h.nBuckets (hash key) t < h.nBuckets := probe_lt (by omega) _
  refine ⟨s, hs, hends, hgo, ?_⟩
  have hsearch := search_key hm.reach ((Khash.stops_iff (hlt s)).mp hends)
    (fun t ht hst => by
      have := (Khash.stops_iff (hlt t)).mpr hst
      rw [hgo t ht] at this
      exact absurd this (by decide))
  intro v
  constructor
  · intro hv
    obtain ⟨i, hi, hik, -⟩ := hm.entries.exists_slot hv
    obtain ⟨hlive, hkey⟩ := hsearch.mp ⟨i, hi, hik⟩
    have hval := hm.entries.of_full hlive
    rw [hkey, hv] at hval
    exact ⟨hlive, hkey, (Option.some.inj hval).symm⟩
  · rintro ⟨hlive, hkey, rfl⟩
    rw [← hm.entries.of_full hlive, hkey]

/-- A search that ends without the key ends at an empty bucket. -/
theorem Khash.Ends.empty {key : κ} {s : Nat} (he : h.Ends hash m key s) (hnone : m key = none) :
    ¬ Used h.flags (probe h.nBuckets (hash key) s) := by
  rcases (Khash.stops_iff (probe_lt (by have := he.within; omega) _ _)).mp he.stop with hfree | hkey
  · exact hfree
  · have := (he.found _).mpr ⟨hkey.1, hkey.2, rfl⟩
    rw [hnone] at this
    exact absurd this (by simp)

/-- The buckets before the end of the search are in use. -/
theorem Khash.Ends.used {key : κ} {s t : Nat} (he : h.Ends hash m key s) (ht : t < s) :
    Used h.flags (probe h.nBuckets (hash key) t) := by
  by_contra hfree
  have hstop : h.stops key (probe h.nBuckets (hash key) t) = true :=
    (Khash.stops_iff (probe_lt (by have := he.within; omega) _ _)).mpr (Or.inl hfree)
  rw [he.go t ht] at hstop
  exact absurd hstop (by decide)

/-- What `kh_get` answers: the bucket of the key's entry, or `n_buckets`. -/
theorem khGet_isMap (hm : h.IsMap hash m) (key : κ) :
    ∃ x, khGet hash h key = some x ∧
      (x = h.nBuckets ∧ m key = none ∨
        Live h.flags h.nBuckets x ∧ h.keys x = key ∧ m key = some (h.vals x)) := by
  unfold khGet
  by_cases hne : h.nBuckets = 0
  · rw [if_neg (by simp [hne])]
    refine ⟨0, rfl, Or.inl ⟨hne.symm, hm.entries.eq_none (fun i hi => ?_)⟩⟩
    exact absurd hi.1 (by omega)
  · rw [if_pos hne]
    obtain ⟨s, he⟩ := hm.exists_end hne key
    obtain ⟨e, -, -, hpow⟩ := hm.buckets.resolve_left hne
    have hwalk : walk (h.stops key) (fun i => i == (hash key &&& (h.nBuckets - 1)))
        (h.nBuckets - 1) (2 * h.nBuckets) 0 (hash key &&& (h.nBuckets - 1))
          = some (some (probe h.nBuckets (hash key) s)) := by
      have hwithin := he.within
      have hstop := he.stop
      have hgo := he.go
      rw [hpow] at hwithin hstop hgo ⊢
      exact walk_first hwithin hstop hgo (by simp) (by omega)
    simp only [hwalk]
    refine ⟨_, rfl, ?_⟩
    cases hkey : m key with
    | none =>
      have hempty := he.empty hkey
      have heither : acIseither h.flags (probe h.nBuckets (hash key) s) = true := by
        rw [acIseither_eq]
        simpa [Used] using Or.inl hempty
      rw [if_pos heither]
      exact Or.inl ⟨rfl, rfl⟩
    | some v =>
      obtain ⟨hlive, hk, hv⟩ := (he.found v).mp hkey
      rw [if_neg (by simp [hlive.2])]
      exact Or.inr ⟨hlive, hk, by rw [hv]⟩

/-! ### Storing -/

/-- What the search loop of `kh_put` remembers: `n_buckets`, or a deleted bucket that the path
    visits before step `t`. -/
def Khash.Site (h : Khash κ ν) (hash : κ → Nat) (key : κ) (t site : Nat) : Prop :=
  site = h.nBuckets ∨
    ∃ u < t, probe h.nBuckets (hash key) u = site ∧ acIsdel h.flags site = true

/-- The search loop of `kh_put` from step `t` on. -/
theorem Khash.Ends.putLoop {key : κ} {s : Nat} (he : h.Ends hash m key s) {e : Nat}
    (hpow : h.nBuckets = 2 ^ e) {fuel t site : Nat} (hts : t ≤ s) (hfuel : s < t + fuel)
    (hsite : h.Site hash key t site) :
    ∃ site', putLoop h key (h.nBuckets - 1) (hash key &&& (h.nBuckets - 1)) fuel t
        (probe h.nBuckets (hash key) t) site
          = some (h.nBuckets, site', probe h.nBuckets (hash key) s) ∧
      h.Site hash key s site' := by
  induction fuel generalizing t site with
  | zero => omega
  | succ fuel ih =>
    unfold Sdiol.putLoop
    rcases Nat.eq_or_lt_of_le hts with rfl | hlt
    · rw [if_pos he.stop]
      exact ⟨site, rfl, hsite⟩
    · have hnext : probe h.nBuckets (hash key) t + (t + 1) &&& (h.nBuckets - 1)
          = probe h.nBuckets (hash key) (t + 1) := by
        rw [hpow]
        exact (probe_succ_mask e (hash key) t).symm
      -- The path does not come back to its start before the search ends.
      have hback : ¬ probe h.nBuckets (hash key) (t + 1) = hash key &&& (h.nBuckets - 1) := by
        intro hstart
        have hwithin := he.within
        rw [hpow] at hstart hwithin
        rw [Nat.and_two_pow_sub_one_eq_mod, ← probe_zero] at hstart
        exact absurd (probe_injOn (by omega) (by positivity) hstart) (by omega)
      rw [if_neg (by simp [he.go t hlt])]
      simp only [hnext]
      rw [if_neg hback]
      apply ih hlt (by omega)
      by_cases hdel : acIsdel h.flags (probe h.nBuckets (hash key) t) = true
      · rw [if_pos hdel]
        exact Or.inr ⟨t, by omega, rfl, hdel⟩
      · rw [if_neg hdel]
        exact hsite.imp_right (fun ⟨u, hu, hvisit⟩ => ⟨u, by omega, hvisit⟩)

/-- The bucket that `kh_put` settles on: the one of the key's entry, or one without an entry to
    which the path of the key leads. -/
theorem putBucket_isMap (hm : h.IsMap hash m) (hne : h.nBuckets ≠ 0) (key : κ) :
    ∃ x, putBucket hash h key = some x ∧ x < h.nBuckets ∧
      (m key = none → acIseither h.flags x = true ∧
        Reaches h.nBuckets (Used h.flags) (hash key) x) ∧
      ∀ v, m key = some v → Live h.flags h.nBuckets x ∧ h.keys x = key := by
  obtain ⟨s, he⟩ := hm.exists_end hne key
  obtain ⟨e, -, -, hpow⟩ := hm.buckets.resolve_left hne
  have hlt : ∀ t, probe h.nBuckets (hash key) t < h.nBuckets := probe_lt (by omega) _
  have hstart : hash key &&& (h.nBuckets - 1) = probe h.nBuckets (hash key) 0 := by
    rw [hpow, probe_zero, Nat.and_two_pow_sub_one_eq_mod]
  -- What the bucket where the search ends is good for, whichever way it is chosen.
  have hend : ∀ x, x = probe h.nBuckets (hash key) s →
      x < h.nBuckets ∧ (m key = none → acIseither h.flags x = true ∧
        Reaches h.nBuckets (Used h.flags) (hash key) x) ∧
      ∀ v, m key = some v → Live h.flags h.nBuckets x ∧ h.keys x = key := by
    rintro x rfl
    refine ⟨hlt s, fun hnone => ⟨?_, s, rfl, fun t ht => he.used ht⟩, fun v hv => ?_⟩
    · rw [acIseither_eq]
      simpa [Used] using Or.inl (he.empty hnone)
    · obtain ⟨hlive, hkey, -⟩ := (he.found v).mp hv
      exact ⟨hlive, hkey⟩
  unfold putBucket
  by_cases hfirst : acIsempty h.flags (hash key &&& (h.nBuckets - 1)) = true
  · refine ⟨hash key &&& (h.nBuckets - 1), if_pos hfirst, hend _ ?_⟩
    -- The first bucket is empty, so the search ends there.
    rw [hstart] at hfirst ⊢
    have hzero : s = 0 := by
      by_contra hs
      have := he.used (Nat.pos_of_ne_zero hs)
      unfold Used at this
      rw [hfirst] at this
      exact absurd this (by decide)
    rw [hzero]
  · have hfuel : s < 0 + 2 * h.nBuckets := by
      have := he.within
      omega
    obtain ⟨site, hloop, hsite⟩ := he.putLoop hpow (Nat.zero_le s) hfuel
      (Or.inl rfl : h.Site hash key 0 h.nBuckets)
    rw [← hstart] at hloop
    simp only [hloop, Option.bind_eq_bind, Option.bind_some, if_neg hfirst, if_true]
    refine ⟨_, rfl, ?_⟩
    by_cases hdeleted : (acIsempty h.flags (probe h.nBuckets (hash key) s) &&
        decide (site ≠ h.nBuckets)) = true
    · rw [if_pos hdeleted]
      rw [Bool.and_eq_true, decide_eq_true_eq] at hdeleted
      obtain ⟨u, hu, rfl, hdel⟩ := hsite.resolve_left hdeleted.2
      refine ⟨hlt u, fun _ => ⟨?_, u, rfl, fun t ht => he.used (by omega)⟩, fun v hv => ?_⟩
      · rw [acIseither_eq, hdel, Bool.or_true]
      · -- The key has no entry, since the search ends at an empty bucket.
        have hlive := ((he.found v).mp hv).1
        have := hlive.used
        unfold Used at this
        rw [hdeleted.1] at this
        exact absurd this (by decide)
    · rw [if_neg hdeleted]
      exact hend _ rfl

/-- A bucket whose flags are cleared. -/
theorem live_setIsbothFalse {flags : Flags} {n i j : Nat} (hj : j < n) :
    Live (acSetIsbothFalse flags j) n i ↔ Live flags n i ∨ i = j := by
  simp only [live_iff, Used, acIsempty_setIsbothFalse, acIsdel_setIsbothFalse]
  by_cases hij : i = j
  · simp [hij, hj]
  · simp [hij]

theorem used_setIsbothFalse {flags : Flags} {i j : Nat} :
    Used (acSetIsbothFalse flags j) i ↔ Used flags i ∨ i = j := by
  unfold Used
  rw [acIsempty_setIsbothFalse, Bool.and_eq_false_iff]
  simp

theorem liveCount_setIsbothFalse {flags : Flags} {n j : Nat} (hj : j < n)
    (hfree : acIseither flags j = true) :
    liveCount (acSetIsbothFalse flags j) n = liveCount flags n + 1 :=
  card_filter_succ hj (fun hlive => by simp [hlive.2] at hfree)
    ((live_setIsbothFalse hj).mpr (Or.inr rfl))
    (fun i hi => by rw [live_setIsbothFalse hj, or_iff_left hi])

omit [DecidableEq κ] in
/-- The paths after the key went into its bucket. -/
theorem Khash.IsMap.reach_put (hm : h.IsMap hash m) {key : κ} {x : Nat} (hx : x < h.nBuckets)
    (hreach : Reaches h.nBuckets (Used h.flags) (hash key) x) (i : Nat)
    (hi : Live (acSetIsbothFalse h.flags x) h.nBuckets i) :
    Reaches h.nBuckets (Used (acSetIsbothFalse h.flags x))
      (hash (Function.update h.keys x key i)) i := by
  have hgrow : ∀ b, Used h.flags b → Used (acSetIsbothFalse h.flags x) b := fun b hb =>
    used_setIsbothFalse.mpr (Or.inl hb)
  by_cases hix : i = x
  · subst hix
    rw [Function.update_self]
    exact hreach.mono hgrow
  · rw [Function.update_of_ne hix]
    exact (hm.reach i (((live_setIsbothFalse hx).mp hi).resolve_right hix)).mono hgrow

/-- The entries after the key and its value went into the bucket. -/
theorem Khash.IsMap.entries_put (hm : h.IsMap hash m) {key : κ} {x : Nat} (hx : x < h.nBuckets)
    (hfree : acIseither h.flags x = true) (hnone : m key = none) (v : ν) :
    Slots.Holds (Function.update m key (some v)) (Live (acSetIsbothFalse h.flags x) h.nBuckets)
      (Function.update h.keys x key) (Function.update h.vals x v) none :=
  ((hm.entries.pick hnone v).put (fun hlive => by simp [hlive.2] at hfree)).congr
    (fun _ => live_setIsbothFalse hx)

/-- A new key and its value. -/
theorem putKey_isMap (hm : h.IsMap hash m) (hroom : h.nOccupied < h.upperBound) {key : κ} {x : Nat}
    (hx : x < h.nBuckets) (hfree : acIseither h.flags x = true)
    (hreach : Reaches h.nBuckets (Used h.flags) (hash key) x) (hnone : m key = none) (v : ν) :
    (putKey key x h).1 ≠ -1 ∧ (putKey key x h).1 ≠ 0 ∧ (putKey key x h).2.size = h.size + 1 ∧
      ((putKey key x h).2.setVal x v).IsMap hash (Function.update m key (some v)) := by
  have hsize := hm.size
  have hlive := liveCount_setIsbothFalse hx hfree
  unfold putKey
  by_cases hempty : acIsempty h.flags x = true
  · rw [if_pos hempty]
    refine ⟨by simp, by simp, rfl, hm.buckets, hm.upper, ?_, ?_, hroom,
      hm.entries_put hx hfree hnone v, hm.reach_put hx hreach⟩
    · change h.size + 1 = liveCount (acSetIsbothFalse h.flags x) h.nBuckets
      omega
    · have hoccupied := hm.occupied
      have hused : usedCount (acSetIsbothFalse h.flags x) h.nBuckets
          = usedCount h.flags h.nBuckets + 1 :=
        card_filter_succ hx (by simp [Used, hempty]) (used_setIsbothFalse.mpr (Or.inr rfl))
          (fun i hi => by rw [used_setIsbothFalse, or_iff_left hi])
      change h.nOccupied + 1 = usedCount (acSetIsbothFalse h.flags x) h.nBuckets
      omega
  · have hdel : acIsdel h.flags x = true := by
      rw [acIseither_eq, Bool.or_eq_true] at hfree
      exact hfree.resolve_left hempty
    rw [if_neg hempty, if_pos hdel]
    refine ⟨by simp, by simp, rfl, hm.buckets, hm.upper, ?_, ?_, hroom.le,
      hm.entries_put hx hfree hnone v, hm.reach_put hx hreach⟩
    · change h.size + 1 = liveCount (acSetIsbothFalse h.flags x) h.nBuckets
      omega
    · -- A deleted bucket was in use already.
      change h.nOccupied = usedCount (acSetIsbothFalse h.flags x) h.nBuckets
      rw [hm.occupied]
      unfold usedCount
      congr 1
      apply Finset.filter_congr
      intro i _
      rw [used_setIsbothFalse]
      constructor
      · exact Or.inl
      · rintro (hi | rfl)
        · exact hi
        · simpa [Used] using hempty

/-- A request between two powers of two is rounded up to the larger one. -/
theorem roundedBuckets_eq {n e : Nat} (he : 2 ≤ e) (he' : e ≤ 31) (hlow : 2 ^ (e - 1) < n)
    (hhigh : n ≤ 2 ^ e) : roundedBuckets n = 2 ^ e := by
  have hpow : 2 ^ e ≤ 2 ^ 31 := Nat.pow_le_pow_right (by decide) he'
  have hfour : 2 ^ 2 ≤ 2 ^ e := Nat.pow_le_pow_right (by decide) he
  have hsize : (n - 1).size = e := by
    have hle : (n - 1).size ≤ e := Nat.size_le.mpr (by omega)
    have hlt : e - 1 < (n - 1).size := Nat.lt_size.mpr (by omega)
    omega
  unfold roundedBuckets
  rw [kroundup32_eq (Nat.zero_lt_of_lt hlow) (by omega), hsize]
  exact if_neg (by omega)

omit [DecidableEq κ] in
/-- An entry is in a bucket in use. -/
theorem Khash.IsMap.size_le (hm : h.IsMap hash m) : h.size ≤ h.nOccupied := by
  rw [hm.size, hm.occupied]
  unfold liveCount usedCount
  exact Finset.card_le_card (Finset.monotone_filter_right _ fun _ _ hlive => hlive.used)

omit [DecidableEq κ] in
/-- The request of `kh_put` for a table of which less than half the buckets hold entries. -/
theorem Khash.IsMap.room_cleared (hm : h.IsMap hash m) (hmany : h.nBuckets > 2 * h.size) :
    0 < h.nBuckets - 1 ∧ h.nBuckets - 1 ≤ 2 ^ 31 ∧
      h.size < hashUpper (roundedBuckets (h.nBuckets - 1)) := by
  obtain ⟨e, he, he', hpow⟩ := hm.buckets.resolve_left (by omega)
  have hfour : 2 ^ 2 ≤ 2 ^ e := Nat.pow_le_pow_right (by decide) he
  have hmax : 2 ^ e ≤ 2 ^ 31 := Nat.pow_le_pow_right (by decide) he'
  have hhalf : 2 ^ e = 2 * 2 ^ (e - 1) := by
    rw [← pow_succ', Nat.sub_add_cancel (by omega)]
  have hrounded : roundedBuckets (h.nBuckets - 1) = 2 ^ e :=
    roundedBuckets_eq he he' (by omega) (by omega)
  refine ⟨by omega, by omega, ?_⟩
  rw [hrounded]
  unfold hashUpper
  omega

omit [DecidableEq κ] in
/-- The request of `kh_put` for a table of which half the buckets or more hold entries. -/
theorem Khash.IsMap.room_grown (hm : h.IsMap hash m) (hfew : h.size < 2 ^ 30)
    (hhalf : h.nBuckets ≤ 2 * h.size) :
    h.nBuckets + 1 ≤ 2 ^ 31 ∧ h.size < hashUpper (roundedBuckets (h.nBuckets + 1)) := by
  have hle := Nat.le_trans hm.size_le hm.room
  rw [hm.upper] at hle
  rcases hm.buckets with hzero | ⟨e, he, he', hpow⟩
  · rw [hzero] at hle ⊢
    have hrounded : roundedBuckets (0 + 1) = 4 := by decide
    rw [hrounded]
    unfold hashUpper at *
    omega
  · have hfour : 2 ^ 2 ≤ 2 ^ e := Nat.pow_le_pow_right (by decide) he
    have hexp : e + 1 ≤ 31 := by
      by_contra hlarge
      have := Nat.pow_le_pow_right (n := 2) (by decide) (show 31 ≤ e by omega)
      omega
    have hmax : 2 ^ (e + 1) ≤ 2 ^ 31 := Nat.pow_le_pow_right (by decide) hexp
    have hdouble : 2 ^ (e + 1) = 2 * 2 ^ e := pow_succ' 2 e
    have hrounded : roundedBuckets (h.nBuckets + 1) = 2 ^ (e + 1) :=
      roundedBuckets_eq (by omega) hexp (by rw [Nat.add_sub_cancel]; omega) (by omega)
    refine ⟨by omega, ?_⟩
    rw [hrounded, hdouble]
    rw [hpow] at hle
    unfold hashUpper at *
    omega

/-- **Room for one more.** `kh_put` clears the deleted buckets or doubles the table when too many
    buckets are in use, so that afterwards one more bucket may be. -/
theorem putRoom_isMap (hm : h.IsMap hash m) (hfew : h.size < 2 ^ 30) (alloc : ResizeAlloc) :
    ∃ room h', putRoom hash alloc h = some (room, h') ∧ h'.IsMap hash m ∧ h'.size = h.size ∧
      (room = false → h' = h ∧ alloc ≠ .ok) ∧
      (room = true → h'.nOccupied < h'.upperBound) := by
  unfold putRoom
  by_cases hfull : h.nOccupied ≥ h.upperBound
  · rw [if_pos hfull]
    have hshift : (h.size <<< 1) % 2 ^ 32 = 2 * h.size := by
      rw [Nat.shiftLeft_eq]
      omega
    rw [hshift]
    by_cases hmany : h.nBuckets > 2 * h.size
    · rw [if_pos hmany]
      obtain ⟨hpos, hmax, hroom⟩ := hm.room_cleared hmany
      obtain ⟨room, h', hresize, hm', hfailed, hdone⟩ := khResize_isMap hm alloc hpos hmax
      refine ⟨room, h', hresize, hm', ?_, hfailed, fun hr => (hdone hr hroom).2⟩
      cases room with
      | false => rw [(hfailed rfl).1]
      | true => exact (hdone rfl hroom).1
    · rw [if_neg hmany]
      obtain ⟨hmax, hroom⟩ := hm.room_grown hfew (Nat.le_of_not_lt hmany)
      rw [Nat.mod_eq_of_lt (by omega : h.nBuckets + 1 < 2 ^ 32)]
      obtain ⟨room, h', hresize, hm', hfailed, hdone⟩ :=
        khResize_isMap hm alloc (Nat.succ_pos _) hmax
      refine ⟨room, h', hresize, hm', ?_, hfailed, fun hr => (hdone hr hroom).2⟩
      cases room with
      | false => rw [(hfailed rfl).1]
      | true => exact (hdone rfl hroom).1
  · rw [if_neg hfull]
    exact ⟨true, h, rfl, hm, rfl, by simp, fun _ => by omega⟩

/-- `kh_put` followed by `kh_val(h, k) = value`. -/
theorem khPut_isMap (hm : h.IsMap hash m) (hfew : h.size < 2 ^ 30) (alloc : ResizeAlloc) (key : κ) :
    ∃ x ret h', khPut hash alloc key h = some (x, ret, h') ∧ h'.size ≤ h.size + 1 ∧
      (ret = -1 ∧ alloc ≠ .ok ∧ h' = h ∨
        ret ≠ -1 ∧ (ret = 0 ↔ m key ≠ none) ∧
          ∀ v, (h'.setVal x v).IsMap hash (Function.update m key (some v))) := by
  obtain ⟨room, h₁, hroom, hm₁, hsize, hfailed, hfree⟩ := putRoom_isMap hm hfew alloc
  unfold khPut
  simp only [hroom, Option.bind_eq_bind, Option.bind_some]
  cases room with
  | false =>
    rw [if_neg (by simp)]
    exact ⟨_, _, _, rfl, by omega, Or.inl ⟨rfl, (hfailed rfl).2, (hfailed rfl).1⟩⟩
  | true =>
    have hlt := hfree rfl
    have hne : h₁.nBuckets ≠ 0 := by
      intro hzero
      have hupper := hm₁.upper
      rw [hzero, show hashUpper 0 = 0 from rfl] at hupper
      omega
    obtain ⟨x, hx, hwithin, hnone, hsome⟩ := putBucket_isMap hm₁ hne key
    rw [if_pos rfl]
    simp only [hx, Option.bind_some]
    refine ⟨_, _, _, rfl, ?_⟩
    cases hkey : m key with
    | none =>
      obtain ⟨hbucket, hreach⟩ := hnone hkey
      have hput := putKey_isMap hm₁ hlt hwithin hbucket hreach hkey
      by_cases hv : Nonempty ν
      · obtain ⟨v⟩ := hv
        obtain ⟨hret, hzero, hcount, -⟩ := hput v
        exact ⟨by omega, Or.inr ⟨hret, by simp [hzero], fun v => (hput v).2.2.2⟩⟩
      · -- No value to store: the type of the values is empty.
        exact absurd ⟨h₁.vals 0⟩ hv
    | some v =>
      obtain ⟨hlive, hk⟩ := hsome v hkey
      have hpresent : putKey key x h₁ = (0, h₁) := by
        unfold putKey
        have hflags := hlive.2
        rw [acIseither_eq, Bool.or_eq_false_iff] at hflags
        rw [if_neg (by simp [hflags.1]), if_neg (by simp [hflags.2])]
      rw [hpresent]
      refine ⟨show h₁.size ≤ h.size + 1 by omega, Or.inr ⟨by simp, by simp, fun v => ?_⟩⟩
      have hset := hm₁.entries.setVal hlive v
      rw [hk] at hset
      exact ⟨hm₁.buckets, hm₁.upper, hm₁.size, hm₁.occupied, hm₁.room, hset, hm₁.reach⟩

/-! ### Deleting -/

/-- `kh_del` of what `kh_get` answered. -/
theorem khDel_isMap (hm : h.IsMap hash m) {key : κ} {x : Nat}
    (hx : x = h.nBuckets ∧ m key = none ∨
      Live h.flags h.nBuckets x ∧ h.keys x = key ∧ m key = some (h.vals x)) :
    (khDel x h).IsMap hash (Function.update m key none) ∧ (khDel x h).size ≤ h.size := by
  unfold khDel
  rcases hx with ⟨rfl, hnone⟩ | ⟨hlive, rfl, -⟩
  · rw [if_neg (by simp), ← hnone, Function.update_eq_self]
    exact ⟨hm, le_refl _⟩
  · have hne : x ≠ h.nBuckets := Nat.ne_of_lt hlive.1
    rw [if_pos (by simp [hne, hlive.2])]
    have hused : ∀ i, Used (acSetIsdelTrue h.flags x) i ↔ Used h.flags i := fun i => by
      unfold Used
      rw [acIsempty_setIsdelTrue]
    refine ⟨⟨hm.buckets, hm.upper, ?_, ?_, hm.room,
      (hm.entries.take hlive).drop.congr (fun _ => live_setIsdelTrue), fun i hi => ?_⟩,
      Nat.sub_le ..⟩
    · have hless := liveCount_setIsdelTrue hlive
      have hsize := hm.size
      change h.size - 1 = liveCount (acSetIsdelTrue h.flags x) h.nBuckets
      omega
    · change h.nOccupied = usedCount (acSetIsdelTrue h.flags x) h.nBuckets
      rw [hm.occupied]
      unfold usedCount
      congr 1
      apply Finset.filter_congr
      intro i _
      rw [hused]
    · exact (hm.reach i (live_setIsdelTrue.mp hi).1).mono (fun b hb => (hused b).mpr hb)

/-! ### Enumerating -/

omit [DecidableEq κ] in
/-- **A loop over the buckets visits every entry, once.** -/
theorem entries_isMap (hm : h.IsMap hash m) :
    (h.entries.map Prod.fst).Nodup ∧ ∀ k v, (k, v) ∈ h.entries ↔ m k = some v := by
  have hmem : ∀ i, i ∈ (List.range h.nBuckets).filter (fun k => !acIseither h.flags k) ↔
      Live h.flags h.nBuckets i := fun i => by
    rw [List.mem_filter, List.mem_range, Bool.not_eq_true']
    rfl
  constructor
  · unfold Khash.entries
    rw [List.map_map]
    apply List.Nodup.map_on
    · intro i hi j hj heq
      exact hm.entries.distinct i j ((hmem i).mp hi) ((hmem j).mp hj) heq
    · exact List.nodup_range.filter _
  · intro k v
    unfold Khash.entries
    rw [List.mem_map]
    constructor
    · rintro ⟨i, hi, heq⟩
      obtain ⟨rfl, rfl⟩ := Prod.mk.inj heq
      exact hm.entries.of_full ((hmem i).mp hi)
    · intro hkv
      obtain ⟨i, hi, rfl, rfl⟩ := hm.entries.exists_slot hkv
      exact ⟨i, (hmem i).mpr hi, rfl⟩

/-! ### Any sequence of operations -/

/-- What a user of the table does: `kh_get` and `kh_val`, `kh_put` and `kh_val(..) = val`, and
    `kh_get` and `kh_del`. -/
inductive KhashOp (κ ν : Type) where
  | get (key : κ)
  | put (key : κ) (val : ν) (alloc : ResizeAlloc)
  | del (key : κ)

/-- What it is told: the value of the key, whether the key is new, or that memory ran out. -/
inductive KhashAnswer (ν : Type) where
  | value (val : Option ν)
  | stored (fresh : Bool)
  | noMemory
  | deleted

/-- One operation on the table. -/
def khStep (hash : κ → Nat) (op : KhashOp κ ν) (h : Khash κ ν) :
    Option (KhashAnswer ν × Khash κ ν) :=
  match op with
  | .get key => do
      let x ← khGet hash h key
      some (.value (if x = h.nBuckets then none else some (h.vals x)), h)
  | .put key val alloc => do
      let (x, ret, h) ← khPut hash alloc key h
      if ret = -1 then some (.noMemory, h) else some (.stored (ret ≠ 0), h.setVal x val)
  | .del key => do
      let x ← khGet hash h key
      some (.deleted, khDel x h)

/-- The operations in sequence. -/
def runKhash (hash : κ → Nat) : List (KhashOp κ ν) → Khash κ ν →
    Option (List (KhashAnswer ν) × Khash κ ν)
  | [], h => some ([], h)
  | op :: ops, h => do
      let (answer, h) ← khStep hash op h
      let (answers, h) ← runKhash hash ops h
      some (answer :: answers, h)

/-- One operation on a map. -/
inductive MapStep : (κ → Option ν) → KhashOp κ ν → KhashAnswer ν → (κ → Option ν) → Prop
  | get (m : κ → Option ν) (key : κ) : MapStep m (.get key) (.value (m key)) m
  | put (m : κ → Option ν) (key : κ) (val : ν) (alloc : ResizeAlloc) :
      MapStep m (.put key val alloc) (.stored (m key).isNone) (Function.update m key (some val))
  | noMemory (m : κ → Option ν) (key : κ) (val : ν) (alloc : ResizeAlloc) (h : alloc ≠ .ok) :
      MapStep m (.put key val alloc) .noMemory m
  | del (m : κ → Option ν) (key : κ) :
      MapStep m (.del key) .deleted (Function.update m key none)

/-- The operations on a map in sequence. -/
inductive MapRun : (κ → Option ν) → List (KhashOp κ ν) → List (KhashAnswer ν) →
    (κ → Option ν) → Prop
  | nil (m : κ → Option ν) : MapRun m [] [] m
  | cons {m m₁ m₂ : κ → Option ν} {op : KhashOp κ ν} {ops : List (KhashOp κ ν)}
      {answer : KhashAnswer ν} {answers : List (KhashAnswer ν)} (step : MapStep m op answer m₁)
      (rest : MapRun m₁ ops answers m₂) : MapRun m (op :: ops) (answer :: answers) m₂

/-- One operation on the table is one on the map. -/
theorem khStep_isMap (hm : h.IsMap hash m) (hfew : h.size < 2 ^ 30) (op : KhashOp κ ν) :
    ∃ answer h' m', khStep hash op h = some (answer, h') ∧ MapStep m op answer m' ∧
      h'.IsMap hash m' ∧ h'.size ≤ h.size + 1 := by
  cases op with
  | get key =>
    obtain ⟨x, hget, hx⟩ := khGet_isMap hm key
    have hvalue : (if x = h.nBuckets then none else some (h.vals x)) = m key := by
      rcases hx with ⟨rfl, hnone⟩ | ⟨hlive, -, hval⟩
      · rw [if_pos rfl, hnone]
      · rw [if_neg (Nat.ne_of_lt hlive.1), hval]
    refine ⟨.value (m key), h, m, ?_, .get m key, hm, by omega⟩
    simp only [khStep, hget, Option.bind_eq_bind, Option.bind_some, hvalue]
  | put key val alloc =>
    obtain ⟨x, ret, h', hput, hsize, hfailed | ⟨hret, hfresh, hstored⟩⟩ :=
      khPut_isMap hm hfew alloc key
    · obtain ⟨rfl, halloc, rfl⟩ := hfailed
      refine ⟨.noMemory, h', m, ?_, .noMemory m key val alloc halloc, hm, by omega⟩
      simp only [khStep, hput, Option.bind_eq_bind, Option.bind_some, if_true]
    · have hnew : decide (ret ≠ 0) = (m key).isNone := by
        cases hkey : m key with
        | none => simpa [hkey] using hfresh
        | some v => simpa [hkey] using hfresh
      refine ⟨.stored (m key).isNone, h'.setVal x val, _, ?_, .put m key val alloc, hstored val,
        hsize⟩
      simp only [khStep, hput, Option.bind_eq_bind, Option.bind_some, if_neg hret, hnew]
  | del key =>
    obtain ⟨x, hget, hx⟩ := khGet_isMap hm key
    obtain ⟨hdel, hsize⟩ := khDel_isMap hm hx
    refine ⟨.deleted, khDel x h, _, ?_, .del m key, hdel, by omega⟩
    simp only [khStep, hget, Option.bind_eq_bind, Option.bind_some]

/-- A run on the table is a run on the map. -/
theorem runKhash_isMap (hm : h.IsMap hash m) {ops : List (KhashOp κ ν)}
    (hfew : h.size + ops.length ≤ 2 ^ 30) :
    ∃ answers h' m', runKhash hash ops h = some (answers, h') ∧ MapRun m ops answers m' ∧
      h'.IsMap hash m' := by
  induction ops generalizing h m with
  | nil => exact ⟨[], h, m, rfl, .nil m, hm⟩
  | cons op ops ih =>
    rw [List.length_cons] at hfew
    obtain ⟨answer, h₁, m₁, hstep, hmap, hm₁, hsize⟩ := khStep_isMap hm (by omega) op
    obtain ⟨answers, h', m', hrun, hrest, hm'⟩ := ih hm₁ (by omega)
    refine ⟨answer :: answers, h', m', ?_, .cons hmap hrest, hm'⟩
    simp only [runKhash, hstep, hrun, Option.bind_eq_bind, Option.bind_some]

omit [DecidableEq κ] in
/-- The table of `kh_init` holds nothing. -/
theorem khInit_isMap [Inhabited κ] [Inhabited ν] (hash : κ → Nat) :
    (khInit : Khash κ ν).IsMap hash (fun _ => none) where
  buckets := Or.inl rfl
  upper := show 0 = hashUpper 0 from rfl
  size := rfl
  occupied := rfl
  room := le_refl _
  entries :=
    { entry := fun _ _ => ⟨fun h => absurd h (by simp), by
        rintro (h | ⟨i, hi, -⟩)
        · exact absurd h (by simp)
        · exact absurd hi.1 (Nat.not_lt_zero i)⟩
      distinct := fun i _ hi => absurd hi.1 (Nat.not_lt_zero i)
      apart := fun _ _ h => absurd h (by simp) }
  reach := fun i hi => absurd hi.1 (Nat.not_lt_zero i)

/-- **The hash table is a map.** For every hash function and every sequence of up to `2 ^ 30`
    lookups, insertions (in which any allocation may fail) and deletions on a table of `kh_init`,
    every search, rehash and kick-out loop ends, every answer is that of a map, and a loop over
    the buckets afterwards visits every entry of the map, once. -/
theorem khash_refines_map [Inhabited κ] [Inhabited ν] (hash : κ → Nat) (ops : List (KhashOp κ ν))
    (hfew : ops.length ≤ 2 ^ 30) :
    ∃ answers h m, runKhash hash ops khInit = some (answers, h) ∧
      MapRun (fun _ => none) ops answers m ∧
      (h.entries.map Prod.fst).Nodup ∧ ∀ k v, (k, v) ∈ h.entries ↔ m k = some v := by
  have hroom : (khInit : Khash κ ν).size + ops.length ≤ 2 ^ 30 := by
    rw [show (khInit : Khash κ ν).size = 0 from rfl]
    omega
  obtain ⟨answers, h, m, hrun, hmap, hm⟩ := runKhash_isMap (khInit_isMap hash) hroom
  exact ⟨answers, h, m, hrun, hmap, entries_isMap hm⟩

/-- A colliding key is stored, found and deleted. -/
theorem khash_refines_map_collision : ∃ answers h m,
    runKhash (fun _ : Nat => 0) [.put 1 10 .ok, .put 2 20 .ok, .del 1, .get 2]
      (khInit : Khash Nat Nat) = some (answers, h) ∧
    MapRun (fun _ => none) [.put 1 10 .ok, .put 2 20 .ok, .del 1, .get 2] answers m ∧
    (h.entries.map Prod.fst).Nodup ∧ ∀ k v, (k, v) ∈ h.entries ↔ m k = some v :=
  khash_refines_map (fun _ => 0) _ (by decide)

end Sdiol
