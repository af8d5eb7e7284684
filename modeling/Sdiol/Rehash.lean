import Sdiol.Khash
import Sdiol.Lib.Slots

namespace Sdiol

open Probing

/-!
# Resizing the hash table

`kh_resize` moves all entries inside the arrays of the table, so that at every moment an array
cell may belong to the old table, to the new one, or to neither, and one entry may be in hand.

* `Khash.IsMap` — a table that holds the entries of a map: what every operation keeps;
* `Moving` — the same while the entries move: each of them stands in a live bucket of the old
  flags, in a bucket in use by the new flags, or is in hand, and the new ones can be found;
* `kickOut_moves` — the kick-out process ends with nothing in hand;
* `khResize_isMap` — a resized table holds the same map.
-/

variable {κ ν : Type} {hash : κ → Nat} {m : κ → Option ν}

/-- Bucket `i` of a table of `n` buckets holds an entry. -/
def Live (flags : Flags) (n i : Nat) : Prop := i < n ∧ acIseither flags i = false

/-- Bucket `i` holds an entry or a deleted one. -/
def Used (flags : Flags) (i : Nat) : Prop := acIsempty flags i = false

instance (flags : Flags) (n : Nat) : DecidablePred (Live flags n) :=
  fun i => inferInstanceAs (Decidable (i < n ∧ acIseither flags i = false))

instance (flags : Flags) : DecidablePred (Used flags) :=
  fun i => inferInstanceAs (Decidable (acIsempty flags i = false))

/-- How many buckets hold an entry. -/
def liveCount (flags : Flags) (n : Nat) : Nat := ((Finset.range n).filter (Live flags n)).card

/-- How many buckets are in use. -/
def usedCount (flags : Flags) (n : Nat) : Nat := ((Finset.range n).filter (Used flags)).card

/-- A table that holds the entries of `m`: the sizes are what the flags say, a bucket is left
    empty, and the path of each key leads to its bucket. -/
structure Khash.IsMap (hash : κ → Nat) (m : κ → Option ν) (h : Khash κ ν) : Prop where
  buckets : h.nBuckets = 0 ∨ ∃ e, 2 ≤ e ∧ e ≤ 31 ∧ h.nBuckets = 2 ^ e
  upper : h.upperBound = hashUpper h.nBuckets
  size : h.size = liveCount h.flags h.nBuckets
  occupied : h.nOccupied = usedCount h.flags h.nBuckets
  room : h.nOccupied ≤ h.upperBound
  entries : Slots.Holds m (Live h.flags h.nBuckets) h.keys h.vals none
  reach : ∀ i, Live h.flags h.nBuckets i →
    Reaches h.nBuckets (Used h.flags) (hash (h.keys i)) i

/-- The state of `kh_resize` between the moves of two entries, or with one in hand. -/
structure Moving (hash : κ → Nat) (nOld nNew size : Nat) (m : κ → Option ν)
    (hand : Option (κ × ν)) (s : Rehash κ ν) : Prop where
  undeleted : ∀ i, acIsdel s.newFlags i = false
  apart : ∀ i, Live s.flags nOld i → ¬ Live s.newFlags nNew i
  entries : Slots.Holds m (fun i => Live s.flags nOld i ∨ Live s.newFlags nNew i) s.keys s.vals hand
  reach : ∀ i, Live s.newFlags nNew i → Reaches nNew (Used s.newFlags) (hash (s.keys i)) i
  count : liveCount s.flags nOld + usedCount s.newFlags nNew + hand.toList.length = size

theorem hashUpper_lt {n : Nat} (hn : 4 ≤ n) : hashUpper n < n := by
  unfold hashUpper
  omega

/-! ### Flags and counts -/

theorem Live.used {flags : Flags} {n i : Nat} (h : Live flags n i) : Used flags i := by
  have heither := h.2
  rw [acIseither_eq, Bool.or_eq_false_iff] at heither
  exact heither.1

theorem live_iff {flags : Flags} {n i : Nat} :
    Live flags n i ↔ i < n ∧ Used flags i ∧ acIsdel flags i = false := by
  unfold Live Used
  rw [acIseither_eq, Bool.or_eq_false_iff]

/-- Marking bucket `j` deleted. -/
theorem live_setIsdelTrue {flags : Flags} {n i j : Nat} :
    Live (acSetIsdelTrue flags j) n i ↔ Live flags n i ∧ i ≠ j := by
  simp [live_iff, Used, and_assoc]

theorem liveCount_setIsdelTrue {flags : Flags} {n j : Nat} (hj : Live flags n j) :
    liveCount flags n = liveCount (acSetIsdelTrue flags j) n + 1 :=
  card_filter_succ hj.1 (fun h => (live_setIsdelTrue.mp h).2 rfl) hj
    (fun _ hi => ⟨fun h => live_setIsdelTrue.mpr ⟨h, hi⟩, fun h => (live_setIsdelTrue.mp h).1⟩)

theorem used_setIsemptyFalse {flags : Flags} {i j : Nat} :
    Used (acSetIsemptyFalse flags j) i ↔ Used flags i ∨ i = j := by
  unfold Used
  rw [acIsempty_setIsemptyFalse, Bool.and_eq_false_iff]
  simp

theorem usedCount_setIsemptyFalse {flags : Flags} {n j : Nat} (hj : j < n)
    (hfree : ¬ Used flags j) :
    usedCount (acSetIsemptyFalse flags j) n = usedCount flags n + 1 :=
  card_filter_succ hj hfree (used_setIsemptyFalse.mpr (Or.inr rfl))
    (fun i hi => by rw [used_setIsemptyFalse, or_iff_left hi])

/-- Placing into an empty bucket of flags without deleted ones. -/
theorem live_setIsemptyFalse {flags : Flags} {n i j : Nat} (hj : j < n)
    (hdel : ∀ i, acIsdel flags i = false) :
    Live (acSetIsemptyFalse flags j) n i ↔ Live flags n i ∨ i = j := by
  simp only [live_iff, used_setIsemptyFalse, acIsdel_setIsemptyFalse, hdel, and_true]
  constructor
  · rintro ⟨hi, h | h⟩
    · exact Or.inl ⟨hi, h⟩
    · exact Or.inr h
  · rintro (⟨hi, h⟩ | rfl)
    · exact ⟨hi, Or.inl h⟩
    · exact ⟨hj, Or.inr rfl⟩

/-! ### The kick-out process -/

variable {nOld nNew size : Nat} {s s' : Rehash κ ν} {key : κ} {val : ν}

/-- The state with the entry in hand written to bucket `i`. -/
def Rehash.place (s : Rehash κ ν) (i : Nat) (key : κ) (val : ν) : Rehash κ ν :=
  { s with
    newFlags := acSetIsemptyFalse s.newFlags i
    keys := Function.update s.keys i key
    vals := Function.update s.vals i val }

/-- The new table has an empty bucket on the path of the key in hand. -/
theorem Moving.finds_empty (h : Moving hash nOld nNew size m (some (key, val)) s) {e : Nat}
    (hnew : nNew = 2 ^ e) (hsize : size < nNew) :
    ∃ i < nNew, walk (acIsempty s.newFlags) (fun _ => false) (nNew - 1) nNew 0
        (hash key &&& (nNew - 1)) = some (some i) ∧
      ¬ Used s.newFlags i ∧ Reaches nNew (Used s.newFlags) (hash key) i := by
  have hcount : usedCount s.newFlags nNew < nNew := by
    have := h.count
    omega
  obtain ⟨b, hb, hfree⟩ := exists_not_of_card_lt hcount
  subst hnew
  have hempty : acIsempty s.newFlags b = true := by simpa [Used] using hfree
  obtain ⟨t, ht, hstop, hgo⟩ := first_stop (hash key) hb hempty
  refine ⟨probe (2 ^ e) (hash key) t, probe_lt (by positivity) _ _,
    walk_first ht hstop hgo (by simp) (le_refl _), by simp [Used, hstop], t, rfl, hgo⟩

/-- Paths to the buckets of the new table after one more is in use. -/
theorem Moving.reach_place (h : Moving hash nOld nNew size m (some (key, val)) s) {i : Nat}
    (hi : i < nNew) (hreach : Reaches nNew (Used s.newFlags) (hash key) i) (j : Nat)
    (hj : Live (s.place i key val).newFlags nNew j) :
    Reaches nNew (Used (s.place i key val).newFlags) (hash ((s.place i key val).keys j)) j := by
  have hgrow : ∀ b, Used s.newFlags b → Used (s.place i key val).newFlags b := fun b hb =>
    used_setIsemptyFalse.mpr (Or.inl hb)
  by_cases hji : j = i
  · subst hji
    rw [show (s.place j key val).keys j = key from Function.update_self ..]
    exact hreach.mono hgrow
  · have hlive := ((live_setIsemptyFalse hi h.undeleted).mp hj).resolve_right hji
    rw [show (s.place i key val).keys j = s.keys j from Function.update_of_ne hji ..]
    exact (h.reach j hlive).mono hgrow

/-- The bucket holds an entry of the old table: that one is in hand next. -/
theorem Moving.kick (h : Moving hash nOld nNew size m (some (key, val)) s) [DecidableEq κ] {i : Nat}
    (hi : i < nNew) (hfree : ¬ Used s.newFlags i)
    (hreach : Reaches nNew (Used s.newFlags) (hash key) i) (hold : Live s.flags nOld i) :
    Moving hash nOld nNew size m (some (s.keys i, s.vals i))
      { s.place i key val with flags := acSetIsdelTrue s.flags i } where
  undeleted j := by
    change acIsdel (acSetIsemptyFalse s.newFlags i) j = false
    rw [acIsdel_setIsemptyFalse, h.undeleted]
  apart j hj hlive := by
    obtain ⟨hj, hji⟩ := live_setIsdelTrue.mp hj
    exact h.apart j hj (((live_setIsemptyFalse hi h.undeleted).mp hlive).resolve_right hji)
  entries := by
    apply (h.entries.swap (Or.inl hold)).congr
    intro j
    change Live (acSetIsdelTrue s.flags i) nOld j ∨
      Live (acSetIsemptyFalse s.newFlags i) nNew j ↔ _
    rw [live_setIsdelTrue, live_setIsemptyFalse hi h.undeleted]
    by_cases hji : j = i
    · simp [hji, hold]
    · simp [hji]
  reach := h.reach_place hi hreach
  count := by
    change liveCount (acSetIsdelTrue s.flags i) nOld +
      usedCount (acSetIsemptyFalse s.newFlags i) nNew + 1 = size
    have hcount := h.count
    rw [liveCount_setIsdelTrue hold] at hcount
    rw [usedCount_setIsemptyFalse hi hfree]
    simp only [Option.toList_some, List.length_singleton] at hcount
    omega

/-- The bucket holds no entry of the old table: the hand is empty. -/
theorem Moving.settle (h : Moving hash nOld nNew size m (some (key, val)) s) {i : Nat}
    (hi : i < nNew) (hfree : ¬ Used s.newFlags i)
    (hreach : Reaches nNew (Used s.newFlags) (hash key) i) (hold : ¬ Live s.flags nOld i) :
    Moving hash nOld nNew size m none (s.place i key val) where
  undeleted j := by
    change acIsdel (acSetIsemptyFalse s.newFlags i) j = false
    rw [acIsdel_setIsemptyFalse, h.undeleted]
  apart j hj hlive := by
    rcases (live_setIsemptyFalse hi h.undeleted).mp hlive with hlive | rfl
    · exact h.apart j hj hlive
    · exact hold hj
  entries := by
    have hempty : ¬ (Live s.flags nOld i ∨ Live s.newFlags nNew i) := fun hfull =>
      hfull.elim hold (fun hlive => hfree hlive.used)
    apply (h.entries.put hempty).congr
    intro j
    change Live s.flags nOld j ∨ Live (acSetIsemptyFalse s.newFlags i) nNew j ↔ _
    rw [live_setIsemptyFalse hi h.undeleted, or_assoc]
  reach := h.reach_place hi hreach
  count := by
    change liveCount s.flags nOld + usedCount (acSetIsemptyFalse s.newFlags i) nNew + 0 = size
    have hcount := h.count
    rw [usedCount_setIsemptyFalse hi hfree]
    simp only [Option.toList_some, List.length_singleton] at hcount
    omega

/-- **The kick-out process ends.** Each round takes one more entry from the old table, until the
    one in hand finds a bucket that the old table does not need. -/
theorem kickOut_moves [DecidableEq κ] {e : Nat} (hnew : nNew = 2 ^ e) (hsize : size < nNew)
    {fuel : Nat} (h : Moving hash nOld nNew size m (some (key, val)) s)
    (hfuel : liveCount s.flags nOld < fuel) :
    ∃ s', kickOut hash nOld nNew fuel key val s = some s' ∧
      Moving hash nOld nNew size m none s' ∧
      ∀ i, Live s'.flags nOld i → Live s.flags nOld i := by
  induction fuel generalizing s key val with
  | zero => omega
  | succ fuel ih =>
    obtain ⟨i, hi, hwalk, hfree, hreach⟩ := h.finds_empty hnew hsize
    simp only [kickOut, hwalk, Option.join_some, Option.bind_eq_bind, Option.bind_some]
    by_cases hold : Live s.flags nOld i
    · rw [if_pos (by simpa [Live] using hold)]
      have hless := liveCount_setIsdelTrue hold
      obtain ⟨s', hkick, hmoves, hlive⟩ := ih (h.kick hi hfree hreach hold)
        (show liveCount (acSetIsdelTrue s.flags i) nOld < fuel by omega)
      exact ⟨s', hkick, hmoves, fun j hj => (live_setIsdelTrue.mp (hlive j hj)).1⟩
    · rw [if_neg (by simpa [Live] using hold)]
      exact ⟨s.place i key val, rfl, h.settle hi hfree hreach hold, fun _ hj => hj⟩

/-! ### The loop over the old buckets -/

/-- The entry of bucket `j` of the old table, taken in hand. -/
theorem Moving.take (h : Moving hash nOld nNew size m none s) {j : Nat} (hj : Live s.flags nOld j) :
    Moving hash nOld nNew size m (some (s.keys j, s.vals j))
      { s with flags := acSetIsdelTrue s.flags j } where
  undeleted := h.undeleted
  apart i hi := h.apart i (live_setIsdelTrue.mp hi).1
  entries := by
    apply (h.entries.take (Or.inl hj)).congr
    intro i
    change Live (acSetIsdelTrue s.flags j) nOld i ∨ Live s.newFlags nNew i ↔ _
    rw [live_setIsdelTrue]
    by_cases hij : i = j
    · subst hij
      simp [h.apart i hj]
    · simp [hij]
  reach := h.reach
  count := by
    have hcount := h.count
    rw [liveCount_setIsdelTrue hj] at hcount
    simp only [Option.toList_none, List.length_nil, Option.toList_some,
      List.length_singleton] at hcount ⊢
    omega

/-- One round: bucket `j` of the old table holds no entry any more. -/
theorem rehashBucket_moves [DecidableEq κ] {e : Nat} (hnew : nNew = 2 ^ e) (hsize : size < nNew)
    (h : Moving hash nOld nNew size m none s) {j : Nat} (hj : j < nOld) :
    ∃ s', rehashBucket hash nOld nNew s j = some s' ∧ Moving hash nOld nNew size m none s' ∧
      ∀ i, Live s'.flags nOld i → Live s.flags nOld i ∧ i ≠ j := by
  unfold rehashBucket
  by_cases hlive : acIseither s.flags j = false
  · rw [if_pos hlive]
    have hcard : liveCount (acSetIsdelTrue s.flags j) nOld < nOld + 1 := by
      have := Finset.card_filter_le (Finset.range nOld) (Live (acSetIsdelTrue s.flags j) nOld)
      rw [Finset.card_range] at this
      exact Nat.lt_succ_of_le this
    obtain ⟨s', hkick, hmoves, hless⟩ := kickOut_moves hnew hsize (h.take ⟨hj, hlive⟩) hcard
    exact ⟨s', hkick, hmoves, fun i hi => live_setIsdelTrue.mp (hless i hi)⟩
  · rw [if_neg hlive]
    exact ⟨s, rfl, h, fun i hi => ⟨hi, fun hij => hlive (hij ▸ hi.2)⟩⟩

/-- All rounds. -/
theorem rehash_moves [DecidableEq κ] {e : Nat} (hnew : nNew = 2 ^ e) (hsize : size < nNew)
    {js : List Nat} (hjs : ∀ j ∈ js, j < nOld) (h : Moving hash nOld nNew size m none s) :
    ∃ s', js.foldlM (rehashBucket hash nOld nNew) s = some s' ∧
      Moving hash nOld nNew size m none s' ∧
      ∀ i, Live s'.flags nOld i → Live s.flags nOld i ∧ i ∉ js := by
  induction js generalizing s with
  | nil => exact ⟨s, rfl, h, fun i hi => ⟨hi, List.not_mem_nil⟩⟩
  | cons j js ih =>
    obtain ⟨s₁, hround, hmoves, hless⟩ :=
      rehashBucket_moves hnew hsize h (hjs j List.mem_cons_self)
    obtain ⟨s', hrounds, hmoves', hless'⟩ :=
      ih (fun i hi => hjs i (List.mem_cons_of_mem _ hi)) hmoves
    refine ⟨s', ?_, hmoves', ?_⟩
    · rw [List.foldlM_cons, hround]
      exact hrounds
    · intro i hi
      obtain ⟨hi₁, hnotin⟩ := hless' i hi
      obtain ⟨hi₀, hij⟩ := hless i hi₁
      exact ⟨hi₀, by simp [hij, hnotin]⟩

/-! ### The resized table -/

/-- The number of buckets that `kh_resize` rounds a request up to. -/
def roundedBuckets (newNBuckets : Nat) : Nat :=
  let rounded := (kroundup32 (BitVec.ofNat 32 newNBuckets)).toNat
  if rounded < 4 then 4 else rounded

theorem roundedBuckets_pow {n : Nat} (hpos : 0 < n) (hn : n ≤ 2 ^ 31) :
    ∃ e, 2 ≤ e ∧ e ≤ 31 ∧ roundedBuckets n = 2 ^ e := by
  unfold roundedBuckets
  rw [kroundup32_eq hpos hn]
  have hsize : (n - 1).size ≤ 31 := Nat.size_le.mpr (by omega)
  by_cases hsmall : 2 ^ (n - 1).size < 4
  · exact ⟨2, le_refl 2, by decide, if_pos hsmall⟩
  · refine ⟨(n - 1).size, ?_, hsize, if_neg hsmall⟩
    by_contra hlt
    have := Nat.pow_lt_pow_right (a := 2) (by decide) (show (n - 1).size < 2 by omega)
    omega

/-- All entries are in the old table. -/
theorem Khash.IsMap.moving {h : Khash κ ν} (hm : h.IsMap hash m) (nNew : Nat) :
    Moving hash h.nBuckets nNew h.size m none ⟨h.flags, emptyFlags, h.keys, h.vals⟩ := by
  have hfree : ∀ i, ¬ Live emptyFlags nNew i := fun i hi => by
    have := hi.used
    simp [Used] at this
  refine ⟨acIsdel_emptyFlags, fun i _ => hfree i, hm.entries.congr (fun i => ?_),
    fun i hi => absurd hi (hfree i), ?_⟩
  · rw [or_iff_left (hfree i)]
  · have hnone : usedCount emptyFlags nNew = 0 := by
      unfold usedCount
      rw [Finset.card_eq_zero, Finset.filter_eq_empty_iff]
      intro i _
      simp [Used]
    change liveCount h.flags h.nBuckets + usedCount emptyFlags nNew + 0 = h.size
    rw [hnone]
    exact hm.size.symm

/-- All entries are in the new table. -/
theorem Moving.isMap (h : Moving hash nOld nNew size m none s) {e : Nat} (he : 2 ≤ e)
    (he' : e ≤ 31) (hnew : nNew = 2 ^ e) (hsize : size < hashUpper nNew)
    (hmoved : ∀ i, ¬ Live s.flags nOld i) :
    Khash.IsMap hash m ⟨nNew, size, size, hashUpper nNew, s.newFlags, s.keys, s.vals⟩ := by
  have hlive : ∀ i, Live s.newFlags nNew i ↔ i < nNew ∧ Used s.newFlags i := fun i => by
    rw [live_iff, h.undeleted i]
    simp
  have hcount : usedCount s.newFlags nNew = size := by
    have hnone : liveCount s.flags nOld = 0 := by
      unfold liveCount
      rw [Finset.card_eq_zero, Finset.filter_eq_empty_iff]
      exact fun i _ => hmoved i
    have := h.count
    simp only [Option.toList_none, List.length_nil] at this
    omega
  refine ⟨Or.inr ⟨e, he, he', hnew⟩, rfl, ?_, hcount.symm, hsize.le,
    h.entries.congr (fun i => (or_iff_right (hmoved i)).symm), h.reach⟩
  change size = liveCount s.newFlags nNew
  rw [← hcount]
  unfold usedCount liveCount
  congr 1
  apply Finset.filter_congr
  intro i hi
  rw [hlive i]
  simp [Finset.mem_range.mp hi]

/-- **Resizing keeps the map.** `kh_resize` returns, and the table holds the same entries.  It is
    the old table if an allocation failed, and has room for one more entry if it was rehashed. -/
theorem khResize_isMap [DecidableEq κ] {h : Khash κ ν} (hm : h.IsMap hash m) (alloc : ResizeAlloc)
    {n : Nat} (hpos : 0 < n) (hn : n ≤ 2 ^ 31) :
    ∃ done h', khResize hash alloc n h = some (done, h') ∧ h'.IsMap hash m ∧
      (done = false → h' = h ∧ alloc ≠ .ok) ∧
      (done = true → h.size < hashUpper (roundedBuckets n) →
        h'.size = h.size ∧ h'.nOccupied < h'.upperBound) := by
  obtain ⟨e, he, he', hpow⟩ := roundedBuckets_pow hpos hn
  change ∃ done h', (if h.size ≥ hashUpper (roundedBuckets n) then some (true, h)
    else if !alloc.flags then some (false, h)
    else if h.nBuckets < roundedBuckets n && !alloc.keys then some (false, h)
    else if h.nBuckets < roundedBuckets n && !alloc.vals then some (false, h)
    else _) = some (done, h') ∧ _
  by_cases hsmall : h.size ≥ hashUpper (roundedBuckets n)
  · rw [if_pos hsmall]
    exact ⟨true, h, rfl, hm, by simp, fun _ hlt => absurd hlt (by omega)⟩
  rw [if_neg hsmall]
  by_cases hflags : (!alloc.flags) = true
  · rw [if_pos hflags]
    exact ⟨false, h, rfl, hm, fun _ => ⟨rfl, fun hok => by simp [hok, ResizeAlloc.ok] at hflags⟩,
      by simp⟩
  rw [if_neg hflags]
  by_cases hkeys : (decide (h.nBuckets < roundedBuckets n) && !alloc.keys) = true
  · rw [if_pos hkeys]
    exact ⟨false, h, rfl, hm, fun _ => ⟨rfl, fun hok => by simp [hok, ResizeAlloc.ok] at hkeys⟩,
      by simp⟩
  rw [if_neg hkeys]
  by_cases hvals : (decide (h.nBuckets < roundedBuckets n) && !alloc.vals) = true
  · rw [if_pos hvals]
    exact ⟨false, h, rfl, hm, fun _ => ⟨rfl, fun hok => by simp [hok, ResizeAlloc.ok] at hvals⟩,
      by simp⟩
  rw [if_neg hvals]
  have hroom : h.size < roundedBuckets n := by
    have hfour : 4 ≤ roundedBuckets n := by
      rw [hpow]
      exact Nat.pow_le_pow_right (n := 2) (by decide) he
    have := hashUpper_lt hfour
    omega
  have hbuckets : ∀ j ∈ List.range h.nBuckets, j < h.nBuckets := fun j hj => List.mem_range.mp hj
  obtain ⟨s, hs, hmoves, hless⟩ := rehash_moves hpow hroom hbuckets
    (hm.moving (roundedBuckets n))
  have hmoved : ∀ i, ¬ Live s.flags h.nBuckets i := fun i hi =>
    (hless i hi).2 (List.mem_range.mpr hi.1)
  refine ⟨true, _, ?_, hmoves.isMap he he' hpow (by omega) hmoved, by simp, fun _ _ => ⟨rfl, ?_⟩⟩
  · change ((List.range h.nBuckets).foldlM (rehashBucket hash h.nBuckets (roundedBuckets n))
      ⟨h.flags, emptyFlags, h.keys, h.vals⟩).bind _ = _
    rw [hs]
    rfl
  · change h.size < hashUpper (roundedBuckets n)
    omega

end Sdiol
