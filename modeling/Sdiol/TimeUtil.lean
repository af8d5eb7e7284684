import Sdiol.Event

namespace Sdiol

/-!
# Adding and subtracting times

What `msec_diff`, `timeval_diff` and `msec_after` of `time_util.c` compute, in microseconds.

`msec_after` adds whole seconds, milliseconds and the microseconds below one millisecond apart
from each other, and carries a second over when the milliseconds add up to *more* than 1000.
If they add up to exactly 1000, then the second is lost (`msecAfter_micros`).
`msecAfter_exact_iff` says that this is the only case in which the three functions disagree.
-/

/-- The microseconds of `tv` are fewer than a second. -/
def Timeval.Normalized (tv : Timeval) : Prop :=
  0 ≤ tv.tvUsec.toInt ∧ tv.tvUsec.toInt < 1000000

/-- `millis` milliseconds. -/
def Timeval.ofMillis (millis : Int) : Timeval :=
  { tvSec := Int64.ofInt (millis / 1000)
    tvUsec := Int64.ofInt (millis % 1000 * 1000) }

/-- The seconds of `tv` plus `millis` milliseconds still fit into `tv_sec`. -/
def Timeval.Room (tv : Timeval) (millis : Int) : Prop :=
  tv.micros + millis * 1000 < 2 ^ 63 * 1000000

/-- The milliseconds of `tv` and of `millis` add up to exactly one second. -/
def MillisMeet (tv : Timeval) (millis : Int) : Prop :=
  millis % 1000 + tv.tvUsec.toInt / 1000 = 1000

instance (tv : Timeval) : Decidable tv.Normalized := inferInstanceAs (Decidable (_ ∧ _))

instance (tv : Timeval) (millis : Int) : Decidable (tv.Room millis) :=
  inferInstanceAs (Decidable (_ < _))

instance (tv : Timeval) (millis : Int) : Decidable (MillisMeet tv millis) :=
  inferInstanceAs (Decidable (_ = _))

/-- What `msec_after` is for: it adds exactly `millis` milliseconds, the two differences give
    them back, and no smaller number of milliseconds leads to a later time. -/
structure MsecAfterExact (tv : Timeval) (millis : Int64) : Prop where
  normalized : (msecAfter tv millis.toInt).Normalized
  micros : (msecAfter tv millis.toInt).micros = tv.micros + millis.toInt * 1000
  msecDiff : msecDiff (msecAfter tv millis.toInt) tv = millis.toInt
  timevalDiff : timevalDiff (msecAfter tv millis.toInt) tv = Timeval.ofMillis millis.toInt
  monotone : ∀ fewer : Int64, 0 ≤ fewer.toInt → fewer.toInt ≤ millis.toInt →
    (msecAfter tv fewer.toInt).micros ≤ (msecAfter tv millis.toInt).micros

/-! ### Differences -/

/-- The remainder of a truncating division is what is left, and smaller than the divisor. -/
theorem tdiv_tmod (a : Int) {b : Int} (hb : 0 < b) :
    b * a.tdiv b + a.tmod b = a ∧ -b < a.tmod b ∧ a.tmod b < b :=
  ⟨Int.mul_tdiv_add_tmod a b, Int.lt_tmod_of_pos a hb, Int.tmod_lt_of_pos a hb⟩

/-- The fields of a difference, for times that are not too far apart. -/
theorem timevalDiff_fields {a b : Timeval}
    (hsec : -2 ^ 62 < a.tvSec.toInt - b.tvSec.toInt ∧ a.tvSec.toInt - b.tvSec.toInt < 2 ^ 62)
    (husec : -2000000 < a.tvUsec.toInt - b.tvUsec.toInt ∧
      a.tvUsec.toInt - b.tvUsec.toInt < 2000000) :
    (timevalDiff a b).tvSec.toInt =
        a.tvSec.toInt - b.tvSec.toInt + (a.tvUsec.toInt - b.tvUsec.toInt) / 1000000 ∧
      (timevalDiff a b).tvUsec.toInt = (a.tvUsec.toInt - b.tvUsec.toInt) % 1000000 := by
  unfold timevalDiff
  simp only
  generalize hu : a.tvUsec.toInt - b.tvUsec.toInt = usec at husec
  generalize hm : (if usec.tmod 1000000 < 0 then usec.tmod 1000000 + 1000000
    else usec.tmod 1000000) = m
  -- the correction makes it the remainder of a division that rounds down
  have hmod : m = usec % 1000000 := by
    obtain ⟨hdivision, hlow, hhigh⟩ := tdiv_tmod usec (b := 1000000) (by decide)
    rw [← hm]
    split <;> omega
  have hdiv : (usec - m).tdiv 1000000 = usec / 1000000 := by
    rw [Int.tdiv_eq_ediv_of_dvd] <;> omega
  rw [hdiv, Int64.toInt_ofInt_of_le (by omega) (by omega), Int64.toInt_ofInt_of_le (by omega)
    (by omega)]
  exact ⟨rfl, hmod⟩

/-- `timeval_diff` is a subtraction, for times that are not too far apart. -/
theorem timevalDiff_micros {a b : Timeval}
    (hsec : -2 ^ 62 < a.tvSec.toInt - b.tvSec.toInt ∧ a.tvSec.toInt - b.tvSec.toInt < 2 ^ 62)
    (husec : -2000000 < a.tvUsec.toInt - b.tvUsec.toInt ∧
      a.tvUsec.toInt - b.tvUsec.toInt < 2000000) :
    (timevalDiff a b).micros = a.micros - b.micros := by
  obtain ⟨hs, hu⟩ := timevalDiff_fields hsec husec
  unfold Timeval.micros
  rw [hs, hu]
  omega

/-- `msec_diff` subtracts whole milliseconds. -/
theorem msecDiff_eq {a b : Timeval} (ha : a.Normalized) (hb : b.Normalized) :
    msecDiff a b = a.micros / 1000 - b.micros / 1000 := by
  unfold msecDiff Timeval.micros
  rw [Int.tdiv_eq_ediv_of_nonneg ha.1, Int.tdiv_eq_ediv_of_nonneg hb.1]
  simp only
  omega

/-- A normalized time is determined by its microseconds. -/
theorem Timeval.Normalized.eq {a b : Timeval} (ha : a.Normalized) (hb : b.Normalized)
    (h : a.micros = b.micros) : a = b := by
  obtain ⟨ha0, ha1⟩ := ha
  obtain ⟨hb0, hb1⟩ := hb
  unfold Timeval.micros at h
  have hsec : a.tvSec = b.tvSec := Int64.toInt_inj.mp (by omega)
  have husec : a.tvUsec = b.tvUsec := Int64.toInt_inj.mp (by omega)
  cases a
  cases b
  simp_all

theorem Timeval.ofMillis_micros (millis : Int64) (h : 0 ≤ millis.toInt) :
    (Timeval.ofMillis millis.toInt).micros = millis.toInt * 1000 ∧
      (Timeval.ofMillis millis.toInt).Normalized := by
  have hlt := millis.toInt_lt
  unfold Timeval.ofMillis Timeval.micros Timeval.Normalized
  simp only
  rw [Int64.toInt_ofInt_of_le (by omega) (by omega), Int64.toInt_ofInt_of_le (by omega)
    (by omega)]
  omega

/-! ### `msec_after` -/

section MsecAfter

variable {tv : Timeval} {millis : Int}

/-- **The carry.** `msec_after` adds `millis` milliseconds, and loses a second if the
    milliseconds meet. -/
theorem msecAfter_micros (htv : tv.Normalized) (hmillis : 0 ≤ millis)
    (hroom : tv.Room millis) :
    (msecAfter tv millis).Normalized ∧
      (msecAfter tv millis).micros =
        tv.micros + millis * 1000 - if MillisMeet tv millis then 1000000 else 0 := by
  obtain ⟨husec0, husec1⟩ := htv
  have hsec := tv.tvSec.le_toInt
  unfold Timeval.Room Timeval.micros at hroom
  have hmeet : (if MillisMeet tv millis then (1000000 : Int) else 0) =
      if millis % 1000 + tv.tvUsec.toInt / 1000 = 1000 then 1000000 else 0 := rfl
  rw [hmeet]
  unfold msecAfter Timeval.micros Timeval.Normalized
  simp only
  rw [Int.tdiv_eq_ediv_of_nonneg hmillis, Int.tmod_eq_emod_of_nonneg hmillis,
    Int.tdiv_eq_ediv_of_nonneg husec0, Int.tmod_eq_emod_of_nonneg husec0]
  generalize hmsec : millis % 1000 + tv.tvUsec.toInt / 1000 = msec
  -- at most 999 of either, so that one carry is enough
  have hmsec0 : 0 ≤ msec ∧ msec < 2000 := by omega
  rw [Int.tmod_eq_emod_of_nonneg hmsec0.1,
    Int64.toInt_ofInt_of_le (by omega) (by omega),
    Int64.toInt_ofInt_of_le (by split <;> omega) (by split <;> omega)]
  constructor
  · omega
  · split <;> split <;> omega

/-- The milliseconds that `msec_diff` finds between the two times. -/
theorem msecDiff_msecAfter (htv : tv.Normalized) (hmillis : 0 ≤ millis)
    (hroom : tv.Room millis) :
    msecDiff (msecAfter tv millis) tv =
      millis - if MillisMeet tv millis then 1000 else 0 := by
  obtain ⟨hnorm, hmicros⟩ := msecAfter_micros htv hmillis hroom
  rw [msecDiff_eq hnorm htv, hmicros]
  split <;> omega

theorem Timeval.Room.of_le {fewer : Int} (hroom : tv.Room millis)
    (h : fewer ≤ millis) : tv.Room fewer := by
  unfold Timeval.Room at hroom ⊢
  omega

/-- **Exactness.** `msec_after` and the two differences are inverse to each other unless the
    milliseconds meet. -/
theorem msecAfter_exact_iff {millis : Int64} (htv : tv.Normalized) (hmillis : 0 ≤ millis.toInt)
    (hroom : tv.Room millis.toInt) :
    MsecAfterExact tv millis ↔ millis.toInt % 1000 + tv.tvUsec.toInt / 1000 ≠ 1000 := by
  show _ ↔ ¬ MillisMeet tv millis.toInt
  obtain ⟨hnorm, hmicros⟩ := msecAfter_micros htv hmillis hroom
  constructor
  · intro hexact hmeet
    have := hexact.micros
    rw [hmicros, if_pos hmeet] at this
    omega
  · intro hmeet
    have hdiff := msecDiff_msecAfter htv hmillis hroom
    rw [if_neg hmeet, Int.sub_zero] at hmicros hdiff
    refine ⟨hnorm, hmicros, hdiff, ?_, ?_⟩
    · obtain ⟨hof, hofNorm⟩ := Timeval.ofMillis_micros millis hmillis
      have hbounds := hnorm
      unfold Timeval.Normalized at hbounds htv
      have hlt := millis.toInt_lt
      have hsec := hmicros
      unfold Timeval.micros at hsec
      have hapart : -2 ^ 62 < (msecAfter tv millis.toInt).tvSec.toInt - tv.tvSec.toInt ∧
          (msecAfter tv millis.toInt).tvSec.toInt - tv.tvSec.toInt < 2 ^ 62 := by
        omega
      -- the difference is normalized, and so it is the one with its microseconds
      have hsubNorm : (timevalDiff (msecAfter tv millis.toInt) tv).Normalized := by
        have hu := (timevalDiff_fields hapart (by omega)).2
        unfold Timeval.Normalized
        omega
      apply hsubNorm.eq hofNorm
      rw [timevalDiff_micros hapart (by omega), hof, hmicros]
      omega
    · intro fewer hfewer hle
      -- fewer milliseconds lead to an earlier time, whether they meet or not
      have hless := (msecAfter_micros htv hfewer (hroom.of_le hle)).2
      rw [hless, hmicros]
      split <;> omega

/-- A time at which the carry works. -/
theorem msecAfter_exact_half : MsecAfterExact ⟨7, 500000⟩ 501 :=
  (msecAfter_exact_iff (by decide) (by decide) (by decide)).mpr (by decide)

/-- Half a second after half past is the same second again. -/
theorem msecAfter_not_exact :
    Timeval.Normalized ⟨7, 500000⟩ ∧ (0 : Int) ≤ (500 : Int64).toInt ∧
      Timeval.Room ⟨7, 500000⟩ (500 : Int64).toInt ∧
      msecAfter ⟨7, 500000⟩ (500 : Int64).toInt = ⟨7, 0⟩ ∧ ¬ MsecAfterExact ⟨7, 500000⟩ 500 := by
  refine ⟨by decide, by decide, by decide, by decide, ?_⟩
  intro hexact
  exact absurd hexact.micros (by decide)

end MsecAfter

end Sdiol
