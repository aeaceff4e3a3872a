import Mathlib.Algebra.Order.Ring.Rat
import Mathlib.Tactic.Linarith
import Mathlib.Tactic.Ring
import MoonBackend.Proofs.Float.Symmetry

/-!
# Sums of decimals are exact

A decimal denotes its mantissa times a power of ten. As long as the aligned mantissas have at most
sixteen digits no step of a sum overflows: the sum denotes exactly the sum of what the operands
denote, and its mantissa has no trailing zero. Alignment keeps what each operand denotes, so both
mantissas count the same power of ten, and trimming moves factors of ten into the exponent.
-/

namespace MoonBackend

namespace Decimal

/-- The number that a decimal denotes. -/
def toRat (v : Decimal) : ℚ :=
  v.mantissa.toInt * 10 ^ (v.exponent.toInt - (digits v.mantissa).toInt)

/-- The decimal is the sum or difference `x`: zero takes the negated exponent that was stored
before, and any other number has no trailing zero. -/
structure Denotes (v : Decimal) (x : ℚ) (stale : Int64) : Prop where
  value : v.toRat = x
  zero_iff : v.mantissa = 0 ↔ x = 0
  exponent : x = 0 → v.exponent = -stale
  trimmed : x ≠ 0 → ¬ (10 : ℤ) ∣ v.mantissa.toInt

/-- A decimal whose mantissa has an absolute value and whose exponent is far from both ends. -/
structure Moderate (v : Decimal) : Prop where
  mantissa : v.mantissa.toInt ≠ -2 ^ 63
  exponent_ge : -2 ^ 62 ≤ v.exponent.toInt
  exponent_le : v.exponent.toInt ≤ 2 ^ 62

/-- The digits of the aligned mantissas, in whole numbers. -/
def alignedWidth (l r : Decimal) : ℤ :=
  max (digits (bigger l r).mantissa).toInt
    ((digits (smaller l r).mantissa).toInt + (bigger l r).exponent.toInt
      - (smaller l r).exponent.toInt)

theorem Moderate.bigger {l r : Decimal} (hl : l.Moderate) (hr : r.Moderate) :
    (bigger l r).Moderate := by
  unfold Decimal.bigger
  split
  · exact hl
  · exact hr

theorem Moderate.smaller {l r : Decimal} (hl : l.Moderate) (hr : r.Moderate) :
    (smaller l r).Moderate := by
  unfold Decimal.smaller
  split
  · exact hr
  · exact hl

/-! ### Digits -/

theorem lt_pow_natDigits (n : ℕ) : n < 10 ^ natDigits n := by
  induction n using Nat.strongRecOn with
  | ind n ih =>
    rw [natDigits]
    split
    · rw [pow_one]
      assumption
    · have hdiv := ih (n / 10) (by omega)
      rw [pow_succ]
      omega

theorem natAbs_mul_pow_lt (m : ℤ) (k : ℕ) :
    (m * 10 ^ k).natAbs < 10 ^ (natDigits m.natAbs + k) := by
  rw [Int.natAbs_mul, Int.natAbs_pow, pow_add]
  exact Nat.mul_lt_mul_of_pos_right (lt_pow_natDigits _) (Nat.pow_pos (by decide))

/-! ### Widening -/

theorem toInt_widen {m : Int64} {k : ℕ} (h : natDigits m.toInt.natAbs + k ≤ 16) :
    (widen m k).toInt = m.toInt * 10 ^ k ∧ (widen m k).toInt.natAbs < 10 ^ 16 := by
  have hpos := natDigits_pos m.toInt.natAbs
  have hlt : (m.toInt * 10 ^ k).natAbs < 10 ^ 16 :=
    (natAbs_mul_pow_lt m.toInt k).trans_le (Nat.pow_le_pow_right (by decide) h)
  have hpow : 10 ^ k ≤ 10 ^ 15 := Nat.pow_le_pow_right (by decide) (by omega)
  have hfactor : (Int64.ofNat (10 ^ k)).toInt = 10 ^ k := by
    rw [Int64.toInt_ofNat_of_lt (by omega)]
    exact Nat.cast_pow 10 k
  have hwiden : (widen m k).toInt = m.toInt * 10 ^ k := by
    unfold widen
    rw [Nat.min_eq_left (by omega)]
    show (m * Int64.ofNat (10 ^ k)).toInt = _
    rw [Int64.toInt_mul, hfactor]
    exact Int.bmod_eq_of_le (by omega) (by omega)
  rw [hwiden]
  exact ⟨rfl, hlt⟩

theorem toRat_widen {v : Decimal} {k : ℕ} {e : ℤ}
    (h : natDigits v.mantissa.toInt.natAbs + k ≤ 16)
    (he : e + k = v.exponent.toInt - (digits v.mantissa).toInt) :
    ((widen v.mantissa k).toInt : ℚ) * 10 ^ e = v.toRat := by
  rw [(toInt_widen h).1, toRat, ← he, zpow_add₀ (by norm_num), zpow_natCast]
  push_cast
  ring

/-! ### Alignment -/

section

variable {l r : Decimal}

theorem smaller_exponent_le (l r : Decimal) :
    (smaller l r).exponent.toInt ≤ (bigger l r).exponent.toInt := by
  unfold Decimal.bigger Decimal.smaller
  split
  · rename_i h
    rw [Int64.lt_iff_toInt_lt] at h
    omega
  · rename_i h
    rw [Int64.lt_iff_toInt_lt] at h
    omega

theorem toRat_bigger_add_smaller (l r : Decimal) :
    (bigger l r).toRat + (smaller l r).toRat = l.toRat + r.toRat := by
  unfold Decimal.bigger Decimal.smaller
  split
  · rfl
  · exact add_comm _ _

theorem widths_exact (hl : l.Moderate) (hr : r.Moderate) (hw : alignedWidth l r ≤ 16) :
    (bigWidth l r).toInt = natDigits (bigger l r).mantissa.toInt.natAbs
      ∧ (smallWidth l r).toInt = natDigits (smaller l r).mantissa.toInt.natAbs
        + (bigger l r).exponent.toInt - (smaller l r).exponent.toInt
      ∧ (width l r).toInt = alignedWidth l r := by
  have hb := toInt_digits_of_ne (hl.bigger hr).mantissa
  have hs := toInt_digits_of_ne (hl.smaller hr).mantissa
  have hle := smaller_exponent_le l r
  unfold alignedWidth at hw ⊢
  rw [hb, hs] at hw ⊢
  have hgap : (gap l r).toInt = (bigger l r).exponent.toInt - (smaller l r).exponent.toInt := by
    rw [gap, Int64.toInt_sub]
    exact Int.bmod_eq_of_le (by omega) (by omega)
  have hsmall : (smallWidth l r).toInt = natDigits (smaller l r).mantissa.toInt.natAbs
      + (bigger l r).exponent.toInt - (smaller l r).exponent.toInt := by
    rw [smallWidth, Int64.toInt_add, hs, hgap, Int.bmod_eq_of_le (by omega) (by omega)]
    omega
  have hbig : (bigWidth l r).toInt = natDigits (bigger l r).mantissa.toInt.natAbs := hb
  refine ⟨hbig, hsmall, ?_⟩
  rw [width_toInt, hbig, hsmall]

theorem aligned_exact (hl : l.Moderate) (hr : r.Moderate) (hw : alignedWidth l r ≤ 16) :
    ((bigAligned l r).toInt : ℚ) * 10 ^ ((bigger l r).exponent.toInt - alignedWidth l r)
        = (bigger l r).toRat
      ∧ ((smallAligned l r).toInt : ℚ) * 10 ^ ((bigger l r).exponent.toInt - alignedWidth l r)
        = (smaller l r).toRat
      ∧ (bigAligned l r).toInt.natAbs < 10 ^ 16 ∧ (smallAligned l r).toInt.natAbs < 10 ^ 16 := by
  obtain ⟨hbig, hsmall, hwidth⟩ := widths_exact hl hr hw
  have hb := toInt_digits_of_ne (hl.bigger hr).mantissa
  have hs := toInt_digits_of_ne (hl.smaller hr).mantissa
  have hmax := width_toInt l r
  have hle := smaller_exponent_le l r
  unfold bigAligned smallAligned
  rw [hwidth] at hmax ⊢
  have hkb : natDigits (bigger l r).mantissa.toInt.natAbs
      + (alignedWidth l r - (bigWidth l r).toInt).toNat ≤ 16 := by omega
  have hks : natDigits (smaller l r).mantissa.toInt.natAbs
      + (alignedWidth l r - (smallWidth l r).toInt).toNat ≤ 16 := by omega
  exact ⟨toRat_widen hkb (by omega), toRat_widen hks (by omega),
    (toInt_widen hkb).2, (toInt_widen hks).2⟩

/-- The scaled sum counts the sum of the operands in hundredths of their common power of ten. -/
theorem scaledSum_exact (hl : l.Moderate) (hr : r.Moderate) (hw : alignedWidth l r ≤ 16) :
    ((scaledSum l r).toInt : ℚ) * 10 ^ ((bigger l r).exponent.toInt - alignedWidth l r - 2)
        = l.toRat + r.toRat
      ∧ (scaledSum l r).toInt.natAbs < 2 * 10 ^ 18 := by
  obtain ⟨hbig, hsmall, hbl, hsl⟩ := aligned_exact hl hr hw
  have hscaled : ∀ x : Int64, x.toInt.natAbs < 10 ^ 16 → (x * headroom).toInt = x.toInt * 100 := by
    intro x hx
    rw [Int64.toInt_mul, show headroom.toInt = 100 from rfl]
    exact Int.bmod_eq_of_le (by omega) (by omega)
  have hsum : (scaledSum l r).toInt = ((bigAligned l r).toInt + (smallAligned l r).toInt) * 100 := by
    rw [scaledSum, Int64.toInt_add, hscaled _ hbl, hscaled _ hsl,
      Int.bmod_eq_of_le (by omega) (by omega)]
    ring
  refine ⟨?_, by omega⟩
  rw [hsum, zpow_sub₀ (by norm_num), ← toRat_bigger_add_smaller, ← hbig, ← hsmall]
  push_cast
  ring

end

/-! ### Trimming -/

/-- Every round takes a factor of ten off, and the rounds are enough to take them all. -/
theorem trimZeros_exact {rounds : ℕ} {s n : Int64} (hs : s ≠ 0)
    (hr : s.toInt.natAbs < 10 ^ rounds) :
    ∃ t ≤ rounds, (trimZeros rounds s n).2 = n + Int64.ofNat t
      ∧ s.toInt = (trimZeros rounds s n).1.toInt * 10 ^ t
      ∧ ¬ (10 : ℤ) ∣ (trimZeros rounds s n).1.toInt := by
  fun_induction trimZeros rounds s n with
  | case1 s n =>
    refine absurd (Int64.toInt_inj.1 ?_) hs
    rw [pow_zero] at hr
    exact Int.natAbs_eq_zero.1 (by omega)
  | case2 rounds s n h ih =>
    have hmod : s.toInt.tmod 10 = 0 := by
      have := congrArg Int64.toInt (eq_of_beq h)
      rwa [Int64.toInt_mod] at this
    have hdiv : (s / 10).toInt = s.toInt.tdiv 10 := Int64.toInt_div_of_ne_right s 10 (by decide)
    have hten : (s / 10).toInt * 10 = s.toInt := by
      rw [hdiv]
      exact Int.tdiv_mul_cancel (Int.dvd_of_tmod_eq_zero hmod)
    have hne : s / 10 ≠ 0 := by
      intro h0
      rw [h0] at hten
      exact hs (Int64.toInt_inj.1 hten.symm)
    obtain ⟨t, ht, hcount, hvalue, hend⟩ := ih hne (by rw [pow_succ] at hr; omega)
    refine ⟨t + 1, by omega, ?_, ?_, hend⟩
    · rw [hcount, Int64.ofNat_add, Int64.add_assoc, Int64.add_comm 1]
      rfl
    · rw [← hten, hvalue, pow_succ]
      ring
  | case3 rounds s n h =>
    refine ⟨0, Nat.zero_le _, (Int64.add_zero n).symm, by ring, fun hdvd => h ?_⟩
    have hmod : (s % 10).toInt = 0 := by
      rw [Int64.toInt_mod]
      exact Int.tmod_eq_zero_of_dvd hdvd
    exact beq_iff_eq.2 (Int64.toInt_inj.1 hmod)

/-! ### Sums -/

section

variable {l r : Decimal}

theorem exponent_exact (hl : l.Moderate) (hr : r.Moderate) (hw : alignedWidth l r ≤ 16) {t : ℕ}
    (ht : t ≤ 20) (hcount : (trimmedSum l r).2 = 0 + Int64.ofNat t) :
    ((bigger l r).exponent + digits (trimmedSum l r).1 - width l r - (2 - (trimmedSum l r).2)).toInt
      = (bigger l r).exponent.toInt + (digits (trimmedSum l r).1).toInt - alignedWidth l r - 2 + t := by
  obtain ⟨-, hlt⟩ := scaledSum_exact hl hr hw
  obtain ⟨hbig, -, hwidth⟩ := widths_exact hl hr hw
  have hmax := width_toInt l r
  have hpos := natDigits_pos (bigger l r).mantissa.toInt.natAbs
  obtain ⟨-, hge, hle⟩ := hl.bigger hr
  have habs : (trimmedSum l r).1.toInt.natAbs ≤ (scaledSum l r).toInt.natAbs := natAbs_trimZeros _ _ _
  have hdigits := toInt_digits_of_ne (m := (trimmedSum l r).1) (by omega)
  have hnat : natDigits (trimmedSum l r).1.toInt.natAbs ≤ 19 := natDigits_le (k := 18) (by omega)
  have hremoved : (trimmedSum l r).2.toInt = t := by
    rw [hcount, Int64.zero_add, Int64.toInt_ofNat_of_lt (by omega)]
  have htrim : (2 - (trimmedSum l r).2).toInt = 2 - t := by
    rw [Int64.toInt_sub, hremoved, show (2 : Int64).toInt = 2 from rfl]
    exact Int.bmod_eq_of_le (by omega) (by omega)
  have hsum : ((bigger l r).exponent + digits (trimmedSum l r).1).toInt
      = (bigger l r).exponent.toInt + (digits (trimmedSum l r).1).toInt := by
    rw [Int64.toInt_add]
    exact Int.bmod_eq_of_le (by omega) (by omega)
  have hdiff : ((bigger l r).exponent + digits (trimmedSum l r).1 - width l r).toInt
      = (bigger l r).exponent.toInt + (digits (trimmedSum l r).1).toInt - alignedWidth l r := by
    rw [Int64.toInt_sub, hsum, hwidth]
    exact Int.bmod_eq_of_le (by omega) (by omega)
  rw [Int64.toInt_sub, hdiff, htrim, Int.bmod_eq_of_le (by omega) (by omega)]
  omega

theorem denotes_combine (stale : Int64) (hl : l.Moderate) (hr : r.Moderate)
    (hw : alignedWidth l r ≤ 16) : Denotes (combine l r stale) (l.toRat + r.toRat) stale := by
  obtain ⟨hvalue, hlt⟩ := scaledSum_exact hl hr hw
  have hpow : (10 : ℚ) ^ ((bigger l r).exponent.toInt - alignedWidth l r - 2) ≠ 0 :=
    zpow_ne_zero _ (by norm_num)
  rw [combine_eq]
  by_cases hz : scaledSum l r = 0
  · have hx : l.toRat + r.toRat = 0 := by
      rw [← hvalue, hz]
      simp
    rw [if_pos (beq_iff_eq.2 hz), hx]
    exact ⟨by simp [toRat], by simp, fun _ => rfl, fun h => absurd rfl h⟩
  · have hfits : (scaledSum l r).toInt.natAbs < 10 ^ 20 := by omega
    obtain ⟨t, ht, hcount, hsum, hend⟩ := trimZeros_exact (n := 0) hz hfits
    rw [if_neg (by simpa using hz)]
    have hm : (trimmedSum l r).1.toInt ≠ 0 := fun h0 => hend (h0 ▸ Int.dvd_zero 10)
    have hx : l.toRat + r.toRat ≠ 0 := by
      rw [← hvalue, hsum]
      exact mul_ne_zero (Int.cast_ne_zero.2 (mul_ne_zero hm (by positivity))) hpow
    refine ⟨?_, ⟨fun h0 => absurd (congrArg Int64.toInt h0) hm, fun h0 => absurd h0 hx⟩,
      fun h0 => absurd h0 hx, fun _ => hend⟩
    -- the digits of the trimmed mantissa cancel, and the factors taken off come back
    have hexp := exponent_exact hl hr hw ht hcount
    have hshift : (bigger l r).exponent.toInt + (digits (trimmedSum l r).1).toInt
          - alignedWidth l r - 2 + t - (digits (trimmedSum l r).1).toInt
        = (bigger l r).exponent.toInt - alignedWidth l r - 2 + t := by ring
    rw [toRat, hexp, hshift, zpow_add₀ (by norm_num), zpow_natCast, ← hvalue, hsum]
    push_cast
    unfold trimmedSum
    ring

end

/-! ### Differences -/

section

variable {l r : Decimal}

theorem Moderate.negated (hr : r.Moderate) : r.negated.Moderate := by
  refine ⟨?_, hr.exponent_ge, hr.exponent_le⟩
  have h1 := r.mantissa.toInt_lt
  rw [negated_mantissa, neg_toInt_of_ne hr.mantissa]
  omega

theorem toRat_negated (hr : r.Moderate) : r.negated.toRat = -r.toRat := by
  rw [toRat, toRat, negated_mantissa, negated_exponent, digits_neg, neg_toInt_of_ne hr.mantissa]
  push_cast
  ring

theorem alignedWidth_negated (l r : Decimal) : alignedWidth l r.negated = alignedWidth l r := by
  unfold alignedWidth bigger smaller
  rw [negated_exponent]
  split
  · rw [negated_mantissa, negated_exponent, digits_neg]
  · rw [negated_mantissa, negated_exponent, digits_neg]

/-- Sums and differences of moderate decimals are exact and have no trailing zero. -/
theorem add_sub_exact (stale : Int64) (hl : l.Moderate) (hr : r.Moderate)
    (hw : alignedWidth l r ≤ 16) :
    Denotes (add l r stale) (l.toRat + r.toRat) stale
      ∧ Denotes (sub l r stale) (l.toRat - r.toRat) stale := by
  refine ⟨denotes_combine stale hl hr hw, ?_⟩
  rw [sub_eq, sub_eq_add_neg, ← toRat_negated hr]
  exact denotes_combine stale hl hr.negated (by rwa [alignedWidth_negated])

/-- A sum that carries through all sixteen digits. -/
theorem add_sub_exact_carry :
    alignedWidth ⟨9999999999999995, 16⟩ ⟨5, 1⟩ = 16
      ∧ Denotes (add ⟨9999999999999995, 16⟩ ⟨5, 1⟩ 7)
        (toRat ⟨9999999999999995, 16⟩ + toRat ⟨5, 1⟩) 7
      ∧ add ⟨9999999999999995, 16⟩ ⟨5, 1⟩ 7 = ⟨1, 17⟩
      ∧ sub ⟨9999999999999995, 16⟩ ⟨5, 1⟩ 7 = ⟨999999999999999, 16⟩ := by
  have hw : alignedWidth ⟨9999999999999995, 16⟩ ⟨5, 1⟩ = 16 := by decide +kernel
  obtain ⟨hadd, -⟩ := add_sub_exact (l := ⟨9999999999999995, 16⟩) (r := ⟨5, 1⟩) 7
    ⟨by decide, by decide, by decide⟩ ⟨by decide, by decide, by decide⟩ (le_of_eq hw)
  exact ⟨hw, hadd, by decide +kernel, by decide +kernel⟩

end

end Decimal

end MoonBackend
