import Mathlib
import MoonBackend.Decimal

/-!
# The reference for float sums, step by step

`Decimal.combine` on 64-bit words is cut into its named intermediates. `Decimal.Fits` says that each
of them is a 32-bit word, and the lemmas on alignment say what the same steps give on 32-bit words:
the widths, the widened mantissas and their sum agree.
-/

namespace MoonBackend

def IsWord (x : Int64) : Prop := -2 ^ 31 ≤ x.toInt ∧ x.toInt < 2 ^ 31

instance (x : Int64) : Decidable (IsWord x) := by unfold IsWord; infer_instance

theorem IsWord.toInt_toInt32 {x : Int64} (h : IsWord x) : x.toInt32.toInt = x.toInt := by
  obtain ⟨h0, h1⟩ := h
  rw [Int64.toInt_toInt32]
  exact Int.bmod_eq_of_le (by omega) (by omega)

theorem IsWord.toInt32_eq_zero {x : Int64} (h : IsWord x) : x.toInt32 = 0 ↔ x = 0 := by
  rw [← Int32.toInt_inj, h.toInt_toInt32, ← Int64.toInt_inj]
  rfl

theorem isWord_toInt64 (x : Int32) : IsWord x.toInt64 := by
  have h0 := x.le_toInt
  have h1 := x.toInt_lt
  constructor
  · rw [Int32.toInt_toInt64]
    omega
  · rw [Int32.toInt_toInt64]
    omega

namespace Decimal

/-! ### Intermediates -/

/-- The operand with the larger exponent, the right one on a tie. -/
def bigger (l r : Decimal) : Decimal := if r.exponent < l.exponent then l else r

def smaller (l r : Decimal) : Decimal := if r.exponent < l.exponent then r else l

def gap (l r : Decimal) : Int64 := (bigger l r).exponent - (smaller l r).exponent

def bigWidth (l r : Decimal) : Int64 := digits (bigger l r).mantissa

def smallWidth (l r : Decimal) : Int64 := digits (smaller l r).mantissa + gap l r

/-- The width to which both mantissas are brought. -/
def width (l r : Decimal) : Int64 :=
  if bigWidth l r < smallWidth l r then smallWidth l r else bigWidth l r

def bigAligned (l r : Decimal) : Int64 :=
  widen (bigger l r).mantissa ((width l r).toInt - (bigWidth l r).toInt).toNat

def smallAligned (l r : Decimal) : Int64 :=
  widen (smaller l r).mantissa ((width l r).toInt - (smallWidth l r).toInt).toNat

def scaledSum (l r : Decimal) : Int64 := bigAligned l r * headroom + smallAligned l r * headroom

/-- The sum without its trailing zeros, and their number. -/
def trimmedSum (l r : Decimal) : Int64 × Int64 := trimZeros 20 (scaledSum l r) 0

theorem combine_eq (l r : Decimal) (stale : Int64) :
    combine l r stale =
      if scaledSum l r == 0 then ⟨0, -stale⟩
      else ⟨(trimmedSum l r).1,
        (bigger l r).exponent + digits (trimmedSum l r).1 - width l r
          - (2 - (trimmedSum l r).2)⟩ := by
  unfold combine trimmedSum scaledSum bigAligned smallAligned width bigWidth smallWidth gap bigger
    smaller
  by_cases h : r.exponent < l.exponent
  · simp only [h, if_true]
  · simp only [h, if_false]

/-- Every intermediate of a sum is a 32-bit word, and so is the exponent that it ends with. -/
structure Fits (l r : Decimal) (stale : Int64) : Prop where
  gap : IsWord (gap l r)
  bigWidth : IsWord (bigWidth l r)
  smallWidth : IsWord (smallWidth l r)
  bigAligned : IsWord (bigAligned l r)
  smallAligned : IsWord (smallAligned l r)
  bigScaled : IsWord (Decimal.bigAligned l r * headroom)
  smallScaled : IsWord (Decimal.smallAligned l r * headroom)
  sum : IsWord (scaledSum l r)
  exponent : IsWord (combine l r stale).exponent

/-! ### Digits -/

theorem natDigits_pos (n : Nat) : 0 < natDigits n := by
  unfold natDigits
  split
  · exact Nat.one_pos
  · exact Nat.succ_pos _

theorem natDigits_le {n k : Nat} (h : n < 10 ^ (k + 1)) : natDigits n ≤ k + 1 := by
  induction k generalizing n with
  | zero =>
    rw [natDigits, if_pos (by simpa using h)]
  | succ k ih =>
    rw [natDigits]
    split
    · omega
    · have hlt : n / 10 < 10 ^ (k + 1) := by
        rw [Nat.div_lt_iff_lt_mul (by decide), ← Nat.pow_succ]
        exact h
      have hk := ih hlt
      omega

/-- The digits that a count on 32-bit words finds: the least word has no absolute value and counts
as one digit. -/
def wordDigits (x : Int32) : Nat :=
  if x.toInt = -2 ^ 31 then 1 else natDigits x.toInt.natAbs

theorem wordDigits_le (x : Int32) : wordDigits x ≤ 10 := by
  have h0 := x.le_toInt
  have h1 := x.toInt_lt
  unfold wordDigits
  split
  · decide
  · exact natDigits_le (k := 9) (by omega)

theorem toInt_digits_of_ne {m : Int64} (hm : m.toInt ≠ -2 ^ 63) :
    (digits m).toInt = natDigits m.toInt.natAbs := by
  have h0 := m.le_toInt
  have h1 := m.toInt_lt
  have habs : (if m < 0 then -m else m).toInt.toNat = m.toInt.natAbs := by
    by_cases hneg : m < 0
    · have hneg' : m.toInt < 0 := by simpa [Int64.lt_iff_toInt_lt] using hneg
      rw [if_pos hneg, Int64.toInt_neg, Int.bmod_eq_of_le (by omega) (by omega)]
      omega
    · have hpos : 0 ≤ m.toInt := by simpa [Int64.lt_iff_toInt_lt] using hneg
      rw [if_neg hneg]
      omega
  have hle : natDigits m.toInt.natAbs ≤ 19 := natDigits_le (k := 18) (by omega)
  unfold digits
  simp only [habs]
  exact Int64.toInt_ofNat_of_lt (by omega)

theorem toInt_digits {m : Int64} (h0 : -2 ^ 31 ≤ m.toInt) (h1 : m.toInt ≤ 2 ^ 31) :
    (digits m).toInt = natDigits m.toInt.natAbs :=
  toInt_digits_of_ne (by omega)

theorem toInt32_digits {m : Int64} (h0 : -2 ^ 31 ≤ m.toInt) (h1 : m.toInt ≤ 2 ^ 31)
    (hm : m.toInt32.toInt ≠ -2 ^ 31) :
    (digits m).toInt32 = Int32.ofNat (wordDigits m.toInt32) := by
  have hd := toInt_digits h0 h1
  have hlt : m.toInt < 2 ^ 31 := by
    refine lt_of_le_of_ne h1 ?_
    intro he
    rw [Int64.toInt_toInt32, he] at hm
    exact hm (by decide)
  rw [wordDigits, if_neg hm, IsWord.toInt_toInt32 ⟨h0, hlt⟩]
  apply Int32.toInt_inj.1
  have hle : natDigits m.toInt.natAbs ≤ 10 := natDigits_le (k := 9) (by omega)
  rw [Int64.toInt_toInt32, hd, Int32.toInt_ofNat_of_lt (by omega)]
  exact Int.bmod_eq_of_le (by omega) (by omega)

/-! ### Alignment -/

theorem toInt32_widen (m : Int64) (k : Nat) :
    (widen m k).toInt32 = m.toInt32 * Int32.ofNat (10 ^ k) := by
  unfold widen
  rw [Int64.toInt32_mul, Int64.toInt32_ofNat']
  congr 1
  by_cases hk : k ≤ 64
  · rw [Nat.min_eq_left hk]
    rfl
  · obtain ⟨j, rfl⟩ := Nat.exists_eq_add_of_le (Nat.le_of_not_le hk)
    rw [Nat.min_eq_right (Nat.le_add_right _ _), Nat.pow_add, Int32.ofNat_mul,
      show Int32.ofNat (10 ^ 64) = 0 by decide, Int32.zero_mul]
    decide

theorem toInt_scaled {x : Int64} (h0 : -2 ^ 31 ≤ x.toInt) (h1 : x.toInt ≤ 2 ^ 31) :
    (x * headroom).toInt = x.toInt * 100 := by
  rw [Int64.toInt_mul, show headroom.toInt = 100 from rfl]
  exact Int.bmod_eq_of_le (by omega) (by omega)

/-- An operand whose words are 32 bits wide; the mantissa may be the negated least word. -/
structure Narrow (v : Decimal) : Prop where
  mantissa_ge : -2 ^ 31 ≤ v.mantissa.toInt
  mantissa_le : v.mantissa.toInt ≤ 2 ^ 31
  exponent : IsWord v.exponent

theorem Narrow.bigger {l r : Decimal} (hl : l.Narrow) (hr : r.Narrow) : (bigger l r).Narrow := by
  unfold Decimal.bigger
  split
  · exact hl
  · exact hr

theorem Narrow.smaller {l r : Decimal} (hl : l.Narrow) (hr : r.Narrow) : (smaller l r).Narrow := by
  unfold Decimal.smaller
  split
  · exact hr
  · exact hl

theorem toInt_gap {l r : Decimal} (hl : l.Narrow) (hr : r.Narrow) : 0 ≤ (gap l r).toInt := by
  obtain ⟨b0, b1⟩ := (hl.bigger hr).exponent
  obtain ⟨s0, s1⟩ := (hl.smaller hr).exponent
  have hge : (smaller l r).exponent.toInt ≤ (bigger l r).exponent.toInt := by
    unfold Decimal.bigger Decimal.smaller
    split
    · rename_i hlt
      rw [Int64.lt_iff_toInt_lt] at hlt
      omega
    · rename_i hlt
      rw [Int64.lt_iff_toInt_lt] at hlt
      omega
  rw [gap, Int64.toInt_sub, Int.bmod_eq_of_le (by omega) (by omega)]
  omega

theorem width_toInt (l r : Decimal) :
    (width l r).toInt = max (bigWidth l r).toInt (smallWidth l r).toInt := by
  unfold width
  split
  · rename_i h
    rw [Int64.lt_iff_toInt_lt] at h
    omega
  · rename_i h
    rw [Int64.lt_iff_toInt_lt] at h
    omega

theorem isWord_width {l r : Decimal} {stale : Int64} (h : Fits l r stale) : IsWord (width l r) := by
  unfold width
  split
  · exact h.smallWidth
  · exact h.bigWidth

theorem bigWidth_toInt {l r : Decimal} (hl : l.Narrow) (hr : r.Narrow) :
    (bigWidth l r).toInt = natDigits (bigger l r).mantissa.toInt.natAbs :=
  toInt_digits (hl.bigger hr).mantissa_ge (hl.bigger hr).mantissa_le

/-- The smaller mantissa is not the least word: it would be scaled without having been widened. -/
theorem smaller_ne_least {l r : Decimal} {stale : Int64} (h : Fits l r stale) (hl : l.Narrow)
    (hr : r.Narrow) : (smaller l r).mantissa.toInt32.toInt ≠ -2 ^ 31 := by
  intro hm
  obtain ⟨s0, s1, -⟩ := hl.smaller hr
  obtain ⟨b0, b1, -⟩ := hl.bigger hr
  have habs : (smaller l r).mantissa.toInt.natAbs = 2 ^ 31 := by
    rw [Int64.toInt_toInt32] at hm
    by_cases he : (smaller l r).mantissa.toInt = 2 ^ 31
    · omega
    · rw [Int.bmod_eq_of_le (by omega) (by omega)] at hm
      omega
  have hbw : (bigWidth l r).toInt ≤ 10 := by
    rw [bigWidth_toInt hl hr]
    have hle : natDigits (bigger l r).mantissa.toInt.natAbs ≤ 10 := natDigits_le (k := 9) (by omega)
    omega
  have hgap := toInt_gap hl hr
  obtain ⟨g0, g1⟩ := h.gap
  have hsw : (smallWidth l r).toInt = 10 + (gap l r).toInt := by
    have hd := toInt_digits s0 s1
    rw [habs, show natDigits (2 ^ 31) = 10 by decide +kernel] at hd
    rw [smallWidth, Int64.toInt_add, hd]
    exact Int.bmod_eq_of_le (by omega) (by omega)
  have hk : ((width l r).toInt - (smallWidth l r).toInt).toNat = 0 := by
    rw [width_toInt]
    omega
  obtain ⟨c0, c1⟩ := h.smallScaled
  have hsm : smallAligned l r = (smaller l r).mantissa := by
    rw [smallAligned, hk]
    exact Int64.mul_one _
  rw [hsm, toInt_scaled s0 s1] at c0 c1
  omega

theorem toInt32_smallWidth {l r : Decimal} {stale : Int64} (h : Fits l r stale) (hl : l.Narrow)
    (hr : r.Narrow) :
    (smallWidth l r).toInt32 = Int32.ofNat (wordDigits (smaller l r).mantissa.toInt32)
      + ((bigger l r).exponent.toInt32 - (smaller l r).exponent.toInt32) := by
  obtain ⟨s0, s1, -⟩ := hl.smaller hr
  rw [smallWidth, gap, Int64.toInt32_add, Int64.toInt32_sub,
    toInt32_digits s0 s1 (smaller_ne_least h hl hr)]

/-- A bigger mantissa that is the least word vanishes when it is widened, and so do its digits. -/
theorem bigger_least {l r : Decimal} {stale : Int64} (h : Fits l r stale) (hl : l.Narrow)
    (hr : r.Narrow) (hm : (bigger l r).mantissa.toInt32.toInt = -2 ^ 31) :
    bigAligned l r = 0 ∧ 10 < (smallWidth l r).toInt := by
  obtain ⟨b0, b1, -⟩ := hl.bigger hr
  have hmin : (bigger l r).mantissa.toInt32 = Int32.minValue := Int32.toInt_inj.1 hm
  have habs : (bigger l r).mantissa.toInt.natAbs = 2 ^ 31 := by
    rw [Int64.toInt_toInt32] at hm
    by_cases he : (bigger l r).mantissa.toInt = 2 ^ 31
    · omega
    · rw [Int.bmod_eq_of_le (by omega) (by omega)] at hm
      omega
  have hbw : (bigWidth l r).toInt = 10 := by
    rw [bigWidth_toInt hl hr, habs, show natDigits (2 ^ 31) = 10 by decide +kernel]
    rfl
  obtain ⟨c0, c1⟩ := h.bigScaled
  -- without a factor of ten the mantissa itself would be scaled
  have hk : 0 < ((width l r).toInt - (bigWidth l r).toInt).toNat := by
    refine Nat.pos_of_ne_zero fun hk => ?_
    have hba : bigAligned l r = (bigger l r).mantissa := by
      rw [bigAligned, hk]
      exact Int64.mul_one _
    rw [hba, toInt_scaled b0 b1] at c0 c1
    omega
  refine ⟨?_, ?_⟩
  · obtain ⟨k, hk'⟩ := Nat.exists_eq_add_of_lt hk
    have h32 : (bigAligned l r).toInt32 = 0 := by
      rw [bigAligned, toInt32_widen, hk', hmin, Nat.zero_add, Nat.pow_succ, Nat.mul_comm,
        Int32.ofNat_mul, ← Int32.mul_assoc, show Int32.minValue * Int32.ofNat 10 = 0 by decide,
        Int32.zero_mul]
    exact h.bigAligned.toInt32_eq_zero.1 h32
  · rw [width_toInt] at hk
    omega

theorem toInt32_bigAligned {l r : Decimal} {stale : Int64} (h : Fits l r stale) (hl : l.Narrow)
    (hr : r.Narrow) :
    let n := wordDigits (bigger l r).mantissa.toInt32
    let k := ((smallWidth l r).toInt - n).toNat
    (bigger l r).mantissa.toInt32 * Int32.ofNat (10 ^ k) = (bigAligned l r).toInt32
      ∧ (n : Int) + k = (width l r).toInt := by
  intro n k
  obtain ⟨b0, b1, -⟩ := hl.bigger hr
  by_cases hm : (bigger l r).mantissa.toInt32.toInt = -2 ^ 31
  · obtain ⟨hz, hsw⟩ := bigger_least h hl hr hm
    have hmin : (bigger l r).mantissa.toInt32 = Int32.minValue := Int32.toInt_inj.1 hm
    have hn : n = 1 := if_pos hm
    have hbw : (bigWidth l r).toInt ≤ 10 := by
      rw [bigWidth_toInt hl hr]
      have hle : natDigits (bigger l r).mantissa.toInt.natAbs ≤ 10 :=
        natDigits_le (k := 9) (by omega)
      omega
    refine ⟨?_, by rw [width_toInt]; omega⟩
    obtain ⟨j, hj⟩ : ∃ j, k = j + 1 := ⟨k - 1, by omega⟩
    rw [hz, hmin, hj, Nat.pow_succ, Nat.mul_comm, Int32.ofNat_mul, ← Int32.mul_assoc,
      show Int32.minValue * Int32.ofNat 10 = 0 by decide, Int32.zero_mul]
    rfl
  · have hn : (n : Int) = (bigWidth l r).toInt := by
      have hd : (bigWidth l r).toInt32 = Int32.ofNat n := toInt32_digits b0 b1 hm
      have hw := congrArg Int32.toInt hd
      have hle : n ≤ 10 := wordDigits_le _
      rw [h.bigWidth.toInt_toInt32, Int32.toInt_ofNat_of_lt (by omega)] at hw
      exact hw.symm
    have hk : k = ((width l r).toInt - (bigWidth l r).toInt).toNat := by
      rw [width_toInt]
      omega
    refine ⟨?_, by rw [width_toInt]; omega⟩
    rw [bigAligned, toInt32_widen, hk]

theorem natAbs_trimZeros (rounds : Nat) (s n : Int64) :
    (trimZeros rounds s n).1.toInt.natAbs ≤ s.toInt.natAbs := by
  fun_induction trimZeros rounds s n with
  | case1 s n => exact Nat.le_refl _
  | case2 rounds s n h ih =>
    have hd : (s / 10).toInt = s.toInt.tdiv 10 := Int64.toInt_div_of_ne_right s 10 (by decide)
    rw [hd, Int.natAbs_tdiv] at ih
    exact ih.trans (Nat.div_le_self _ _)
  | case3 rounds s n h => exact Nat.le_refl _

theorem scaledSum_ne_least {l r : Decimal} {stale : Int64} (h : Fits l r stale) :
    (scaledSum l r).toInt ≠ -2 ^ 31 := by
  obtain ⟨b0, b1⟩ := h.bigAligned
  obtain ⟨s0, s1⟩ := h.smallAligned
  have hb := toInt_scaled b0 (by omega)
  have hs := toInt_scaled s0 (by omega)
  rw [scaledSum, Int64.toInt_add, hb, hs, Int.bmod_eq_of_le (by omega) (by omega)]
  omega

end Decimal

end MoonBackend
