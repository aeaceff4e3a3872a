import MoonBackend.Proofs.Float.Reference

/-!
# Symmetry of decimal sums

The order of the operands decides which of them is aligned with the other, and on a tie of the
exponents the right one counts as the bigger. Neither shows in the result: a sum does not depend on
the order, and a difference taken the other way round is negated. Both hold on all words, also where
the arithmetic wraps, because negation commutes with every step, the least word included.
-/

namespace MoonBackend

namespace Decimal

def negated (v : Decimal) : Decimal := ⟨-v.mantissa, v.exponent⟩

@[simp] theorem negated_mantissa (v : Decimal) : v.negated.mantissa = -v.mantissa := rfl

@[simp] theorem negated_exponent (v : Decimal) : v.negated.exponent = v.exponent := rfl

@[simp] theorem negated_negated (v : Decimal) : v.negated.negated = v := by
  unfold negated
  rw [Int64.neg_neg]

theorem sub_eq (l r : Decimal) (stale : Int64) : sub l r stale = combine l r.negated stale := rfl

/-! ### Order -/

theorem bigger_cases (l r : Decimal) :
    (bigger r l = bigger l r ∧ smaller r l = smaller l r)
      ∨ (l.exponent = r.exponent ∧ bigger l r = r ∧ smaller l r = l ∧ bigger r l = l
        ∧ smaller r l = r) := by
  unfold bigger smaller
  by_cases hl : l.exponent < r.exponent
  · have hr : ¬ r.exponent < l.exponent := Int64.not_lt.2 (Int64.le_of_lt hl)
    left
    simp only [hl, hr, if_true, if_false, and_self]
  · by_cases hr : r.exponent < l.exponent
    · left
      simp only [hl, hr, if_true, if_false, and_self]
    · exact .inr ⟨Int64.le_antisymm (Int64.not_lt.1 hr) (Int64.not_lt.1 hl), if_neg hr, if_neg hr,
        if_neg hl, if_neg hl⟩

theorem width_of_tie {l r : Decimal} (he : l.exponent = r.exponent) (hb : bigger l r = r)
    (hs : smaller l r = l) :
    bigWidth l r = digits r.mantissa ∧ smallWidth l r = digits l.mantissa := by
  refine ⟨by rw [bigWidth, hb], ?_⟩
  rw [smallWidth, gap, hb, hs, he, Int64.sub_self, Int64.add_zero]

theorem combine_comm (l r : Decimal) (stale : Int64) : combine l r stale = combine r l stale := by
  rcases bigger_cases l r with ⟨hb, hs⟩ | ⟨he, hb, hs, hb', hs'⟩
  · rw [combine_eq, combine_eq]
    unfold trimmedSum scaledSum bigAligned smallAligned width bigWidth smallWidth gap
    rw [hb, hs]
  · obtain ⟨hbw, hsw⟩ := width_of_tie he hb hs
    obtain ⟨hbw', hsw'⟩ := width_of_tie he.symm hb' hs'
    have hw : width l r = width r l := by
      apply Int64.toInt_inj.1
      rw [width_toInt, width_toInt, hbw, hsw, hbw', hsw', max_comm]
    have hbig : bigAligned l r = smallAligned r l := by
      rw [bigAligned, smallAligned, hb, hs', hw, hbw, hsw']
    have hsmall : smallAligned l r = bigAligned r l := by
      rw [bigAligned, smallAligned, hb', hs, hw, hbw', hsw]
    have hsum : scaledSum l r = scaledSum r l := by
      rw [scaledSum, scaledSum, hbig, hsmall, Int64.add_comm]
    have hexp : (bigger l r).exponent = (bigger r l).exponent := by rw [hb, hb', he]
    rw [combine_eq, combine_eq]
    unfold trimmedSum
    rw [hsum, hw, hexp]

/-! ### Negation -/

theorem neg_toInt_of_ne {m : Int64} (hm : m.toInt ≠ -2 ^ 63) : (-m).toInt = -m.toInt := by
  have h0 := m.le_toInt
  have h1 := m.toInt_lt
  rw [Int64.toInt_neg]
  exact Int.bmod_eq_of_le (by omega) (by omega)

theorem neg_eq_self_of_least {m : Int64} (hm : m.toInt = -2 ^ 63) : -m = m := by
  apply Int64.toInt_inj.1
  rw [Int64.toInt_neg, hm]
  decide

theorem digits_neg (m : Int64) : digits (-m) = digits m := by
  by_cases hm : m.toInt = -2 ^ 63
  · rw [neg_eq_self_of_least hm]
  · have hn := neg_toInt_of_ne hm
    have h1 := m.toInt_lt
    apply Int64.toInt_inj.1
    rw [toInt_digits_of_ne hm, toInt_digits_of_ne (by omega), hn, Int.natAbs_neg]

theorem widen_neg (m : Int64) (k : ℕ) : widen (-m) k = -widen m k := Int64.neg_mul _ _

theorem bigger_negated (l r : Decimal) : bigger l.negated r.negated = (bigger l r).negated := by
  unfold bigger
  exact (apply_ite negated _ _ _).symm

theorem smaller_negated (l r : Decimal) : smaller l.negated r.negated = (smaller l r).negated := by
  unfold smaller
  exact (apply_ite negated _ _ _).symm

theorem width_negated (l r : Decimal) :
    bigWidth l.negated r.negated = bigWidth l r ∧ smallWidth l.negated r.negated = smallWidth l r
      ∧ width l.negated r.negated = width l r := by
  have hb : bigWidth l.negated r.negated = bigWidth l r := by
    rw [bigWidth, bigger_negated]
    exact digits_neg _
  have hs : smallWidth l.negated r.negated = smallWidth l r := by
    rw [smallWidth, gap, bigger_negated, smaller_negated]
    exact congrArg (· + gap l r) (digits_neg _)
  exact ⟨hb, hs, by rw [width, hb, hs, width]⟩

theorem scaledSum_negated (l r : Decimal) : scaledSum l.negated r.negated = -scaledSum l r := by
  obtain ⟨hb, hs, hw⟩ := width_negated l r
  have hbig : bigAligned l.negated r.negated = -bigAligned l r := by
    rw [bigAligned, bigger_negated, hb, hw]
    exact widen_neg _ _
  have hsmall : smallAligned l.negated r.negated = -smallAligned l r := by
    rw [smallAligned, smaller_negated, hs, hw]
    exact widen_neg _ _
  rw [scaledSum, hbig, hsmall, Int64.neg_mul, Int64.neg_mul, scaledSum, Int64.neg_add,
    Int64.sub_eq_add_neg]

theorem trimZeros_neg (rounds : ℕ) (s n : Int64) :
    trimZeros rounds (-s) n = (-(trimZeros rounds s n).1, (trimZeros rounds s n).2) := by
  induction rounds generalizing s n with
  | zero => rfl
  | succ rounds ih =>
    have hmod : ((-s) % 10 == 0) = (s % 10 == 0) := by
      by_cases hs : s.toInt = -2 ^ 63
      · rw [neg_eq_self_of_least hs]
      · rw [Bool.eq_iff_iff, beq_iff_eq, beq_iff_eq, ← Int64.toInt_inj, ← Int64.toInt_inj,
          Int64.toInt_mod, Int64.toInt_mod, neg_toInt_of_ne hs, Int.neg_tmod]
        exact Int.neg_eq_zero
    rw [trimZeros, trimZeros, hmod]
    by_cases hz : (s % 10 == 0) = true
    · have hs : s.toInt ≠ -2 ^ 63 := by
        intro hs
        have h := congrArg Int64.toInt (eq_of_beq hz)
        rw [Int64.toInt_mod, hs] at h
        exact absurd h (by decide)
      have hne : (s / 10).toInt ≠ -2 ^ 63 := by
        intro hdiv
        rw [Int64.toInt_div_of_ne_right s 10 (by decide)] at hdiv
        have h0 := s.le_toInt
        have h1 := s.toInt_lt
        have habs : s.toInt.natAbs / 10 = 2 ^ 63 :=
          (Int.natAbs_tdiv s.toInt 10).symm.trans (congrArg Int.natAbs hdiv)
        omega
      have hdiv : (-s) / 10 = -(s / 10) := by
        apply Int64.toInt_inj.1
        rw [neg_toInt_of_ne hne, Int64.toInt_div_of_ne_right _ 10 (by decide),
          Int64.toInt_div_of_ne_right _ 10 (by decide), neg_toInt_of_ne hs, Int.neg_tdiv]
      rw [if_pos hz, if_pos hz, hdiv]
      exact ih _ _
    · rw [if_neg hz, if_neg hz]

theorem combine_negated (l r : Decimal) (stale : Int64) :
    combine l.negated r.negated stale = (combine l r stale).negated := by
  have htrim : trimmedSum l.negated r.negated = (-(trimmedSum l r).1, (trimmedSum l r).2) := by
    rw [trimmedSum, scaledSum_negated]
    exact trimZeros_neg _ _ _
  have hzero : (-scaledSum l r == 0) = (scaledSum l r == 0) := by
    rw [Bool.eq_iff_iff, beq_iff_eq, beq_iff_eq]
    constructor
    · intro h
      rw [← Int64.neg_neg (a := scaledSum l r), h]
      rfl
    · intro h
      rw [h]
      rfl
  rw [combine_eq, combine_eq, scaledSum_negated, hzero, bigger_negated, (width_negated l r).2.2,
    htrim]
  split
  · exact congrArg (Decimal.mk · (-stale)) Int64.neg_zero.symm
  · rw [negated_exponent, digits_neg]
    rfl

/-! ### Both laws -/

theorem sub_swap (l r : Decimal) (stale : Int64) : sub r l stale = (sub l r stale).negated := by
  calc sub r l stale = combine r l.negated stale := rfl
    _ = combine l.negated r stale := combine_comm _ _ _
    _ = combine l.negated r.negated.negated stale := by rw [negated_negated]
    _ = (combine l r.negated stale).negated := combine_negated _ _ _

/-- A sum does not depend on the order of its operands, and a difference taken the other way round
is negated, with the same exponent; all of it on words that may wrap. -/
theorem add_comm_sub_neg (l r : Decimal) (stale : Int64) :
    add l r stale = add r l stale
      ∧ (sub r l stale).exponent = (sub l r stale).exponent
      ∧ (sub r l stale).mantissa = -(sub l r stale).mantissa := by
  refine ⟨combine_comm l r stale, ?_⟩
  rw [sub_swap]
  exact ⟨negated_exponent _, negated_mantissa _⟩

end Decimal

end MoonBackend
