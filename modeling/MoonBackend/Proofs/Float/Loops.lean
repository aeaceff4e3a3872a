import MoonBackend.Emit.Float
import MoonBackend.Proofs.Code.Execution
import MoonBackend.Proofs.Float.Reference

/-!
# The loops of a float sum

The emitted sum of two floats is put together from a few pieces: an exchange of two registers, the
count of the digits of a mantissa, the widening of a mantissa and the removal of trailing zeros.
Each piece is taken as plain code over its labels, and what it computes is stated for every site
that holds it, every machine that stands at its start and every choice of registers.
-/

namespace MoonBackend

open Machine Code

namespace Emit

def digitsLoop (dst a t : Register) (loop stop : String) : Code :=
  [.labeled loop (.imm .clti t a 10)]
    ++ plain [.bnz t stop, .imm .divi a a 10, .imm .addi dst dst 1, .j loop]
    ++ [mark stop]

def digitsCode (dst src a t zero : Register) (abs loop stop : String) : Code :=
  plain [.reg3 .add a src zero, .reg3 .cge t a zero, .bnz t abs,
      .reg3 .sub a zero a]
    ++ [.labeled abs (.imm .addi dst zero 1)]
    ++ digitsLoop dst a t loop stop

def widenCode (m width other t : Register) (loop stop : String) : Code :=
  [.labeled loop (.reg3 .cge t width other)]
    ++ plain [.bnz t stop, .imm .muli m m 10, .imm .addi width width 1, .j loop]
    ++ [mark stop]

def trimCode (m count t : Register) (trim trimmed : String) : Code :=
  [.labeled trim (.imm .modi t m 10)]
    ++ plain [.bnz t trimmed, .imm .divi m m 10, .imm .subi count count 1, .j trim]
    ++ [mark trimmed]

@[simp] theorem size_swap (x y t zero : Register) : Code.size (swap x y t zero) = 12 := rfl

@[simp]
theorem size_digitsCode (dst src a t zero : Register) (abs loop stop : String) :
    Code.size (digitsCode dst src a t zero abs loop stop) = 44 := rfl

@[simp]
theorem size_widenCode (m width other t : Register) (loop stop : String) :
    Code.size (widenCode m width other t loop stop) = 24 := rfl

@[simp]
theorem size_trimCode (m count t : Register) (trim trimmed : String) :
    Code.size (trimCode m count t trim trimmed) = 24 := rfl

end Emit

namespace Float

open Emit

variable {site : Site} {m : Machine} {a : Nat}

/-! ### Exchange -/

theorem exec_swap {x y t zero : Register} (h : m.On site a)
    (hc : site.Holds a (swap x y t zero)) (h0 : m.get zero = 0) (hx : x.Writable)
    (hy : y.Writable) (ht : t.Writable) (hxy : x ≠ y) (hxt : x ≠ t) (hyt : y ≠ t)
    (hzx : zero ≠ x) (hzt : zero ≠ t) :
    ∃ m', Computes site [x, y, t] m (a + Code.size (swap x y t zero)) m'
      ∧ m'.get x = m.get y ∧ m'.get y = m.get x := by
  simp only [swap, plain, List.map, Site.holds_plain] at hc
  obtain ⟨h1, h2, h3, -⟩ := hc
  have e1 := h.exec_reg3 (v := m.get x + m.get zero) h1 rfl rfl
  have c1 := Computes.put (w := [x, y, t]) h e1 (by simp)
  have e2 := c1.on.exec_reg3 (v := m.get y + m.get zero) h2 rfl (by
    rw [get_put_of_ne hyt, get_put_of_ne hzt]
    rfl)
  have c2 := c1.trans (Computes.put (w := [x, y, t]) c1.on e2 (by simp))
  have e3 := c2.on.exec_reg3 (v := m.get x + m.get zero + m.get zero) h3 rfl (by
    rw [get_put_of_ne hxt.symm, get_put_self ht, get_put_of_ne hzx, get_put_of_ne hzt]
    rfl)
  have c3 := c2.trans (Computes.put (w := [x, y, t]) c2.on e3 (by simp))
  refine ⟨_, c3, ?_, ?_⟩
  · rw [get_put_of_ne hxy, get_put_self hx, h0, Int32.add_zero]
  · rw [get_put_self hy, h0, Int32.add_zero, Int32.add_zero]

/-! ### Digits -/

theorem exec_digitsExit {dst x t : Register} {loop stop : String} (h : m.On site a)
    (hc : site.Holds a (digitsLoop dst x t loop stop)) (hx : m.get x < Int64.toInt32 10)
    (htw : t.Writable) (hdt : dst ≠ t) :
    ∃ m', Computes site [dst, x, t] m (a + 24) m' ∧ m'.get dst = m.get dst := by
  simp only [digitsLoop, plain, List.map, mark, List.cons_append, List.nil_append,
    Site.holds_plain, Site.holds_labeled, Item.size, Item.imm, Item.bnz, Item.j, Item.bare] at hc
  obtain ⟨⟨-, h1⟩, h2, -, -, -, ⟨hstop, h6⟩, -⟩ := hc
  have e1 := h.exec_imm (v := 1) h1 rfl (by
    simp only [valueOf?, truth, decide_eq_true_eq]
    rw [if_pos hx])
  have c1 := Computes.put (w := [dst, x, t]) h e1 (by simp)
  have e2 := c1.on.exec_bnz (b := a + 4 + 4 + 4 + 4 + 4) h2 hstop
  rw [get_put_self htw, if_neg (by decide)] at e2
  have c2 := c1.trans (Computes.goto (w := [dst, x, t]) c1.on e2)
  have e3 := c2.on.exec_nop h6
  refine ⟨_, c2.trans (Computes.goto (w := [dst, x, t]) c2.on e3), ?_⟩
  rw [get_goto, get_goto, get_put_of_ne hdt]

theorem exec_digitsLoop {dst x t : Register} {loop stop : String} (n : Nat) (m : Machine)
    (h : m.On site a) (hc : site.Holds a (digitsLoop dst x t loop stop))
    (hn : n < 2 ^ 31) (hx : m.get x = Int32.ofNat n) (hdw : dst.Writable) (hxw : x.Writable)
    (htw : t.Writable) (hdx : dst ≠ x) (hdt : dst ≠ t) (hxt : x ≠ t) :
    ∃ m', Computes site [dst, x, t] m (a + 24) m'
      ∧ m'.get dst = m.get dst + Int32.ofNat (Decimal.natDigits n - 1) := by
  induction n using Nat.strongRecOn generalizing m with
  | ind n ih =>
    have hten : (Int64.toInt32 10) = Int32.ofNat 10 := rfl
    have hiff : m.get x < Int64.toInt32 10 ↔ n < 10 := by
      rw [hx, hten]
      exact Int32.ofNat_lt_iff_lt hn (by decide)
    by_cases hlt : n < 10
    · obtain ⟨m', c, hm'⟩ := exec_digitsExit h hc (hiff.2 hlt) htw hdt
      have hd : Decimal.natDigits n = 1 := by unfold Decimal.natDigits; rw [if_pos hlt]
      refine ⟨m', c, ?_⟩
      rw [hm', hd]
      simp
    · have hd : Decimal.natDigits n = Decimal.natDigits (n / 10) + 1 := by
        rw [Decimal.natDigits, if_neg hlt]
      have hpos := Decimal.natDigits_pos (n / 10)
      have hc' := hc
      simp only [digitsLoop, plain, List.map, mark, List.cons_append, List.nil_append,
        Site.holds_plain, Site.holds_labeled, Item.size, Item.imm, Item.bnz, Item.j, Item.bare]
        at hc'
      obtain ⟨⟨hloop, h1⟩, h2, h3, h4, h5, ⟨hstop, -⟩, -⟩ := hc'
      have e1 := h.exec_imm (v := 0) h1 rfl (by
        simp only [valueOf?, truth, decide_eq_true_eq]
        rw [if_neg (mt hiff.1 hlt)])
      have c1 := Computes.put (w := [dst, x, t]) h e1 (by simp)
      have e2 := c1.on.exec_bnz (b := a + 4 + 4 + 4 + 4 + 4) h2 hstop
      rw [get_put_self htw, if_pos rfl] at e2
      have c2 := c1.trans (Computes.goto (w := [dst, x, t]) c1.on e2)
      have e3 := c2.on.exec_imm (v := Int32.ofNat (n / 10)) h3 rfl (by
        rw [get_goto, get_put_of_ne hxt, hx, hten]
        simp only [valueOf?]
        rw [if_neg (by decide), ← Int32.ofNat_div hn (by decide)])
      have c3 := c2.trans (Computes.put (w := [dst, x, t]) c2.on e3 (by simp))
      have e4 := c3.on.exec_imm (v := m.get dst + 1) h4 rfl (by
        rw [get_put_of_ne hdx, get_goto, get_put_of_ne hdt]
        rfl)
      have c4 := c3.trans (Computes.put (w := [dst, x, t]) c3.on e4 (by simp))
      have e5 := c4.on.exec_j h5 hloop
      have c5 := c4.trans (Computes.goto (w := [dst, x, t]) c4.on e5)
      obtain ⟨m', c6, hm'⟩ := ih (n / 10) (by omega) _ c5.on (by omega) (by
        rw [get_goto, get_put_of_ne hdx.symm, get_put_self hxw])
      refine ⟨m', c5.trans c6, ?_⟩
      rw [hm', get_goto, get_put_self hdw, hd]
      have hk : Decimal.natDigits (n / 10) + 1 - 1 = 1 + (Decimal.natDigits (n / 10) - 1) := by
        omega
      rw [hk, Int32.ofNat_add, Int32.add_assoc]
      rfl

/-- The digits of a mantissa are counted. The least word stays negative when its sign is turned, so
that it counts as one digit. -/
theorem exec_digits {dst src x t zero : Register} {abs loop stop : String} (h : m.On site a)
    (hc : site.Holds a (digitsCode dst src x t zero abs loop stop)) (h0 : m.get zero = 0)
    (hdw : dst.Writable) (hxw : x.Writable) (htw : t.Writable) (hdx : dst ≠ x) (hdt : dst ≠ t)
    (hxt : x ≠ t) (hzd : zero ≠ dst) (hzx : zero ≠ x) (hzt : zero ≠ t) :
    ∃ m', Computes site [dst, x, t] m (a + 44) m'
      ∧ m'.get dst = Int32.ofNat (Decimal.wordDigits (m.get src)) := by
  have hc' := hc
  simp only [digitsCode, plain, List.map, List.cons_append, List.nil_append, Site.holds_plain,
    Site.holds_labeled, Item.size, Item.imm, Item.bnz, Item.reg3] at hc'
  obtain ⟨h1, h2, h3, h4, ⟨habs, h5⟩, hloop⟩ := hc'
  have hlt := (m.get src).toInt_lt
  have hge := (m.get src).le_toInt
  have e1 := h.exec_reg3 (v := m.get src) h1 rfl (by rw [h0]; simp [valueOf?])
  have c1 := Computes.put (w := [dst, x, t]) h e1 (by simp)
  have e2 := c1.on.exec_reg3 (v := truth (0 ≤ m.get src)) h2 rfl (by
    rw [get_put_self hxw, get_put_of_ne hzx, h0]
    rfl)
  have c2 := c1.trans (Computes.put (w := [dst, x, t]) c1.on e2 (by simp))
  have e3 := c2.on.exec_bnz (b := a + 4 + 4 + 4 + 4) h3 habs
  rw [get_put_self htw] at e3
  have hboth : ∃ m₃, Computes site [dst, x, t] m (a + 4 + 4 + 4 + 4) m₃
      ∧ m₃.get x = if 0 ≤ m.get src then m.get src else 0 - m.get src := by
    by_cases hs : 0 ≤ m.get src
    · rw [if_neg (by simp [truth, hs])] at e3
      refine ⟨_, c2.trans (Computes.goto (w := [dst, x, t]) c2.on e3), ?_⟩
      rw [get_goto, get_put_of_ne hxt, get_put_self hxw, if_pos hs]
    · rw [if_pos (by simp [truth, hs])] at e3
      have c3 := c2.trans (Computes.goto (w := [dst, x, t]) c2.on e3)
      have e4 := c3.on.exec_reg3 (v := 0 - m.get src) h4 rfl (by
        rw [get_goto, get_goto, get_put_of_ne hzt, get_put_of_ne hzx, h0, get_put_of_ne hxt,
          get_put_self hxw]
        rfl)
      refine ⟨_, c3.trans (Computes.put (w := [dst, x, t]) c3.on e4 (by simp)), ?_⟩
      rw [get_put_self hxw, if_neg hs]
  obtain ⟨m₃, c3, hx3⟩ := hboth
  have e4 := c3.on.exec_imm (v := 1) h5 rfl (by
    rw [c3.get zero (by simp [hzd, hzx, hzt]), h0]
    rfl)
  have c4 := c3.trans (Computes.put (w := [dst, x, t]) c3.on e4 (by simp))
  have hx4 : (m₃.put dst 1 (a + 4 + 4 + 4 + 4 + 4)).get x = m₃.get x := get_put_of_ne hdx.symm
  have hsign : 0 ≤ m.get src ↔ 0 ≤ (m.get src).toInt := by
    rw [Int32.le_iff_toInt_le]
    rfl
  by_cases hmin : (m.get src).toInt = -2 ^ 31
  · have hsrc : m.get src = Int32.minValue := Int32.toInt_inj.1 hmin
    obtain ⟨m', c5, hm'⟩ := exec_digitsExit c4.on hloop (by
      rw [hx4, hx3, hsrc]
      decide) htw hdt
    refine ⟨m', c4.trans c5, ?_⟩
    rw [hm', get_put_self hdw, Decimal.wordDigits, if_pos hmin]
    rfl
  · have hx5 : m₃.get x = Int32.ofNat (m.get src).toInt.natAbs := by
      rw [hx3]
      apply Int32.toInt_inj.1
      rw [Int32.toInt_ofNat_of_lt (by omega)]
      by_cases hs : 0 ≤ m.get src
      · have hnn := hsign.1 hs
        rw [if_pos hs]
        omega
      · have hneg := mt hsign.2 hs
        rw [if_neg hs, Int32.toInt_sub, Int32.toInt_zero, Int.bmod_eq_of_le (by omega) (by omega)]
        omega
    obtain ⟨m', c5, hm'⟩ := exec_digitsLoop (m.get src).toInt.natAbs _ c4.on hloop (by omega)
      (by rw [hx4, hx5]) hdw hxw htw hdx hdt hxt
    have hpos := Decimal.natDigits_pos (m.get src).toInt.natAbs
    have hk : Decimal.natDigits (m.get src).toInt.natAbs
        = 1 + (Decimal.natDigits (m.get src).toInt.natAbs - 1) := by omega
    refine ⟨m', c4.trans c5, ?_⟩
    rw [hm', get_put_self hdw, Decimal.wordDigits, if_neg hmin, hk, Int32.ofNat_add,
      Nat.add_sub_cancel_left]
    rfl

/-! ### Widening -/

theorem exec_widen {x width other t : Register} {loop stop : String} (k : Nat) (m : Machine)
    (h : m.On site a) (hc : site.Holds a (widenCode x width other t loop stop))
    (hk : ((m.get other).toInt - (m.get width).toInt).toNat = k) (hxw : x.Writable)
    (hww : width.Writable) (htw : t.Writable) (hxwidth : x ≠ width) (hxo : x ≠ other)
    (hxt : x ≠ t) (hwo : width ≠ other) (hwt : width ≠ t) (hot : other ≠ t) :
    ∃ m', Computes site [x, width, t] m (a + 24) m'
      ∧ m'.get x = m.get x * Int32.ofNat (10 ^ k)
      ∧ m'.get width = m.get width + Int32.ofNat k := by
  induction k generalizing m with
  | zero =>
    have hc' := hc
    simp only [widenCode, plain, List.map, List.cons_append, List.nil_append, Site.holds_plain,
      Site.holds_labeled, Item.size, Item.imm, Item.bnz, Item.j, Item.reg3, mark, Item.bare] at hc'
    obtain ⟨⟨hloop, h1⟩, h2, h3, h4, h5, ⟨hstop, h6⟩, -⟩ := hc'
    have hle : m.get other ≤ m.get width := by rw [Int32.le_iff_toInt_le]; omega
    have e1 := h.exec_reg3 (v := truth (m.get other ≤ m.get width)) h1 rfl rfl
    have c1 := Computes.put (w := [x, width, t]) h e1 (by simp)
    have e2 := c1.on.exec_bnz (b := a + 4 + 4 + 4 + 4 + 4) h2 hstop
    rw [get_put_self htw, if_neg (by simp [truth, hle])] at e2
    have c2 := c1.trans (Computes.goto (w := [x, width, t]) c1.on e2)
    have e3 := c2.on.exec_nop h6
    refine ⟨_, c2.trans (Computes.goto (w := [x, width, t]) c2.on e3), ?_, ?_⟩
    · rw [get_goto, get_goto, get_put_of_ne hxt]
      simp
    · rw [get_goto, get_goto, get_put_of_ne hwt]
      simp
  | succ k ih =>
    have hc' := hc
    simp only [widenCode, plain, List.map, List.cons_append, List.nil_append, Site.holds_plain,
      Site.holds_labeled, Item.size, Item.imm, Item.bnz, Item.j, Item.reg3, mark, Item.bare] at hc'
    obtain ⟨⟨hloop, h1⟩, h2, h3, h4, h5, ⟨hstop, h6⟩, -⟩ := hc'
    have hgt : ¬ m.get other ≤ m.get width := by rw [Int32.le_iff_toInt_le]; omega
    have e1 := h.exec_reg3 (v := truth (m.get other ≤ m.get width)) h1 rfl rfl
    have c1 := Computes.put (w := [x, width, t]) h e1 (by simp)
    have e2 := c1.on.exec_bnz (b := a + 4 + 4 + 4 + 4 + 4) h2 hstop
    rw [get_put_self htw, if_pos (by simp [truth, hgt])] at e2
    have c2 := c1.trans (Computes.goto (w := [x, width, t]) c1.on e2)
    have e3 := c2.on.exec_imm (v := m.get x * 10) h3 rfl (by
      rw [get_goto, get_put_of_ne hxt]
      rfl)
    have c3 := c2.trans (Computes.put (w := [x, width, t]) c2.on e3 (by simp))
    have e4 := c3.on.exec_imm (v := m.get width + 1) h4 rfl (by
      rw [get_put_of_ne hxwidth.symm, get_goto, get_put_of_ne hwt]
      rfl)
    have c4 := c3.trans (Computes.put (w := [x, width, t]) c3.on e4 (by simp))
    have e5 := c4.on.exec_j h5 hloop
    have c5 := c4.trans (Computes.goto (w := [x, width, t]) c4.on e5)
    have hlto := (m.get other).toInt_lt
    have hgew := (m.get width).le_toInt
    have hw1 : (m.get width + 1).toInt = (m.get width).toInt + 1 := by
      rw [Int32.toInt_add, Int32.toInt_one]
      exact Int.bmod_eq_of_le (by omega) (by omega)
    obtain ⟨m', c6, hx', hw'⟩ := ih _ c5.on (by
      rw [get_goto, get_goto, get_put_self hww, get_put_of_ne hwo.symm, get_put_of_ne hxo.symm,
        get_goto, get_put_of_ne hot, hw1]
      omega)
    refine ⟨m', c5.trans c6, ?_, ?_⟩
    · rw [hx', get_goto, get_put_of_ne hxwidth, get_put_self hxw, Nat.pow_succ, Nat.mul_comm,
        Int32.ofNat_mul, Int32.mul_assoc]
      rfl
    · rw [hw', get_goto, get_put_self hww, Nat.add_comm k 1, Int32.ofNat_add, Int32.add_assoc]
      rfl

/-! ### Trailing zeros -/

/-- A sum is divided by ten as long as it goes evenly, and the counter falls with every division. -/
theorem exec_trim {x count t : Register} {trim trimmed : String} (rounds : Nat) (s n : Int64)
    (m : Machine) (h : m.On site a) (hc : site.Holds a (trimCode x count t trim trimmed))
    (hx : m.get x = s.toInt32) (h0 : -2 ^ 31 ≤ s.toInt) (h1 : s.toInt < 2 ^ 31) (hne : s.toInt ≠ 0)
    (hr : s.toInt.natAbs < 10 ^ rounds) (hxw : x.Writable) (hcw : count.Writable)
    (htw : t.Writable) (hxc : x ≠ count) (hxt : x ≠ t) (hct : count ≠ t) :
    ∃ m', Computes site [x, count, t] m (a + 24) m'
      ∧ m'.get x = (Decimal.trimZeros rounds s n).1.toInt32
      ∧ m'.get count = m.get count - ((Decimal.trimZeros rounds s n).2 - n).toInt32 := by
  induction rounds generalizing m s n with
  | zero => omega
  | succ rounds ih =>
    have hc' := hc
    simp only [trimCode, plain, List.map, List.cons_append, List.nil_append, Site.holds_plain,
      Site.holds_labeled, Item.size, Item.imm, Item.bnz, Item.j, mark, Item.bare] at hc'
    obtain ⟨⟨hloop, e1'⟩, h2, h3, h4, h5, ⟨hstop, h6⟩, -⟩ := hc'
    have hten : (Int64.toInt32 10).toInt = 10 := by decide
    have hs32 := IsWord.toInt_toInt32 ⟨h0, h1⟩
    have e1 := h.exec_imm (v := s.toInt32 % Int64.toInt32 10) e1' rfl (by
      rw [hx]
      simp only [valueOf?]
      rw [if_neg (by decide)])
    have c1 := Computes.put (w := [x, count, t]) h e1 (by simp)
    have e2 := c1.on.exec_bnz (b := a + 4 + 4 + 4 + 4 + 4) h2 hstop
    rw [get_put_self htw] at e2
    have hzero : s.toInt32 % Int64.toInt32 10 = 0 ↔ s % 10 = 0 := by
      rw [← Int32.toInt_inj, ← Int64.toInt_inj, Int32.toInt_mod, Int64.toInt_mod, hs32, hten]
      rfl
    by_cases hz : s % 10 = 0
    · rw [if_pos (hzero.2 hz)] at e2
      have c2 := c1.trans (Computes.goto (w := [x, count, t]) c1.on e2)
      have hd : (s / 10).toInt = s.toInt.tdiv 10 :=
        Int64.toInt_div_of_ne_right s 10 (by decide)
      have hm : s.toInt.tmod 10 = 0 := by
        have hzi := congrArg Int64.toInt hz
        rwa [Int64.toInt_mod, Int64.toInt_zero] at hzi
      have hdm := Int.mul_tdiv_add_tmod s.toInt 10
      have hd32 : s.toInt32 / Int64.toInt32 10 = (s / 10).toInt32 := by
        apply Int32.toInt_inj.1
        rw [Int32.toInt_div_of_ne_right _ _ (by decide), hs32, hten,
          IsWord.toInt_toInt32 ⟨by omega, by omega⟩, hd]
      have e3 := c2.on.exec_imm (v := (s / 10).toInt32) h3 rfl (by
        rw [get_goto, get_put_of_ne hxt, hx, ← hd32]
        simp only [valueOf?]
        rw [if_neg (by decide)])
      have c3 := c2.trans (Computes.put (w := [x, count, t]) c2.on e3 (by simp))
      have e4 := c3.on.exec_imm (v := m.get count - 1) h4 rfl (by
        rw [get_put_of_ne hxc.symm, get_goto, get_put_of_ne hct]
        rfl)
      have c4 := c3.trans (Computes.put (w := [x, count, t]) c3.on e4 (by simp))
      have e5 := c4.on.exec_j h5 hloop
      have c5 := c4.trans (Computes.goto (w := [x, count, t]) c4.on e5)
      have ht : Decimal.trimZeros (rounds + 1) s n = Decimal.trimZeros rounds (s / 10) (n + 1) := by
        simp [Decimal.trimZeros, hz]
      have hpow : 10 ^ (rounds + 1) = 10 * 10 ^ rounds := by rw [Nat.pow_succ, Nat.mul_comm]
      obtain ⟨m', c6, hx', hcount⟩ := ih (s / 10) (n + 1) _ c5.on (by
          rw [get_goto, get_put_of_ne hxc, get_put_self hxw]) (by omega) (by omega) (by omega)
        (by omega)
      refine ⟨m', c5.trans c6, by rw [ht]; exact hx', ?_⟩
      rw [hcount, get_goto, get_put_self hcw, ht]
      have hstep : ((Decimal.trimZeros rounds (s / 10) (n + 1)).2 - n).toInt32
          = 1 + ((Decimal.trimZeros rounds (s / 10) (n + 1)).2 - (n + 1)).toInt32 := by
        rw [show (1 : Int32) = Int64.toInt32 1 from rfl, ← Int64.toInt32_add]
        congr 1
        grind
      rw [hstep]
      grind
    · rw [if_neg (fun he => hz (hzero.1 he))] at e2
      have c2 := c1.trans (Computes.goto (w := [x, count, t]) c1.on e2)
      have e3 := c2.on.exec_nop h6
      have ht : Decimal.trimZeros (rounds + 1) s n = (s, n) := by
        simp [Decimal.trimZeros, hz]
      refine ⟨_, c2.trans (Computes.goto (w := [x, count, t]) c2.on e3), ?_, ?_⟩
      · rw [get_goto, get_goto, get_put_of_ne hxt, hx, ht]
      · rw [get_goto, get_goto, get_put_of_ne hct, ht]
        simp

end Float

end MoonBackend
