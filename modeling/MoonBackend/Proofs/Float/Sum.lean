import MoonBackend.Proofs.Emit.Registers
import MoonBackend.Proofs.Float.Loops

/-!
# The emitted float sum

What emission writes for the sum of two floats, as plain code over its labels, and what that code
computes: it brings the operands in order, aligns them, adds them and stores what the reference
answers, and changes nothing else in memory.
-/

namespace MoonBackend

open Machine Code

namespace Emit

structure SumLabels where
  align : String
  nonZero : String
  done : String
  bigAbs : String
  bigLoop : String
  bigStop : String
  smallAbs : String
  smallLoop : String
  smallStop : String
  widenBig : String
  bigWide : String
  widenSmall : String
  smallWide : String
  trim : String
  trimmed : String
  sumAbs : String
  sumLoop : String
  sumStop : String

def orderCode (r : FloatRegisters) (align : String) (zero : Register) : Code :=
  plain [.reg3 .cgt r.scratch r.smallExponent r.bigExponent, .bz r.scratch align]
    ++ swap r.bigMantissa r.smallMantissa r.scratch zero
    ++ swap r.bigExponent r.smallExponent r.scratch zero
    ++ [mark align]

def alignCode (r : FloatRegisters) (l : SumLabels) (zero : Register) : Code :=
  digitsCode r.bigWidth r.bigMantissa r.absolute r.scratch zero l.bigAbs l.bigLoop l.bigStop
    ++ digitsCode r.smallWidth r.smallMantissa r.absolute r.scratch zero l.smallAbs l.smallLoop
      l.smallStop
    ++ plain [.reg3 .sub r.scratch r.bigExponent r.smallExponent,
      .reg3 .add r.smallWidth r.smallWidth r.scratch]
    ++ widenCode r.bigMantissa r.bigWidth r.smallWidth r.scratch l.widenBig l.bigWide
    ++ widenCode r.smallMantissa r.smallWidth r.bigWidth r.scratch l.widenSmall l.smallWide

def addCode (r : FloatRegisters) : Code :=
  plain
    [.imm .muli r.bigMantissa r.bigMantissa Decimal.headroom,
      .imm .muli r.smallMantissa r.smallMantissa Decimal.headroom,
      .reg3 .add r.bigMantissa r.bigMantissa r.smallMantissa]

def zeroCode (r : FloatRegisters) (done : String) (dst word : Int64) (sp zero : Register) : Code :=
  plain
    [.lw r.scratch (dst - word) sp, .reg3 .sub r.scratch zero r.scratch, .sw dst sp zero,
      .sw (dst - word) sp r.scratch, .j done]

def storeCode (r : FloatRegisters) (l : SumLabels) (dst word : Int64) (sp zero : Register) :
    Code :=
  [.labeled l.nonZero (.imm .addi r.smallWidth zero 2)]
    ++ trimCode r.bigMantissa r.smallWidth r.scratch l.trim l.trimmed
    ++ digitsCode r.smallMantissa r.bigMantissa r.absolute r.scratch zero l.sumAbs l.sumLoop
      l.sumStop
    ++ plain
      [.reg3 .add r.scratch r.bigExponent r.smallMantissa,
        .reg3 .sub r.scratch r.scratch r.bigWidth,
        .reg3 .sub r.scratch r.scratch r.smallWidth,
        .sw dst sp r.bigMantissa, .sw (dst - word) sp r.scratch]
    ++ [mark l.done]

def sumCode (r : FloatRegisters) (l : SumLabels) (dst word : Int64) (sp zero : Register) : Code :=
  orderCode r l.align zero ++ alignCode r l zero ++ addCode r
    ++ plain [.bnz r.bigMantissa l.nonZero]
    ++ zeroCode r l.done dst word sp zero
    ++ storeCode r l dst word sp zero

@[simp]
theorem size_orderCode (r : FloatRegisters) (align : String) (zero : Register) :
    Code.size (orderCode r align zero) = 36 := rfl

@[simp]
theorem size_alignCode (r : FloatRegisters) (l : SumLabels) (zero : Register) :
    Code.size (alignCode r l zero) = 144 := by
  simp only [alignCode, Code.size_append, size_digitsCode, size_widenCode]
  rfl

@[simp] theorem size_addCode (r : FloatRegisters) : Code.size (addCode r) = 12 := rfl

@[simp]
theorem size_zeroCode (r : FloatRegisters) (done : String) (dst word : Int64)
    (sp zero : Register) : Code.size (zeroCode r done dst word sp zero) = 20 := rfl

@[simp]
theorem size_storeCode (r : FloatRegisters) (l : SumLabels) (dst word : Int64)
    (sp zero : Register) : Code.size (storeCode r l dst word sp zero) = 96 := by
  simp only [storeCode, Code.size_append, size_digitsCode, size_trimCode]
  rfl

@[simp]
theorem size_sumCode (r : FloatRegisters) (l : SumLabels) (dst word : Int64) (sp zero : Register) :
    Code.size (sumCode r l dst word sp zero) = 312 := by
  simp only [sumCode, Code.size_append, size_orderCode, size_alignCode, size_addCode,
    size_zeroCode, size_storeCode]
  rfl

theorem eval_countDigits (dst src a t zero : Register) (c : Context) (s : Counts) :
    ∃ abs loop stop, eval (countDigits dst src a t zero) c s =
      (.ok (digitsCode dst src a t zero abs loop stop), { s with labels := s.labels + 3 }) :=
  ⟨_, _, _, rfl⟩

theorem eval_widen (m width other t : Register) (c : Context) (s : Counts) :
    ∃ loop stop, eval (widen m width other t) c s =
      (.ok (widenCode m width other t loop stop), { s with labels := s.labels + 2 }) :=
  ⟨_, _, rfl⟩

theorem eval_floatSum (r : FloatRegisters) (align nonZero done : String) (dst word : Int64)
    (sp zero : Register) (c : Context) (s : Counts) :
    ∃ (l : SumLabels) (s' : Counts),
      eval (floatSum r align nonZero done dst word sp zero) c s =
        (.ok (sumCode r l dst word sp zero), s') ∧ s'.pool = s.pool := by
  obtain ⟨a1, b1, c1, h1⟩ :=
    eval_countDigits r.bigWidth r.bigMantissa r.absolute r.scratch zero c s
  obtain ⟨a2, b2, c2, h2⟩ := eval_countDigits r.smallWidth r.smallMantissa r.absolute r.scratch zero
    c { s with labels := s.labels + 3 }
  obtain ⟨a3, b3, h3⟩ := eval_widen r.bigMantissa r.bigWidth r.smallWidth r.scratch
    c { s with labels := s.labels + 6 }
  obtain ⟨a4, b4, h4⟩ := eval_widen r.smallMantissa r.smallWidth r.bigWidth r.scratch
    c { s with labels := s.labels + 8 }
  obtain ⟨trim, h5⟩ : ∃ trim, eval (freshLabel "ftrim") c { s with labels := s.labels + 10 }
      = (.ok trim, { s with labels := s.labels + 11 }) := ⟨_, rfl⟩
  obtain ⟨trimmed, h6⟩ : ∃ trimmed, eval (freshLabel "ftrimmed") c
      { s with labels := s.labels + 11 } = (.ok trimmed, { s with labels := s.labels + 12 }) :=
    ⟨_, rfl⟩
  obtain ⟨a7, b7, c7, h7⟩ := eval_countDigits r.smallMantissa r.bigMantissa r.absolute r.scratch
    zero c { s with labels := s.labels + 12 }
  refine ⟨⟨align, nonZero, done, a1, b1, c1, a2, b2, c2, a3, b3, a4, b4, trim, trimmed, a7, b7,
    c7⟩, { s with labels := s.labels + 15 }, ?_, rfl⟩
  unfold floatSum
  rw [eval_bind_ok h1, eval_bind_ok h2, eval_bind_ok h3, eval_bind_ok h4, eval_bind_ok h5,
    eval_bind_ok h6, eval_bind_ok h7, eval_pure]
  simp only [sumCode, orderCode, alignCode, addCode, zeroCode, storeCode, trimCode, plain, List.map,
    List.append_assoc, List.cons_append, List.nil_append]

inductive FloatRole where
  | bigMantissa
  | bigExponent
  | smallMantissa
  | smallExponent
  | bigWidth
  | smallWidth
  | absolute
  | scratch
  deriving DecidableEq

def FloatRole.all : List FloatRole :=
  [.bigMantissa, .bigExponent, .smallMantissa, .smallExponent, .bigWidth, .smallWidth, .absolute,
    .scratch]

namespace FloatRegisters

def reg (r : FloatRegisters) : FloatRole → Register
  | .bigMantissa => r.bigMantissa
  | .bigExponent => r.bigExponent
  | .smallMantissa => r.smallMantissa
  | .smallExponent => r.smallExponent
  | .bigWidth => r.bigWidth
  | .smallWidth => r.smallWidth
  | .absolute => r.absolute
  | .scratch => r.scratch

/-- The registers are different, can be written, and none of them is the zero register. -/
structure Apart (r : FloatRegisters) (zero : Register) : Prop where
  writable : ∀ i, (r.reg i).Writable
  ne : ∀ i j, i ≠ j → r.reg i ≠ r.reg j
  ne_zero : ∀ i, zero ≠ r.reg i

/-- A piece of code that changes the registers of some roles leaves those of the others. -/
theorem Apart.keep {r : FloatRegisters} {zero : Register} {site : Site} {roles : List FloatRole}
    {m m' : Machine} {b : Nat} (ha : r.Apart zero) (c : Computes site (roles.map r.reg) m b m')
    (i : FloatRole) (hi : i ∉ roles) : m'.get (r.reg i) = m.get (r.reg i) := by
  refine c.get _ ?_
  intro hm
  obtain ⟨j, hj, he⟩ := List.mem_map.1 hm
  exact ha.ne i j (fun hij => hi (hij ▸ hj)) he.symm

theorem keep_of_ne {r : FloatRegisters} {q : Register} {site : Site} {roles : List FloatRole}
    {m m' : Machine} {b : Nat} (hq : ∀ i, q ≠ r.reg i)
    (c : Computes site (roles.map r.reg) m b m') : m'.get q = m.get q := by
  refine c.get _ ?_
  intro hm
  obtain ⟨j, -, he⟩ := List.mem_map.1 hm
  exact hq j he.symm

theorem Apart.keep_zero {r : FloatRegisters} {zero : Register} {site : Site}
    {roles : List FloatRole} {m m' : Machine} {b : Nat} (ha : r.Apart zero)
    (c : Computes site (roles.map r.reg) m b m') : m'.get zero = m.get zero :=
  keep_of_ne ha.ne_zero c

end FloatRegisters

end Emit

namespace Float

open Emit FloatRegisters

variable {site : Site} {m : Machine} {a : Nat} {r : FloatRegisters} {zero : Register}
  {l : SumLabels} {x y : Decimal}

/-! ### Order -/

structure Holding (m : Machine) (r : FloatRegisters) (big small : Decimal) : Prop where
  bigMantissa : m.get r.bigMantissa = big.mantissa.toInt32
  bigExponent : m.get r.bigExponent = big.exponent.toInt32
  smallMantissa : m.get r.smallMantissa = small.mantissa.toInt32
  smallExponent : m.get r.smallExponent = small.exponent.toInt32

theorem exec_order (h : m.On site a) (hc : site.Holds a (orderCode r l.align zero))
    (h0 : m.get zero = 0) (ha : r.Apart zero) (hx : IsWord x.exponent) (hy : IsWord y.exponent)
    (hh : Holding m r y x) :
    ∃ m', Computes site
        ([.bigMantissa, .smallMantissa, .bigExponent, .smallExponent, .scratch].map r.reg)
        m (a + 36) m'
      ∧ Holding m' r (x.bigger y) (x.smaller y) := by
  have hc' := hc
  simp only [orderCode, plain, List.map, mark, List.cons_append, List.nil_append, List.append_assoc,
    Site.holds_plain, Site.holds_append, Site.holds_labeled, Item.size, Item.reg3, Item.bz,
    Item.bare] at hc'
  obtain ⟨h1, h2, h3, h4, ⟨halign, h5⟩, -⟩ := hc'
  have hs : r.scratch.Writable := ha.writable .scratch
  have hlt : y.exponent.toInt32 < x.exponent.toInt32 ↔ y.exponent < x.exponent := by
    rw [Int32.lt_iff_toInt_lt, Int64.lt_iff_toInt_lt, hx.toInt_toInt32, hy.toInt_toInt32]
  have e1 := h.exec_reg3 (v := truth (y.exponent < x.exponent)) h1 rfl (by
    rw [hh.smallExponent, hh.bigExponent]
    simp only [valueOf?, hlt])
  have c1 : Computes site ([.scratch].map r.reg) m _ _ := Computes.put h e1 (by simp [reg])
  have e2 := c1.on.exec_bz h2 halign
  rw [get_put_self hs] at e2
  by_cases hlt' : y.exponent < x.exponent
  · rw [if_neg (by simp [truth, hlt'])] at e2
    have c2 := c1.trans (Computes.goto c1.on e2)
    obtain ⟨m₃, c3, hb3, hs3⟩ := exec_swap c2.on h3 ((ha.keep_zero c2).trans h0)
      (ha.writable .bigMantissa) (ha.writable .smallMantissa) hs
      (ha.ne .bigMantissa .smallMantissa (by decide)) (ha.ne .bigMantissa .scratch (by decide))
      (ha.ne .smallMantissa .scratch (by decide)) (ha.ne_zero .bigMantissa) (ha.ne_zero .scratch)
    have c3' : Computes site ([.bigMantissa, .smallMantissa, .scratch].map r.reg) _ _ m₃ := c3
    obtain ⟨m₄, c4, hb4, hs4⟩ := exec_swap c3.on h4
      ((ha.keep_zero c3').trans ((ha.keep_zero c2).trans h0))
      (ha.writable .bigExponent) (ha.writable .smallExponent) hs
      (ha.ne .bigExponent .smallExponent (by decide)) (ha.ne .bigExponent .scratch (by decide))
      (ha.ne .smallExponent .scratch (by decide)) (ha.ne_zero .bigExponent) (ha.ne_zero .scratch)
    have c4' : Computes site ([.bigExponent, .smallExponent, .scratch].map r.reg) _ _ m₄ := c4
    have c5 : Computes site ([.scratch].map r.reg) _ _ _ :=
      Computes.goto c4.on (c4.on.exec_nop h5)
    refine ⟨_, (c2.mono (by simp [reg])).trans ((c3.mono (by simp [reg])).trans
      ((c4.mono (by simp [reg])).trans (c5.mono (by simp [reg])))), ?_⟩
    rw [Decimal.bigger, Decimal.smaller, if_pos hlt', if_pos hlt']
    constructor
    · exact (ha.keep c4' .bigMantissa (by decide)).trans
        (hb3.trans ((ha.keep c2 .smallMantissa (by decide)).trans hh.smallMantissa))
    · exact hb4.trans ((ha.keep c3' .smallExponent (by decide)).trans
        ((ha.keep c2 .smallExponent (by decide)).trans hh.smallExponent))
    · exact (ha.keep c4' .smallMantissa (by decide)).trans
        (hs3.trans ((ha.keep c2 .bigMantissa (by decide)).trans hh.bigMantissa))
    · exact hs4.trans ((ha.keep c3' .bigExponent (by decide)).trans
        ((ha.keep c2 .bigExponent (by decide)).trans hh.bigExponent))
  · rw [if_pos (by simp [truth, hlt'])] at e2
    have c2 := c1.trans (Computes.goto c1.on e2)
    have e5 := c2.on.exec_nop h5
    have c5 := c2.trans (Computes.goto c2.on e5)
    refine ⟨_, c5.mono (by simp [reg]), ?_⟩
    rw [Decimal.bigger, Decimal.smaller, if_neg hlt', if_neg hlt']
    exact ⟨(ha.keep c5 .bigMantissa (by decide)).trans hh.bigMantissa,
      (ha.keep c5 .bigExponent (by decide)).trans hh.bigExponent,
      (ha.keep c5 .smallMantissa (by decide)).trans hh.smallMantissa,
      (ha.keep c5 .smallExponent (by decide)).trans hh.smallExponent⟩

/-! ### Alignment -/

/-- The registers after alignment: both mantissas at the common width, and that width. -/
structure Aligned (m : Machine) (r : FloatRegisters) (x y : Decimal) : Prop where
  bigMantissa : m.get r.bigMantissa = (x.bigAligned y).toInt32
  smallMantissa : m.get r.smallMantissa = (x.smallAligned y).toInt32
  bigWidth : m.get r.bigWidth = (x.width y).toInt32

theorem exec_widths {stale : Int64} {b : Nat} (h : m.On site a)
    (h1 : site.Holds a (digitsCode r.bigWidth r.bigMantissa r.absolute r.scratch zero l.bigAbs
      l.bigLoop l.bigStop))
    (h2 : site.Holds (a + 44) (digitsCode r.smallWidth r.smallMantissa r.absolute r.scratch zero
      l.smallAbs l.smallLoop l.smallStop))
    (h3 : site.HoldsItem (a + 88) (.reg3 .sub r.scratch r.bigExponent r.smallExponent))
    (h4 : site.HoldsItem (a + 92) (.reg3 .add r.smallWidth r.smallWidth r.scratch))
    (hb : b = a + 96) (h0 : m.get zero = 0) (ha : r.Apart zero) (hx : x.Narrow) (hy : y.Narrow)
    (hf : x.Fits y stale) (hh : Holding m r (x.bigger y) (x.smaller y)) :
    ∃ m', Computes site ([.bigWidth, .smallWidth, .absolute, .scratch].map r.reg) m b m'
      ∧ m'.get r.bigWidth = Int32.ofNat (Decimal.wordDigits (x.bigger y).mantissa.toInt32)
      ∧ m'.get r.smallWidth = (x.smallWidth y).toInt32 := by
  subst hb
  have hs : r.scratch.Writable := ha.writable .scratch
  have hsw : r.smallWidth.Writable := ha.writable .smallWidth
  have nws : r.smallWidth ≠ r.scratch := ha.ne .smallWidth .scratch (by decide)
  have nbs : r.bigWidth ≠ r.scratch := ha.ne .bigWidth .scratch (by decide)
  have nbw : r.bigWidth ≠ r.smallWidth := ha.ne .bigWidth .smallWidth (by decide)
  obtain ⟨m₁, c1, hw1⟩ := exec_digits h h1 h0 (ha.writable .bigWidth) (ha.writable .absolute) hs
    (ha.ne .bigWidth .absolute (by decide)) (ha.ne .bigWidth .scratch (by decide))
    (ha.ne .absolute .scratch (by decide)) (ha.ne_zero .bigWidth) (ha.ne_zero .absolute)
    (ha.ne_zero .scratch)
  have k1 : Computes site ([.bigWidth, .absolute, .scratch].map r.reg) m (a + 44) m₁ := c1
  obtain ⟨m₂, c2, hw2⟩ := exec_digits c1.on h2 ((ha.keep_zero k1).trans h0)
    hsw (ha.writable .absolute) hs
    (ha.ne .smallWidth .absolute (by decide)) (ha.ne .smallWidth .scratch (by decide))
    (ha.ne .absolute .scratch (by decide)) (ha.ne_zero .smallWidth) (ha.ne_zero .absolute)
    (ha.ne_zero .scratch)
  have k2 : Computes site ([.smallWidth, .absolute, .scratch].map r.reg) m₁ (a + 44 + 44) m₂ := c2
  have k12 : Computes site ([.bigWidth, .smallWidth, .absolute, .scratch].map r.reg) m
      (a + 44 + 44) m₂ := (k1.mono (by simp [reg])).trans (k2.mono (by simp [reg]))
  have hsm1 : m₁.get r.smallMantissa = m.get r.smallMantissa :=
    ha.keep k1 .smallMantissa (by decide)
  have hbw2 : m₂.get r.bigWidth = m₁.get r.bigWidth := ha.keep k2 .bigWidth (by decide)
  have hbe2 : m₂.get r.bigExponent = m.get r.bigExponent := ha.keep k12 .bigExponent (by decide)
  have hse2 : m₂.get r.smallExponent = m.get r.smallExponent :=
    ha.keep k12 .smallExponent (by decide)
  have e3 := c2.on.exec_reg3
    (v := (x.bigger y).exponent.toInt32 - (x.smaller y).exponent.toInt32) h3 rfl (by
      rw [hbe2, hse2, hh.bigExponent, hh.smallExponent]
      rfl)
  have k3 := Computes.put (w := [.bigWidth, .smallWidth, .absolute, .scratch].map r.reg) c2.on e3
    (by simp [reg])
  have e4 := k3.on.exec_reg3 (v := (x.smallWidth y).toInt32) h4 rfl (by
    rw [Decimal.toInt32_smallWidth hf hx hy, get_put_self hs, get_put_of_ne nws, hw2, hsm1, hh.smallMantissa]
    rfl)
  have k4 := Computes.put (w := [.bigWidth, .smallWidth, .absolute, .scratch].map r.reg) k3.on e4
    (by simp [reg])
  refine ⟨_, k12.trans (k3.trans k4), ?_, get_put_self hsw⟩
  rw [get_put_of_ne nbw, get_put_of_ne nbs, hbw2, hw1, hh.bigMantissa]

theorem exec_align {stale : Int64} (h : m.On site a) (hc : site.Holds a (alignCode r l zero))
    (h0 : m.get zero = 0) (ha : r.Apart zero) (hx : x.Narrow) (hy : y.Narrow)
    (hf : x.Fits y stale) (hh : Holding m r (x.bigger y) (x.smaller y)) :
    ∃ m', Computes site
        ([.bigMantissa, .smallMantissa, .bigWidth, .smallWidth, .absolute, .scratch].map r.reg)
        m (a + 144) m'
      ∧ Aligned m' r x y := by
  simp only [alignCode, Code.plain, List.map_cons, List.map_nil, List.cons_append, List.nil_append,
    List.append_assoc, Site.holds_plain, Site.holds_append, size_digitsCode, size_widenCode,
    Item.size_reg3, Nat.add_assoc, Nat.reduceAdd] at hc
  obtain ⟨h1, h2, h3, h4, h5, h6⟩ := hc
  have hs : r.scratch.Writable := ha.writable .scratch
  obtain ⟨m₁, k1, hbw1, hsw1⟩ := exec_widths h h1 h2 h3 h4 rfl h0 ha hx hy hf hh
  have hbm1 : m₁.get r.bigMantissa = m.get r.bigMantissa := ha.keep k1 .bigMantissa (by decide)
  have hsm1 : m₁.get r.smallMantissa = m.get r.smallMantissa :=
    ha.keep k1 .smallMantissa (by decide)
  rw [hh.bigMantissa] at hbm1
  rw [hh.smallMantissa] at hsm1
  obtain ⟨hba, hwidth⟩ := Decimal.toInt32_bigAligned hf hx hy
  have hn := Decimal.wordDigits_le (x.bigger y).mantissa.toInt32
  obtain ⟨w0, w1⟩ := Decimal.isWord_width hf
  obtain ⟨m₂, c2, hbm2, hbw2⟩ := exec_widen _ m₁ k1.on h5 (by
      rw [hbw1, hsw1, hf.smallWidth.toInt_toInt32, Int32.toInt_ofNat_of_lt (by omega)])
    (ha.writable .bigMantissa) (ha.writable .bigWidth) hs
    (ha.ne .bigMantissa .bigWidth (by decide)) (ha.ne .bigMantissa .smallWidth (by decide))
    (ha.ne .bigMantissa .scratch (by decide)) (ha.ne .bigWidth .smallWidth (by decide))
    (ha.ne .bigWidth .scratch (by decide)) (ha.ne .smallWidth .scratch (by decide))
  have k2 : Computes site ([.bigMantissa, .bigWidth, .scratch].map r.reg) m₁ _ m₂ := c2
  rw [hbm1, hba] at hbm2
  have hbw2' : m₂.get r.bigWidth = (x.width y).toInt32 := by
    rw [hbw2, hbw1, ← Int32.ofNat_add]
    apply Int32.toInt_inj.1
    rw [Int32.toInt_ofNat_of_lt (by omega), (Decimal.isWord_width hf).toInt_toInt32, ← hwidth]
    rfl
  have hsw2 : m₂.get r.smallWidth = m₁.get r.smallWidth := ha.keep k2 .smallWidth (by decide)
  have hsm2 : m₂.get r.smallMantissa = m₁.get r.smallMantissa :=
    ha.keep k2 .smallMantissa (by decide)
  obtain ⟨m₃, c3, hsm3, -⟩ := exec_widen _ m₂ c2.on h6 (by
      rw [hbw2', hsw2, hsw1, hf.smallWidth.toInt_toInt32,
        (Decimal.isWord_width hf).toInt_toInt32])
    (ha.writable .smallMantissa) (ha.writable .smallWidth) hs
    (ha.ne .smallMantissa .smallWidth (by decide)) (ha.ne .smallMantissa .bigWidth (by decide))
    (ha.ne .smallMantissa .scratch (by decide)) (ha.ne .smallWidth .bigWidth (by decide))
    (ha.ne .smallWidth .scratch (by decide)) (ha.ne .bigWidth .scratch (by decide))
  have k3 : Computes site ([.smallMantissa, .smallWidth, .scratch].map r.reg) m₂ _ m₃ := c3
  refine ⟨m₃, (k1.mono (by simp [reg])).trans ((k2.mono (by simp [reg])).trans
    (k3.mono (by simp [reg]))), ?_⟩
  constructor
  · exact (ha.keep k3 .bigMantissa (by decide)).trans hbm2
  · rw [hsm3, hsm2, hsm1, Decimal.smallAligned, Decimal.toInt32_widen]
  · exact (ha.keep k3 .bigWidth (by decide)).trans hbw2'

theorem exec_add (h : m.On site a) (hc : site.Holds a (addCode r)) (ha : r.Apart zero)
    (hh : Aligned m r x y) :
    ∃ m', Computes site ([.bigMantissa, .smallMantissa].map r.reg) m (a + 12) m'
      ∧ m'.get r.bigMantissa = (x.scaledSum y).toInt32 := by
  simp only [addCode, plain, List.map_cons, List.map_nil, Site.holds_plain] at hc
  obtain ⟨h1, h2, h3, -⟩ := hc
  have hbw : r.bigMantissa.Writable := ha.writable .bigMantissa
  have hsw : r.smallMantissa.Writable := ha.writable .smallMantissa
  have nbs : r.bigMantissa ≠ r.smallMantissa := ha.ne .bigMantissa .smallMantissa (by decide)
  have e1 := h.exec_imm (v := (x.bigAligned y * Decimal.headroom).toInt32) h1 rfl (by
    rw [hh.bigMantissa, Int64.toInt32_mul]
    rfl)
  have c1 := Computes.put (w := [.bigMantissa, .smallMantissa].map r.reg) h e1 (by simp [reg])
  have e2 := c1.on.exec_imm (v := (x.smallAligned y * Decimal.headroom).toInt32) h2 rfl (by
    rw [get_put_of_ne nbs.symm, hh.smallMantissa, Int64.toInt32_mul]
    rfl)
  have c2 := Computes.put (w := [.bigMantissa, .smallMantissa].map r.reg) c1.on e2 (by simp [reg])
  have e3 := c2.on.exec_reg3 (v := (x.scaledSum y).toInt32) h3 rfl (by
    rw [get_put_of_ne nbs, get_put_self hbw, get_put_self hsw, Decimal.scaledSum,
      Int64.toInt32_add]
    rfl)
  have c3 := Computes.put (w := [.bigMantissa, .smallMantissa].map r.reg) c2.on e3 (by simp [reg])
  exact ⟨_, c1.trans (c2.trans c3), get_put_self hbw⟩

/-! ### Storing the sum -/

section
variable {sp : Register} {dst : Int64} {s : Int}

theorem toInt_below {q : Register} (h : site.HoldsItem a (.sw dst sp q)) :
    (dst - 4).toInt = dst.toInt - 4 := by
  have hb := operand_fits h rfl
  rw [Int64.toInt_sub, show (4 : Int64).toInt = 4 from rfl]
  exact Int.bmod_eq_of_le (by omega) (by omega)

theorem exec_storePair {q t : Register} {w : List Register} (h : m.On site a)
    (h1 : site.HoldsItem a (.sw dst sp q)) (h2 : site.HoldsItem (a + 4) (.sw (dst - 4) sp t))
    (hsp : m.get sp = Int32.ofInt s) (hin : m.memory.Inside (s + dst.toInt - 4) 8) :
    ∃ m', Reaches site w m (a + 8)
      ((m.memory.setWord (s + dst.toInt) (m.get q)).setWord (s + dst.toInt - 4) (m.get t)) m' := by
  have e1 := h.exec_sw h1 hsp (hin.mono (by omega) (by omega))
  have r1 := Reaches.poke (w := w) h e1
  have hoff : s + (dst - 4).toInt = s + dst.toInt - 4 := by
    rw [toInt_below h1]
    omega
  have e2 := r1.on.exec_sw h2 hsp (by
    rw [hoff]
    exact (hin.of_size (Memory.size_setWord ..)).mono (by omega) (by omega))
  rw [hoff] at e2
  exact ⟨_, r1.trans (Reaches.poke r1.on e2)⟩

theorem exec_zero {b : Nat} {stale : Int64} (h : m.On site a)
    (hc : site.Holds a (zeroCode r l.done dst 4 sp zero))
    (hd : site.names.address? l.done = some (Int32.ofNat b)) (h0 : m.get zero = 0)
    (ha : r.Apart zero) (hsp : m.get sp = Int32.ofInt s) (hne : sp ≠ r.scratch)
    (hin : m.memory.Inside (s + dst.toInt - 4) 8)
    (hs : m.memory.word (s + dst.toInt - 4) = stale.toInt32) :
    ∃ m', Reaches site ([.scratch].map r.reg) m b
      ((m.memory.setWord (s + dst.toInt) 0).setWord (s + dst.toInt - 4) (-stale).toInt32) m' := by
  simp only [zeroCode, Code.plain, List.map_cons, List.map_nil, Site.holds_plain, Item.size_lw,
    Item.size_sw, Item.size_reg3, Nat.add_assoc, Nat.reduceAdd] at hc
  obtain ⟨h1, h2, h3, h4, h5, -⟩ := hc
  have ht : r.scratch.Writable := ha.writable .scratch
  have hz : zero ≠ r.scratch := ha.ne_zero .scratch
  have hoff : s + (dst - 4).toInt = s + dst.toInt - 4 := by
    rw [toInt_below h3]
    omega
  have e1 := h.exec_lw h1 hsp (by rw [hoff]; exact hin.mono (by omega) (by omega))
  rw [hoff, hs] at e1
  have c1 := Computes.put (w := [.scratch].map r.reg) h e1 (by simp [reg])
  have e2 := c1.on.exec_reg3 (v := (-stale).toInt32) h2 rfl (by
    rw [get_put_self ht, get_put_of_ne hz, h0, Int64.toInt32_neg]
    simp [valueOf?])
  have c2 := c1.trans (Computes.put (w := [.scratch].map r.reg) c1.on e2 (by simp [reg]))
  obtain ⟨m₃, r3⟩ := exec_storePair (w := [.scratch].map r.reg) c2.on h3 h4
    (by rw [get_put_of_ne hne, get_put_of_ne hne, hsp]) (hin.of_size (by rw [c2.memory]))
  rw [c2.memory, get_put_of_ne hz, get_put_of_ne hz, h0, get_put_self ht] at r3
  have e4 := r3.on.exec_j h5 hd
  exact ⟨_, (Reaches.after c2 r3).before (Computes.goto r3.on e4)⟩

theorem exec_exponent (h : m.On site a)
    (h1 : site.HoldsItem a (.reg3 .add r.scratch r.bigExponent r.smallMantissa))
    (h2 : site.HoldsItem (a + 4) (.reg3 .sub r.scratch r.scratch r.bigWidth))
    (h3 : site.HoldsItem (a + 8) (.reg3 .sub r.scratch r.scratch r.smallWidth))
    (ha : r.Apart zero) :
    ∃ m', Computes site ([.scratch].map r.reg) m (a + 12) m'
      ∧ m'.get r.bigMantissa = m.get r.bigMantissa
      ∧ m'.get r.scratch = m.get r.bigExponent + m.get r.smallMantissa - m.get r.bigWidth
        - m.get r.smallWidth := by
  have ht : r.scratch.Writable := ha.writable .scratch
  have hb : r.bigWidth ≠ r.scratch := ha.ne .bigWidth .scratch (by decide)
  have hs : r.smallWidth ≠ r.scratch := ha.ne .smallWidth .scratch (by decide)
  have e1 := h.exec_reg3 (v := m.get r.bigExponent + m.get r.smallMantissa) h1 rfl rfl
  have c1 := Computes.put (w := [.scratch].map r.reg) h e1 (by simp [reg])
  have e2 := c1.on.exec_reg3
    (v := m.get r.bigExponent + m.get r.smallMantissa - m.get r.bigWidth) h2 rfl (by
      rw [get_put_self ht, get_put_of_ne hb]
      rfl)
  have c2 := c1.trans (Computes.put (w := [.scratch].map r.reg) c1.on e2 (by simp [reg]))
  have e3 := c2.on.exec_reg3
    (v := m.get r.bigExponent + m.get r.smallMantissa - m.get r.bigWidth - m.get r.smallWidth) h3
    rfl (by
      rw [get_put_self ht, get_put_of_ne hs, get_put_of_ne hs]
      rfl)
  have c3 := c2.trans (Computes.put (w := [.scratch].map r.reg) c2.on e3 (by simp [reg]))
  exact ⟨_, c3, ha.keep c3 .bigMantissa (by decide), get_put_self ht⟩

theorem exec_store {stale : Int64} (h : m.On site a) (hc : site.Holds a (storeCode r l dst 4 sp zero))
    (h0 : m.get zero = 0) (ha : r.Apart zero) (hf : x.Fits y stale) (hne : x.scaledSum y ≠ 0)
    (hm : m.get r.bigMantissa = (x.scaledSum y).toInt32)
    (he : m.get r.bigExponent = (x.bigger y).exponent.toInt32)
    (hw : m.get r.bigWidth = (x.width y).toInt32)
    (hsp : m.get sp = Int32.ofInt s) (hspr : ∀ i, sp ≠ r.reg i)
    (hin : m.memory.Inside (s + dst.toInt - 4) 8) :
    ∃ m', Reaches site
      ([.bigMantissa, .smallMantissa, .smallWidth, .absolute, .scratch].map r.reg) m (a + 96)
      ((m.memory.setWord (s + dst.toInt) (x.combine y stale).mantissa.toInt32).setWord
        (s + dst.toInt - 4) (x.combine y stale).exponent.toInt32) m' := by
  simp only [storeCode, Code.plain, List.map_cons, List.map_nil, List.cons_append, List.nil_append,
    List.append_assoc, Site.holds_plain, Site.holds_labeled, Site.holds_append, size_digitsCode,
    size_trimCode, Item.size_sw, Item.size_reg3, Item.size_imm, Code.mark, Nat.add_assoc,
    Nat.reduceAdd] at hc
  obtain ⟨⟨-, h1⟩, h2, h3, h4, h5, h6, h7, h8, ⟨-, h9⟩, -⟩ := hc
  obtain ⟨s0, s1⟩ := hf.sum
  have hleast := Decimal.scaledSum_ne_least hf
  have hne' : (x.scaledSum y).toInt ≠ 0 := fun hz => hne (Int64.toInt_inj.1 hz)
  have e1 := h.exec_imm (v := 2) h1 rfl (by rw [h0]; rfl)
  have c1 := Computes.put (w := [.smallWidth].map r.reg) h e1 (by simp [reg])
  have hm1 : (m.put r.smallWidth 2 (a + 4)).get r.bigMantissa = m.get r.bigMantissa :=
    ha.keep c1 .bigMantissa (by decide)
  obtain ⟨m₂, c2, hm2, hc2⟩ := exec_trim 20 (x.scaledSum y) 0 _ c1.on h2 (hm1.trans hm) s0 s1
    hne' (by omega) (ha.writable .bigMantissa) (ha.writable .smallWidth) (ha.writable .scratch)
    (ha.ne .bigMantissa .smallWidth (by decide)) (ha.ne .bigMantissa .scratch (by decide))
    (ha.ne .smallWidth .scratch (by decide))
  have k2 : Computes site ([.bigMantissa, .smallWidth, .scratch].map r.reg) _ _ m₂ := c2
  rw [get_put_self (show r.smallWidth.Writable from ha.writable .smallWidth)] at hc2
  rw [← Decimal.trimmedSum] at hm2 hc2
  obtain ⟨m₃, c3, hd3⟩ := exec_digits c2.on h3 ((ha.keep_zero k2).trans ((ha.keep_zero c1).trans h0))
    (ha.writable .smallMantissa) (ha.writable .absolute) (ha.writable .scratch)
    (ha.ne .smallMantissa .absolute (by decide)) (ha.ne .smallMantissa .scratch (by decide))
    (ha.ne .absolute .scratch (by decide)) (ha.ne_zero .smallMantissa) (ha.ne_zero .absolute)
    (ha.ne_zero .scratch)
  have k3 : Computes site ([.smallMantissa, .absolute, .scratch].map r.reg) _ _ m₃ := c3
  have k13 : Computes site
      ([.bigMantissa, .smallMantissa, .smallWidth, .absolute, .scratch].map r.reg) m _ m₃ :=
    (c1.mono (by simp [reg])).trans ((k2.mono (by simp [reg])).trans (k3.mono (by simp [reg])))
  -- the trimmed sum is smaller than the sum, which is not the least word
  have hdigits : m₃.get r.smallMantissa = (Decimal.digits (x.trimmedSum y).1).toInt32 := by
    have hle : (x.trimmedSum y).1.toInt.natAbs ≤ _ := Decimal.natAbs_trimZeros 20 (x.scaledSum y) 0
    have hword : IsWord (x.trimmedSum y).1 := ⟨by omega, by omega⟩
    have hne2 : (x.trimmedSum y).1.toInt32.toInt ≠ -2 ^ 31 := by
      rw [hword.toInt_toInt32]
      omega
    rw [hd3, hm2, Decimal.toInt32_digits hword.1 (by omega) hne2]
  have hm3 : m₃.get r.bigMantissa = m₂.get r.bigMantissa := ha.keep k3 .bigMantissa (by decide)
  have hw3 : m₃.get r.smallWidth = m₂.get r.smallWidth := ha.keep k3 .smallWidth (by decide)
  have he3 : m₃.get r.bigExponent = (x.bigger y).exponent.toInt32 :=
    (ha.keep k13 .bigExponent (by decide)).trans he
  have hb3 : m₃.get r.bigWidth = (x.width y).toInt32 :=
    (ha.keep k13 .bigWidth (by decide)).trans hw
  obtain ⟨m₄, k4, hm4, ht4⟩ := exec_exponent k13.on h4 h5 h6 ha
  have k14 : Computes site
      ([.bigMantissa, .smallMantissa, .smallWidth, .absolute, .scratch].map r.reg) m _ m₄ :=
    k13.trans (k4.mono (by simp [reg]))
  have hcomb := Decimal.combine_eq x y stale
  rw [if_neg (by simpa using hne)] at hcomb
  have hexp : m₄.get r.scratch = (x.combine y stale).exponent.toInt32 := by
    rw [ht4, he3, hdigits, hb3, hw3, hc2, Int64.sub_zero, hcomb]
    simp only [Int64.toInt32_add, Int64.toInt32_sub, Int64.toInt32_ofNat]
  have hman : m₄.get r.bigMantissa = (x.combine y stale).mantissa.toInt32 := by
    rw [hm4, hm3, hm2, hcomb]
  obtain ⟨m₅, r5⟩ := exec_storePair
    (w := [.bigMantissa, .smallMantissa, .smallWidth, .absolute, .scratch].map r.reg) k4.on h7 h8
    ((keep_of_ne hspr k14).trans hsp) (hin.of_size (by rw [k14.memory]))
  rw [k14.memory, hman, hexp] at r5
  exact ⟨_, (Reaches.after k14 r5).before (Computes.goto r5.on (r5.on.exec_nop h9))⟩

/-- The sum of two loaded floats is stored in its slot as the reference computes it. -/
theorem exec_sum {stale : Int64} (h : m.On site a) (hc : site.Holds a (sumCode r l dst 4 sp zero))
    (h0 : m.get zero = 0) (ha : r.Apart zero) (hx : x.Narrow) (hy : y.Narrow)
    (hf : x.Fits y stale) (hh : Holding m r y x) (hsp : m.get sp = Int32.ofInt s)
    (hspr : ∀ i, sp ≠ r.reg i) (hin : m.memory.Inside (s + dst.toInt - 4) 8)
    (hs : m.memory.word (s + dst.toInt - 4) = stale.toInt32) :
    ∃ m', Reaches site (FloatRole.all.map r.reg) m (a + 312)
      ((m.memory.setWord (s + dst.toInt) (x.combine y stale).mantissa.toInt32).setWord
        (s + dst.toInt - 4) (x.combine y stale).exponent.toInt32) m' := by
  simp only [sumCode, Code.plain, List.map_cons, List.map_nil, List.cons_append, List.nil_append,
    List.append_assoc, Site.holds_append, Site.holds_plain, size_orderCode, size_alignCode,
    size_addCode, size_zeroCode, Item.size_bnz, Nat.add_assoc, Nat.reduceAdd] at hc
  obtain ⟨h1, h2, h3, h4, h5, h6⟩ := hc
  have hstore := h6
  simp only [storeCode, Code.plain, List.map_cons, List.map_nil, List.cons_append, List.nil_append,
    List.append_assoc, Site.holds_plain, Site.holds_labeled, Site.holds_append, size_digitsCode,
    size_trimCode, Item.size_sw, Item.size_reg3, Item.size_imm, Code.mark, Nat.add_assoc,
    Nat.reduceAdd] at hstore
  obtain ⟨⟨hnz, -⟩, -, -, -, -, -, -, -, ⟨hdone, hlast⟩, -⟩ := hstore
  obtain ⟨m₁, k1, hh1⟩ := exec_order h h1 h0 ha hx.exponent hy.exponent hh
  obtain ⟨m₂, k2, hh2⟩ := exec_align k1.on h2 ((ha.keep_zero k1).trans h0) ha hx hy hf hh1
  obtain ⟨m₃, k3, hsum⟩ := exec_add k2.on h3 ha hh2
  have hwidth : m₃.get r.bigWidth = (x.width y).toInt32 :=
    (ha.keep k3 .bigWidth (by decide)).trans hh2.bigWidth
  have hexp : m₃.get r.bigExponent = (x.bigger y).exponent.toInt32 :=
    (ha.keep k3 .bigExponent (by decide)).trans
      ((ha.keep k2 .bigExponent (by decide)).trans hh1.bigExponent)
  have k13 : Computes site (FloatRole.all.map r.reg) m _ m₃ :=
    (k1.mono (by simp [reg, FloatRole.all])).trans ((k2.mono (by simp [reg, FloatRole.all])).trans
      (k3.mono (by simp [reg, FloatRole.all])))
  have e4 := k3.on.exec_bnz h4 hnz
  rw [hsum] at e4
  have k14 := k13.trans (Computes.goto k3.on e4)
  have hsp4 : m₃.get sp = Int32.ofInt s := (keep_of_ne hspr k13).trans hsp
  have h04 : m₃.get zero = 0 := (ha.keep_zero k13).trans h0
  have hin4 : m₃.memory.Inside (s + dst.toInt - 4) 8 := hin.of_size (by rw [k13.memory])
  by_cases hz : x.scaledSum y = 0
  · have hif : (if (x.scaledSum y).toInt32 = 0 then a + 36 + 144 + 12 + 4 else a + 216)
        = a + 196 := if_pos (hf.sum.toInt32_eq_zero.2 hz)
    rw [hif] at k14
    obtain ⟨m₅, r5⟩ := exec_zero k14.on h5 hdone h04 ha hsp4 (hspr .scratch) hin4
      (by rw [memory_goto, k13.memory, hs])
    rw [memory_goto, k13.memory] at r5
    have r6 : Reaches site (FloatRole.all.map r.reg) _ _ _ m₅ :=
      r5.mono (by simp [reg, FloatRole.all])
    rw [Decimal.combine_eq, if_pos (by simpa using hz)]
    exact ⟨_, Reaches.after k14 (r6.before (Computes.goto r5.on (r5.on.exec_nop hlast)))⟩
  · have hif : (if (x.scaledSum y).toInt32 = 0 then a + 36 + 144 + 12 + 4 else a + 216)
        = a + 216 := if_neg (mt hf.sum.toInt32_eq_zero.1 hz)
    rw [hif] at k14
    obtain ⟨m₅, r5⟩ := exec_store k14.on h6 h04 ha hf hz hsum hexp hwidth hsp4 hspr hin4
    rw [memory_goto, k13.memory] at r5
    exact ⟨m₅, Reaches.after k14 (r5.mono (by simp [reg, FloatRole.all]))⟩

end

end Float

end MoonBackend
