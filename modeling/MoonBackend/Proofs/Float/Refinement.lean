import Mathlib.Data.List.GetD
import Mathlib.Data.List.Nodup
import MoonBackend.Proofs.Assembly.Image
import MoonBackend.Proofs.Float.Sum

/-!
# Float sums refine the reference

The code that is emitted for `+` and `-` on floats stores what `Decimal.add` and `Decimal.sub`
compute, as long as every intermediate of the reference is a 32-bit word.
-/

namespace MoonBackend

open Machine Code

namespace Emit

theorem eval_load_slot (r : Register) (off i : Int64) (c : Context) (s : Counts) :
    eval (load r (.slot off) i) c s =
      (.ok (plain [.lw r (off - i * c.config.sizes.word) ⟨c.config.registers.stackPointer⟩]), s) :=
  rfl

namespace FloatRole

def index : FloatRole → Nat
  | .bigMantissa => 0
  | .bigExponent => 1
  | .smallMantissa => 2
  | .smallExponent => 3
  | .bigWidth => 4
  | .smallWidth => 5
  | .absolute => 6
  | .scratch => 7

theorem index_lt (i : FloatRole) : i.index < 8 := by
  cases i <;> decide

theorem index_inj {i j : FloatRole} (h : i.index = j.index) : i = j := by
  cases i <;> cases j <;> first | rfl | exact absurd h (by decide)

end FloatRole

namespace FloatRegisters

def ofList (rs : List Register) : FloatRegisters :=
  let reg (i : Nat) : Register := rs.getD i Item.unused
  ⟨reg 0, reg 1, reg 2, reg 3, reg 4, reg 5, reg 6, reg 7⟩

theorem reg_ofList (rs : List Register) (i : FloatRole) :
    (ofList rs).reg i = rs.getD i.index Item.unused := by
  cases i <;> rfl

theorem reg_ofList_mem {rs : List Register} (h : rs.length = 8) (i : FloatRole) :
    (ofList rs).reg i ∈ rs := by
  have hi := i.index_lt
  rw [reg_ofList, List.getD_eq_getElem _ _ (by omega)]
  exact List.getElem_mem _

theorem apart_ofList {rs : List Register} {zero : Register} (h : rs.length = 8) (hd : rs.Nodup)
    (hw : ∀ r ∈ rs, r.Writable) (hz : zero ∉ rs) : (ofList rs).Apart zero := by
  constructor
  · intro i
    exact hw _ (reg_ofList_mem h i)
  · intro i j hij he
    have hi := i.index_lt
    have hj := j.index_lt
    rw [reg_ofList, reg_ofList, List.getD_eq_getElem _ _ (by omega),
      List.getD_eq_getElem _ _ (by omega)] at he
    exact hij (FloatRole.index_inj (hd.getElem_inj_iff.1 he))
  · intro i he
    exact hz (he ▸ reg_ofList_mem h i)

end FloatRegisters

/-- Loads the operands into the registers of a sum, the right one negated for a difference. -/
def loadCode (f : FloatRegisters) (op : BinaryOp) (left right : Int64) (sp zero : Register) : Code :=
  plain [.lw f.smallMantissa (left - 0 * 4) sp, .lw f.smallExponent (left - 1 * 4) sp,
      .lw f.bigMantissa (right - 0 * 4) sp, .lw f.bigExponent (right - 1 * 4) sp]
    ++ if op = .sub then plain [.reg3 .sub f.bigMantissa zero f.bigMantissa] else []

/-- What is emitted for a float sum: the operands are loaded into the first eight free registers
and summed, and the registers are given back. -/
theorem eval_floatAddSub {path : Path} {e : Expr} {op : BinaryOp} {left right dst : Int64}
    {c : Context} {s : Counts} (hr : c.config.registers = {}) (hw : c.config.sizes = {})
    (hp : s.pool.Sound) (hfree : 8 ≤ s.pool.free.length)
    (hdst : eval (temporary path e) c s = (.ok dst, s)) :
    ∃ (l : SumLabels) (s' : Counts),
      eval (floatAddSub path e op (.slot left) (.slot right)) c s =
        (.ok ((if c.config.emit.comments then [.comment ("float " ++ e.text)] else [])
          ++ (loadCode (.ofList (s.pool.free.take 8)) op left right ⟨14⟩ ⟨0⟩
            ++ sumCode (.ofList (s.pool.free.take 8)) l dst 4 ⟨14⟩ ⟨0⟩)), s')
      ∧ s'.pool = s.pool := by
  have hword : c.config.sizes.word = 4 := by rw [hw]
  have hsp : c.config.registers.stackPointer = 14 := by rw [hr]
  have hz : c.config.registers.zero = 0 := by rw [hr]
  obtain ⟨align, h1⟩ : ∃ align, eval (freshLabel "falign") c s
      = (.ok align, { s with labels := s.labels + 1 }) := ⟨_, rfl⟩
  obtain ⟨nonZero, h2⟩ : ∃ nonZero, eval (freshLabel "fnz") c { s with labels := s.labels + 1 }
      = (.ok nonZero, { s with labels := s.labels + 2 }) := ⟨_, rfl⟩
  obtain ⟨done, h3⟩ : ∃ done, eval (freshLabel "fdone") c { s with labels := s.labels + 2 }
      = (.ok done, { s with labels := s.labels + 3 }) := ⟨_, rfl⟩
  obtain ⟨l, s', hsum, hpool⟩ := eval_floatSum (.ofList (s.pool.free.take 8)) align nonZero done dst 4
    ⟨14⟩ ⟨0⟩ c { s with labels := s.labels + 3, pool := s.pool.taken 8 }
  refine ⟨l, { s' with pool := s.pool }, ?_, rfl⟩
  unfold floatAddSub
  rw [eval_bind_ok hdst, eval_bind_ok (eval_wordSize ..), eval_bind_ok (eval_stackPointer ..),
    eval_bind_ok (eval_zero ..), eval_bind_ok h1, eval_bind_ok h2, eval_bind_ok h3,
    eval_bind_ok (eval_comment ..), hword, hsp, hz]
  refine (eval_bind_ok (a := loadCode (.ofList (s.pool.free.take 8)) op left right ⟨14⟩ ⟨0⟩
    ++ sumCode (.ofList (s.pool.free.take 8)) l dst 4 ⟨14⟩ ⟨0⟩)
    (eval_withRegisters_of_sound (s := { s with labels := s.labels + 3 }) hp hfree ?_ hpool)).trans
    rfl
  rw [eval_bind_ok (eval_load_slot ..), eval_bind_ok (eval_load_slot ..),
    eval_bind_ok (eval_load_slot ..), eval_bind_ok (eval_load_slot ..), hword, hsp]
  refine (eval_bind_ok hsum).trans ?_
  rw [eval_pure]
  simp only [loadCode, plain, List.map_cons, List.map_nil, List.cons_append, List.nil_append]
  rfl

end Emit

/-- The float whose mantissa is the word at a position and whose exponent is the word below it. -/
def Memory.float (mem : Memory) (x : Int) : Decimal :=
  ⟨(mem.word x).toInt64, (mem.word (x - 4)).toInt64⟩

namespace Decimal

/-- The right operand as it is added: with its sign turned for a difference. -/
def signed (op : BinaryOp) (r : Decimal) : Decimal :=
  if op = .sub then ⟨-r.mantissa, r.exponent⟩ else r

def sumOf (op : BinaryOp) (l r : Decimal) (stale : Int64) : Decimal :=
  if op = .sub then sub l r stale else add l r stale

theorem sumOf_eq (op : BinaryOp) (l r : Decimal) (stale : Int64) :
    sumOf op l r stale = combine l (signed op r) stale := by
  unfold sumOf signed sub add
  split
  · rfl
  · rfl

theorem narrow_float (mem : Memory) (x : Int) : (mem.float x).Narrow := by
  have hm := isWord_toInt64 (mem.word x)
  exact ⟨hm.1, Int.le_of_lt hm.2, isWord_toInt64 _⟩

theorem Narrow.signed {r : Decimal} (op : BinaryOp) (hr : r.Narrow) (hw : IsWord r.mantissa) :
    (signed op r).Narrow := by
  unfold Decimal.signed
  split
  · obtain ⟨h0, h1⟩ := hw
    have hn : (-r.mantissa).toInt = -r.mantissa.toInt := by
      rw [Int64.toInt_neg]
      exact Int.bmod_eq_of_le (by omega) (by omega)
    exact ⟨by rw [hn]; omega, by rw [hn]; omega, hr.exponent⟩
  · exact hr

end Decimal

namespace Float

open Emit FloatRegisters

variable {site : Site} {m : Machine} {a : Nat} {f : FloatRegisters} {op : BinaryOp}
  {left right dst : Int64} {sp zero : Register} {s : Int}

theorem exec_loadWord {off : Int64} (i : FloatRole) (h : m.On site a)
    (hc : site.HoldsItem a (.lw (f.reg i) off sp)) (ha : f.Apart zero)
    (hsp : m.get sp = Int32.ofInt s) (hin : m.memory.Inside (s + off.toInt) 4) :
    ∃ m', Computes site ([i].map f.reg) m (a + 4) m'
      ∧ m'.get (f.reg i) = m.memory.word (s + off.toInt) :=
  ⟨_, Computes.put h (h.exec_lw hc hsp hin) (by simp), get_put_self (ha.writable i)⟩

theorem exec_load (h : m.On site a) (hc : site.Holds a (loadCode f op left right sp zero))
    (h0 : m.get zero = 0) (ha : f.Apart zero) (hsp : m.get sp = Int32.ofInt s)
    (hspr : ∀ i, sp ≠ f.reg i) (hl : m.memory.Inside (s + left.toInt - 4) 8)
    (hr : m.memory.Inside (s + right.toInt - 4) 8) :
    ∃ m', Computes site (FloatRole.all.map f.reg) m
        (a + Code.size (loadCode f op left right sp zero)) m'
      ∧ Holding m' f (Decimal.signed op (m.memory.float (s + right.toInt)))
        (m.memory.float (s + left.toInt)) := by
  have hfour : (1 : Int64) * 4 = 4 := rfl
  simp only [loadCode, Int64.zero_mul, Int64.sub_zero, hfour] at hc ⊢
  rw [Site.holds_append] at hc
  obtain ⟨hw, hsign⟩ := hc
  simp only [Code.plain, List.map_cons, List.map_nil, Site.holds_plain, Item.size_lw] at hw
  obtain ⟨h1, h2, h3, h4, -⟩ := hw
  have hbelow : ∀ {b : Nat} {off : Int64} {q : Register}, site.HoldsItem b (.lw q off sp) →
      s + (off - 4).toInt = s + off.toInt - 4 := by
    intro b off q hi
    have hb := operand_fits hi rfl
    rw [Int64.toInt_sub, show (4 : Int64).toInt = 4 from rfl,
      Int.bmod_eq_of_le (by omega) (by omega)]
    omega
  obtain ⟨m₁, k1, v1⟩ := exec_loadWord .smallMantissa h h1 ha hsp (hl.mono (by omega) (by omega))
  obtain ⟨m₂, k2, v2⟩ := exec_loadWord .smallExponent k1.on h2 ha
    ((keep_of_ne hspr k1).trans hsp) (by
      rw [k1.memory, hbelow h1]
      exact hl.mono (by omega) (by omega))
  have k12 : Computes site ([.smallMantissa, .smallExponent].map f.reg) m _ m₂ :=
    (k1.mono (by simp)).trans (k2.mono (by simp))
  obtain ⟨m₃, k3, v3⟩ := exec_loadWord .bigMantissa k2.on h3 ha
    ((keep_of_ne hspr k12).trans hsp) (by
      rw [k12.memory]
      exact hr.mono (by omega) (by omega))
  have k13 : Computes site ([.smallMantissa, .smallExponent, .bigMantissa].map f.reg) m _ m₃ :=
    (k12.mono (by simp)).trans (k3.mono (by simp))
  obtain ⟨m₄, k4, v4⟩ := exec_loadWord .bigExponent k3.on h4 ha
    ((keep_of_ne hspr k13).trans hsp) (by
      rw [k13.memory, hbelow h3]
      exact hr.mono (by omega) (by omega))
  have k24 : Computes site ([.smallExponent, .bigMantissa, .bigExponent].map f.reg) m₁ _ m₄ :=
    (k2.mono (by simp)).trans ((k3.mono (by simp)).trans (k4.mono (by simp)))
  have k34 : Computes site ([.bigMantissa, .bigExponent].map f.reg) m₂ _ m₄ :=
    (k3.mono (by simp)).trans (k4.mono (by simp))
  have k14 : Computes site (FloatRole.all.map f.reg) m _ m₄ :=
    (k13.mono (by simp [FloatRole.all])).trans (k4.mono (by simp [FloatRole.all]))
  have w1 : m₄.get f.smallMantissa = m.memory.word (s + left.toInt) :=
    (ha.keep k24 .smallMantissa (by decide)).trans v1
  have w2 : m₄.get f.smallExponent = m.memory.word (s + left.toInt - 4) := by
    rw [← hbelow h1, ← k1.memory]
    exact (ha.keep k34 .smallExponent (by decide)).trans v2
  have w3 : m₄.get f.bigMantissa = m.memory.word (s + right.toInt) := by
    rw [← k12.memory]
    exact (ha.keep k4 .bigMantissa (by decide)).trans v3
  have w4 : m₄.get f.bigExponent = m.memory.word (s + right.toInt - 4) := by
    rw [← hbelow h3, ← k13.memory]
    exact v4
  by_cases hop : op = .sub
  · simp only [hop, if_true, Code.plain, List.map_cons, List.map_nil, Site.holds_plain] at hsign ⊢
    have e5 := k14.on.exec_reg3 (v := 0 - m.memory.word (s + right.toInt)) hsign.1 rfl (by
      rw [(ha.keep_zero k14).trans h0, w3]
      rfl)
    have k5 : Computes site ([.bigMantissa].map f.reg) m₄ _ _ :=
      Computes.put k14.on e5 (by simp [reg])
    refine ⟨_, k14.trans (k5.mono (by simp [reg, FloatRole.all])), ?_⟩
    constructor
    · have hb : f.bigMantissa.Writable := ha.writable .bigMantissa
      rw [get_put_self hb]
      simp [Decimal.signed, Memory.float]
    · exact ((ha.keep k5 .bigExponent (by decide)).trans w4).trans
        (by simp [Decimal.signed, Memory.float])
    · exact ((ha.keep k5 .smallMantissa (by decide)).trans w1).trans (by simp [Memory.float])
    · exact ((ha.keep k5 .smallExponent (by decide)).trans w2).trans (by simp [Memory.float])
  · simp only [hop, if_false, List.append_nil]
    refine ⟨m₄, k14, ?_⟩
    constructor
    · simp [w3, Decimal.signed, Memory.float, hop]
    · simp [w4, Decimal.signed, Memory.float, hop]
    · simp [w1, Memory.float]
    · simp [w2, Memory.float]

/-- A machine that has put a float into a slot: it got to an address in finitely many steps, the
two words of the slot are those of the float, and every other byte of memory, the registers from 13
on, the input and the output are as before. -/
structure Stored (site : Site) (m : Machine) (b : Nat) (slot : Int) (v : Decimal) (m' : Machine) :
    Prop where
  steps : Steps m m'
  on : m'.On site b
  mantissa : (m'.memory.word slot).toInt = v.mantissa.toInt
  exponent : (m'.memory.word (slot - 4)).toInt = v.exponent.toInt
  size : m'.memory.size = m.memory.size
  byte : ∀ x, 0 ≤ x → x < slot - 4 ∨ slot + 4 ≤ x → m'.memory.byte x = m.memory.byte x
  get : ∀ r : Register, 13 ≤ r.number → m'.get r = m.get r
  input : m'.input = m.input
  output : m'.output = m.output

theorem isWord_combine {x y : Decimal} {stale : Int64} (hf : x.Fits y stale) :
    IsWord (x.combine y stale).mantissa := by
  obtain ⟨h0, h1⟩ := hf.sum
  rw [Decimal.combine_eq]
  split
  · exact ⟨by simp, by simp⟩
  · have hle : (x.trimmedSum y).1.toInt.natAbs ≤ _ :=
      Decimal.natAbs_trimZeros 20 (x.scaledSum y) 0
    have hne := Decimal.scaledSum_ne_least hf
    exact ⟨by simp only; omega, by simp only; omega⟩

theorem stored_of_reaches {m' : Machine} {w : List Register} {b : Nat} {slot : Int} {v : Decimal}
    (h : Reaches site w m b ((m.memory.setWord slot v.mantissa.toInt32).setWord (slot - 4)
      v.exponent.toInt32) m')
    (hw : ∀ r ∈ w, r.number < 13) (hin : m.memory.Inside (slot - 4) 8)
    (hm : IsWord v.mantissa) (he : IsWord v.exponent) :
    ∃ n, Stored site m b slot v (m'.withSteps n) := by
  have h0 := hin.nonneg
  have h1 : m.memory.Inside slot 4 := hin.mono (by omega) (by omega)
  have h2 : (m.memory.setWord slot v.mantissa.toInt32).Inside (slot - 4) 4 :=
    (hin.of_size (Memory.size_setWord ..)).mono (by omega) (by omega)
  obtain ⟨n, hsteps⟩ := h.exec.steps
  have hon := h.on
  refine ⟨n, hsteps, ⟨hon.image, hon.runtime, hon.running, hon.pc⟩, ?_, ?_, ?_, ?_, ?_, h.input,
    h.output⟩
  · show (m'.memory.word slot).toInt = _
    rw [h.memory, Memory.word_setWord_of_disjoint _ h2 (by omega) (by omega),
      Memory.word_setWord_self _ h1, hm.toInt_toInt32]
  · show (m'.memory.word (slot - 4)).toInt = _
    rw [h.memory, Memory.word_setWord_self _ h2, he.toInt_toInt32]
  · show m'.memory.size = _
    rw [h.memory, Memory.size_setWord, Memory.size_setWord]
  · intro x hx hout
    show m'.memory.byte x = _
    rw [h.memory, Memory.byte_setWord_of_ne _ h2 hx (by omega),
      Memory.byte_setWord_of_ne _ h1 hx (by omega)]
  · intro r hr
    refine h.get r fun hmem => ?_
    have hlt := hw r hmem
    rw [Int64.lt_iff_toInt_lt] at hlt
    rw [Int64.le_iff_toInt_le] at hr
    omega

/-- The code for a sum or a difference of two floats puts into its slot what the reference
computes from the operands and the exponent that the slot held before. -/
theorem floatAddSub_refines {path : Path} {e : Expr} {op : BinaryOp} {left right dst : Int64}
    {c : Context} {k : Counts} (hr : c.config.registers = {}) (hw : c.config.sizes = {})
    (hp : k.pool.Stock) (hfree : 8 ≤ k.pool.free.length)
    (hdst : eval (temporary path e) c k = (.ok dst, k)) :
    ∃ code k', eval (floatAddSub path e op (.slot left) (.slot right)) c k = (.ok code, k')
      ∧ ∀ (site : Site) (a : Nat) (m : Machine) (s : Int), site.Holds a code → m.On site a →
        m.get ⟨0⟩ = 0 → m.get ⟨14⟩ = Int32.ofInt s →
        m.memory.Inside (s + left.toInt - 4) 8 → m.memory.Inside (s + right.toInt - 4) 8 →
        m.memory.Inside (s + dst.toInt - 4) 8 →
        let l := m.memory.float (s + left.toInt)
        let r := m.memory.float (s + right.toInt)
        let stale := (m.memory.float (s + dst.toInt)).exponent
        l.Fits (Decimal.signed op r) stale →
        ∃ m', Stored site m (a + Code.size code) (s + dst.toInt) (Decimal.sumOf op l r stale) m' := by
  obtain ⟨labels, k', heval, -⟩ := eval_floatAddSub hr hw hp.sound hfree hdst
  refine ⟨_, k', heval, ?_⟩
  intro site a m s hc hm h0 hsp hl hrt hd l r stale hf
  have hlow : ∀ q ∈ k.pool.free.take 8, 0 < q.number ∧ q.number < 13 :=
    fun q hq => hp.of_mem_free (List.mem_of_mem_take hq)
  have hlen : (k.pool.free.take 8).length = 8 := by
    rw [List.length_take]
    omega
  have hnodup : (k.pool.free.take 8).Nodup :=
    (List.nodup_append.1 hp.sound.nodup).1.sublist (List.take_sublist 8 _)
  have hne : ∀ q : Register, ¬ (0 < q.number ∧ q.number < 13) →
      ∀ i, q ≠ (ofList (k.pool.free.take 8)).reg i := by
    intro q hq i he
    exact hq (he ▸ hlow _ (reg_ofList_mem hlen i))
  have ha : (ofList (k.pool.free.take 8)).Apart ⟨0⟩ :=
    apart_ofList hlen hnodup
      (fun q hq => ⟨(hlow q hq).1, Int64.lt_trans (hlow q hq).2 (by decide)⟩)
      (fun hm => absurd (hlow _ hm).1 (by decide))
  -- the comment takes no space
  have hnote : site.Holds a (loadCode (ofList (k.pool.free.take 8)) op left right ⟨14⟩ ⟨0⟩
        ++ sumCode (ofList (k.pool.free.take 8)) labels dst 4 ⟨14⟩ ⟨0⟩) := by
    split at hc
    · simpa using hc
    · simpa using hc
  rw [Site.holds_append] at hnote
  obtain ⟨m₁, k1, hh⟩ := exec_load hm hnote.1 h0 ha hsp (hne ⟨14⟩ (by decide)) hl hrt
  have hstale : m₁.memory.word (s + dst.toInt - 4) = stale.toInt32 := by
    rw [k1.memory]
    simp [stale, Memory.float]
  obtain ⟨m₂, r2⟩ := exec_sum k1.on hnote.2 ((ha.keep_zero k1).trans h0) ha
    (Decimal.narrow_float ..) ((Decimal.narrow_float ..).signed op (isWord_toInt64 _)) hf hh
    ((keep_of_ne (hne ⟨14⟩ (by decide)) k1).trans hsp) (hne ⟨14⟩ (by decide))
    (hd.of_size (by rw [k1.memory])) hstale
  rw [k1.memory] at r2
  have hreach := Reaches.after k1 r2
  rw [← Decimal.sumOf_eq] at hreach
  have hsize : ∀ d : Code, Code.size ((if c.config.emit.comments then
      [.comment ("float " ++ e.text)] else []) ++ d) = Code.size d := by
    intro d
    split
    · simp [Line.size]
    · rfl
  rw [hsize, Code.size_append, size_sumCode, ← Nat.add_assoc]
  obtain ⟨n, hstored⟩ := stored_of_reaches hreach (by
      intro q hq
      obtain ⟨i, -, rfl⟩ := List.mem_map.1 hq
      exact (hlow _ (reg_ofList_mem hlen i)).2)
    hd (by rw [Decimal.sumOf_eq]; exact isWord_combine hf)
    (by rw [Decimal.sumOf_eq]; exact hf.exponent)
  exact ⟨_, hstored⟩

/-! ### A sum with a carry

The sum of 95 and 70 with its slot at 332, where the exponent 3 was left over. -/

def carryExpr : Expr := .binary .add (.var "a" ⟨.float, []⟩) (.var "b" ⟨.float, []⟩) ⟨.float, []⟩

def carryContext : Context :=
  let slot : Entry :=
    ⟨.temporary, "", ⟨.float, []⟩, some (.expr [0] carryExpr), some 8, some (-16)⟩
  let scope : Scope :=
    { name := "main", owner := .function, parent := none, backing := .expr [] carryExpr,
      entries := [slot] }
  { config := {}, layout := { table := ⟨⟨[], []⟩, scope, [], []⟩, sizes := {}, entryName := "main" },
    tags := [], index := 0, head := ⟨"main", "", false, [], ⟨.void, []⟩⟩, scope := scope,
    exit := "end" }

def carryCounts : Counts := { pool := .ofNumbers [1, 2, 3, 4, 5, 6, 7, 8, 9, 10, 11, 12] }

def carryCode : Code :=
  match (eval (floatAddSub [0] carryExpr .add (.slot 0) (.slot (-8))) carryContext
    carryCounts).1 with
  | .ok code => code
  | .error _ => []

def carryMemory : Memory :=
  .ofData (List.replicate 328 (0 : UInt8) ++
    [0, 0, 0, 3, 0, 0, 0, 0, 0, 0, 0, 2, 0, 0, 0, 7, 0, 0, 0, 2, 0, 0, 0, 95]).toArray 352

def carryMachine (image : Image) : Machine :=
  { regs := Machine.stackAt 348
    pc := 0
    memory := carryMemory
    image := image
    runtime := {} }

theorem carryMemory_fits : (carryMemory.float 348).Fits
    (Decimal.signed .add (carryMemory.float 340)) (carryMemory.float 332).exponent := by
  constructor <;> decide +kernel

set_option maxRecDepth 4000 in
theorem carryCode_holds : ∃ image,
    Assembly.assemble (Code.text carryCode) (Runtime.symbols {}) = .ok image
      ∧ Site.Holds ⟨image, {}, carryCode.names (Runtime.symbols {})⟩ 0 carryCode := by
  have hread : ∀ l ∈ carryCode, l.Readable := by decide
  have hnames : ∀ e ∈ Runtime.symbols {}, Assembly.isIdentifier e.1.toList = true := by
    decide
  obtain ⟨image, himage⟩ := Code.exists_assemble hread hnames (by decide)
    (by decide) (by decide) (by decide)
  exact ⟨image, himage, Code.holds_of_assemble hread hnames himage (by decide)
    (by decide)⟩

set_option maxRecDepth 4000 in
theorem floatAddSub_refines_carry : ∃ image m',
    Assembly.assemble (Code.text carryCode) (Runtime.symbols {}) = .ok image
      ∧ Stored ⟨image, {}, carryCode.names (Runtime.symbols {})⟩ (carryMachine image) 328 332
        ⟨165, 3⟩ m' := by
  obtain ⟨image, himage, hholds⟩ := carryCode_holds
  obtain ⟨code, k, heval, hrun⟩ := @floatAddSub_refines [0] carryExpr .add 0 (-8) (-16)
    carryContext carryCounts rfl rfl ⟨RegisterPool.sound_ofNumbers (by decide), by decide⟩
    (by decide) rfl
  have hcode : code = carryCode := by
    simp only [carryCode, heval]
  subst hcode
  have hin : ∀ x : Int, 328 ≤ x → x ≤ 344 → carryMemory.Inside x 8 := by
    intro x h0 h1
    have hsize : carryMemory.size = 352 := by decide
    exact ⟨by omega, by omega, by omega⟩
  obtain ⟨m', hm'⟩ := hrun _ 0 (carryMachine image) 348 hholds ⟨rfl, rfl, rfl, rfl⟩ rfl rfl
    (hin _ (by decide) (by decide)) (hin _ (by decide) (by decide)) (hin _ (by decide) (by decide))
    carryMemory_fits
  have hsize : 0 + Code.size carryCode = 328 := by decide
  have hsum : Decimal.sumOf .add (carryMemory.float (348 + (0 : Int64).toInt))
      (carryMemory.float (348 + (-8 : Int64).toInt))
      (carryMemory.float (348 + (-16 : Int64).toInt)).exponent = ⟨165, 3⟩ := by decide +kernel
  rw [hsize] at hm'
  exact ⟨image, m', himage, hsum ▸ hm'⟩

end Float

end MoonBackend
