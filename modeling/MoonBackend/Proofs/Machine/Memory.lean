import MoonBackend.Machine.Memory
import Mathlib.Tactic.IntervalCases

/-!
# Words in memory

Memory read as words at integer positions: what a load finds after a store, which bytes a store
leaves alone, and when an access passes its range check. All of it is stated for positions inside
a memory whose size is itself a word, so that no range check wraps.
-/

namespace MoonBackend

/-! ### Bytes of a word -/

theorem byteAt_toBitVec (v : Int32) (bit : UInt32) (h : bit.toNat < 32) :
    (byteAt v bit).toBitVec = (v.toBitVec >>> bit.toNat).setWidth 8 := by
  have hmod : bit.toNat % 32 = bit.toNat := Nat.mod_eq_of_lt h
  simp only [byteAt, UInt32.toBitVec_toUInt8, UInt32.toBitVec_shiftRight]
  congr 1
  simp [BitVec.ushiftRight_eq', BitVec.toNat_umod, hmod]

theorem wordOfBytes_byteAt (v : Int32) :
    wordOfBytes (byteAt v 24) (byteAt v 16) (byteAt v 8) (byteAt v 0) = v := by
  apply Int32.toBitVec_inj.1
  simp only [wordOfBytes, UInt32.toBitVec_toInt32, UInt32.toBitVec_or, UInt32.toBitVec_shiftLeft,
    UInt8.toBitVec_toUInt32]
  rw [byteAt_toBitVec v 24 (by decide), byteAt_toBitVec v 16 (by decide),
    byteAt_toBitVec v 8 (by decide), byteAt_toBitVec v 0 (by decide)]
  apply BitVec.eq_of_getLsbD_eq
  intro i hi
  interval_cases i <;> simp

namespace Memory

/-! ### Positions -/

/-- The `n` bytes from a position onwards lie inside a memory that a word can address. -/
structure Inside (m : Memory) (x : Int) (n : Nat) : Prop where
  nonneg : 0 ≤ x
  upper : x + n ≤ m.size
  small : m.size < 2 ^ 31

theorem Inside.mono {m : Memory} {x y : Int} {n k : Nat} (h : m.Inside x n) (hx : x ≤ y)
    (hy : y + k ≤ x + n) : m.Inside y k := by
  obtain ⟨h0, h1, h2⟩ := h
  exact ⟨by omega, by omega, h2⟩

theorem Inside.of_size {m m' : Memory} {x : Int} {n : Nat} (h : m.Inside x n)
    (hs : m'.size = m.size) : m'.Inside x n := by
  obtain ⟨h0, h1, h2⟩ := h
  exact ⟨h0, by omega, by omega⟩

theorem Inside.toInt_ofInt {m : Memory} {x : Int} {n : Nat} (h : m.Inside x n) :
    (Int32.ofInt x).toInt = x := by
  obtain ⟨h0, h1, h2⟩ := h
  exact Int32.toInt_ofInt_of_le (by omega) (by omega)

theorem Inside.toNatClampNeg_ofInt {m : Memory} {x : Int} {n : Nat} (h : m.Inside x n) :
    (Int32.ofInt x).toNatClampNeg = x.toNat := by
  rw [← Int32.toNat_toInt, h.toInt_ofInt]

theorem Inside.check {m : Memory} {x : Int} {n : Nat} (h : m.Inside x n) (hn : n ≤ 4) :
    m.check (Int32.ofInt x) (Int32.ofNat n) = .ok () := by
  have hx := h.toInt_ofInt
  have hc := h.toNatClampNeg_ofInt
  obtain ⟨h0, h1, h2⟩ := h
  have hsize : (Int32.ofNat m.size).toInt = m.size := Int32.toInt_ofNat_of_lt h2
  have hn' : (Int32.ofNat n).toInt = n := Int32.toInt_ofNat_of_lt (by omega)
  have hnc : (Int32.ofNat n).toNatClampNeg = n := Int32.toNatClampNeg_ofNat_of_lt (by omega)
  by_cases hm : x + n < 2 ^ 31
  · have hsum : (Int32.ofInt x + Int32.ofNat n).toInt = x + n := by
      rw [Int32.toInt_add, hx, hn']
      exact Int.bmod_eq_of_le (by omega) (by omega)
    have hlow : ¬ Int32.ofInt x < 0 := by
      rw [Int32.lt_iff_toInt_lt, hx]
      simpa using h0
    have hhigh : ¬ Int32.ofNat m.size < Int32.ofInt x + Int32.ofNat n := by
      rw [Int32.lt_iff_toInt_lt, hsum, hsize]
      omega
    have hfit : ¬ m.size < (Int32.ofInt x).toNatClampNeg + (Int32.ofNat n).toNatClampNeg := by
      rw [hc, hnc]
      omega
    simp [Memory.check, hlow, hhigh, hfit]
  · omega

/-! ### Reading and writing words -/

def byte (m : Memory) (x : Int) : UInt8 := m.get x.toNat

def word (m : Memory) (x : Int) : Int32 :=
  wordOfBytes (m.byte x) (m.byte (x + 1)) (m.byte (x + 2)) (m.byte (x + 3))

def setWord (m : Memory) (x : Int) (v : Int32) : Memory := m.putWord (Int32.ofInt x) v

@[simp]
theorem size_setWord (m : Memory) (x : Int) (v : Int32) : (m.setWord x v).size = m.size :=
  size_putWord m _ v

theorem Inside.loadByte {m : Memory} {x : Int} (h : m.Inside x 1) :
    m.loadByte (Int32.ofInt x) = .ok (m.byte x) := by
  have hc := h.check (by decide)
  rw [show Int32.ofNat 1 = 1 from rfl] at hc
  simp only [Memory.loadByte, hc, Except.map, h.toNatClampNeg_ofInt, byte]

theorem Inside.loadWord {m : Memory} {x : Int} (h : m.Inside x 4) :
    m.loadWord (Int32.ofInt x) = .ok (m.word x) := by
  have hc := h.check (by decide)
  have h0 := h.nonneg
  rw [show Int32.ofNat 4 = 4 from rfl] at hc
  simp only [Memory.loadWord, hc, Except.map, h.toNatClampNeg_ofInt, word, byte]
  rw [Int.toNat_add h0 (by decide), Int.toNat_add h0 (by decide), Int.toNat_add h0 (by decide)]
  rfl

theorem get_set (m : Memory) (i j : Nat) (b : UInt8) :
    (m.set i b).get j = if i = j ∧ j < m.size then b else m.get j := by
  unfold set
  split
  · rename_i h
    simp only [get, Array.getD_eq_getD_getElem?, Array.getElem?_setIfInBounds,
      Array.getElem?_append, Array.getElem?_replicate, Array.size_append, Array.size_replicate]
    by_cases hij : i = j
    · subst hij
      rw [if_pos rfl, if_pos (by omega), if_pos ⟨rfl, h.1⟩, Option.getD_some]
    · rw [if_neg hij, if_neg (show ¬(i = j ∧ j < m.size) from fun h => hij h.1)]
      by_cases hj : j < m.bytes.size
      · rw [if_pos hj]
      · -- what is added up to the written byte is as zero as it was
        rw [if_neg hj, Array.getElem?_eq_none (Nat.le_of_not_lt hj)]
        split <;> rfl
  · rename_i h
    by_cases hij : i = j ∧ j < m.size
    · obtain ⟨rfl, hi⟩ := hij
      rw [if_pos ⟨rfl, hi⟩]
      exact not_not.1 fun hne => h ⟨hi, hne⟩
    · rw [if_neg hij]

theorem set_get (m : Memory) (i : Nat) : m.set i (m.get i) = m := dif_neg fun h => h.2 rfl

theorem getElem?_eq (m : Memory) (i : Nat) :
    m[i]? = if i < m.size then some (m.get i) else none := rfl

theorem getElem?_set (m : Memory) (i j : Nat) (b : UInt8) :
    (m.set i b)[j]? = if i = j ∧ j < m.size then some b else m[j]? := by
  rw [getElem?_eq, getElem?_eq, size_set, get_set]
  by_cases hj : j < m.size
  · rw [if_pos hj, if_pos hj]
    split <;> rfl
  · rw [if_neg hj, if_neg fun h => hj h.2, if_neg hj]

theorem get_eq_getD (m : Memory) (i : Nat) : m.get i = m[i]?.getD 0 := by
  rw [getElem?_eq]
  by_cases hi : i < m.size
  · rw [if_pos hi]
    rfl
  · have hfits := m.fits
    rw [if_neg hi, get, Array.getD_eq_getD_getElem?, Array.getElem?_eq_none (by omega)]

theorem byte_putByte {m : Memory} {x y : Int} (b : UInt8) (hx : m.Inside x 1) (hy : 0 ≤ y) :
    (m.putByte (Int32.ofInt x) b).byte y = if x = y then b else m.byte y := by
  have h1 := hx.upper
  have h2 := hx.nonneg
  simp only [byte, putByte, hx.toNatClampNeg_ofInt, get_set]
  by_cases hxy : x = y
  · subst hxy
    rw [if_pos ⟨rfl, by omega⟩, if_pos rfl]
  · rw [if_neg (by omega), if_neg hxy]

/-- What a byte is after a word was put into a memory with room for it: a byte of the word inside
its four positions, the old byte everywhere else. -/
theorem byte_putWord {m : Memory} {a : Int32} {x y : Int} (v : Int32)
    (ha : (a.toNatClampNeg : Int) = x) (hx : x + 4 ≤ m.size) (hy : 0 ≤ y) :
    (m.putWord a v).byte y =
      if y = x then byteAt v 24 else if y = x + 1 then byteAt v 16
      else if y = x + 2 then byteAt v 8 else if y = x + 3 then byteAt v 0 else m.byte y := by
  simp only [byte, putWord, get_set, size_set]
  by_cases e0 : y = x
  · rw [if_neg (by omega), if_neg (by omega), if_neg (by omega), if_pos (by omega), if_pos e0]
  by_cases e1 : y = x + 1
  · rw [if_neg (by omega), if_neg (by omega), if_pos (by omega), if_neg e0, if_pos e1]
  by_cases e2 : y = x + 2
  · rw [if_neg (by omega), if_pos (by omega), if_neg e0, if_neg e1, if_pos e2]
  by_cases e3 : y = x + 3
  · rw [if_pos (by omega), if_neg e0, if_neg e1, if_neg e2, if_pos e3]
  rw [if_neg (by omega), if_neg (by omega), if_neg (by omega), if_neg (by omega), if_neg e0,
    if_neg e1, if_neg e2, if_neg e3]

theorem byte_setWord {m : Memory} {x y : Int} (v : Int32) (hx : m.Inside x 4) (hy : 0 ≤ y) :
    (m.setWord x v).byte y =
      if y = x then byteAt v 24 else if y = x + 1 then byteAt v 16
      else if y = x + 2 then byteAt v 8 else if y = x + 3 then byteAt v 0 else m.byte y := by
  have ha : ((Int32.ofInt x).toNatClampNeg : Int) = x := by
    rw [hx.toNatClampNeg_ofInt, Int.toNat_of_nonneg hx.nonneg]
  exact byte_putWord v ha hx.upper hy

theorem byte_setWord_of_ne {m : Memory} {x y : Int} (v : Int32) (hx : m.Inside x 4) (hy : 0 ≤ y)
    (h : y < x ∨ x + 4 ≤ y) : (m.setWord x v).byte y = m.byte y := by
  rw [byte_setWord v hx hy, if_neg (by omega), if_neg (by omega), if_neg (by omega),
    if_neg (by omega)]

theorem word_setWord_self {m : Memory} {x : Int} (v : Int32) (hx : m.Inside x 4) :
    (m.setWord x v).word x = v := by
  have h0 := hx.nonneg
  have hv := wordOfBytes_byteAt v
  simp only [word]
  rw [byte_setWord v hx h0, byte_setWord v hx (by omega), byte_setWord v hx (by omega),
    byte_setWord v hx (by omega)]
  rw [if_pos rfl, if_neg (by omega), if_pos rfl, if_neg (by omega), if_neg (by omega), if_pos rfl,
    if_neg (by omega), if_neg (by omega), if_neg (by omega), if_pos rfl]
  exact hv

theorem word_setWord_of_disjoint {m : Memory} {x y : Int} (v : Int32) (hx : m.Inside x 4)
    (hy : 0 ≤ y) (h : y + 4 ≤ x ∨ x + 4 ≤ y) : (m.setWord x v).word y = m.word y := by
  simp only [word]
  rw [byte_setWord_of_ne v hx hy (by omega), byte_setWord_of_ne v hx (by omega) (by omega),
    byte_setWord_of_ne v hx (by omega) (by omega), byte_setWord_of_ne v hx (by omega) (by omega)]

theorem word_congr {m m' : Memory} {x : Int}
    (h : ∀ y, x ≤ y → y < x + 4 → m'.byte y = m.byte y) : m'.word x = m.word x := by
  simp only [word]
  rw [h x (by omega) (by omega), h (x + 1) (by omega) (by omega),
    h (x + 2) (by omega) (by omega), h (x + 3) (by omega) (by omega)]

end Memory

end MoonBackend
