import MoonBackend.Emit.Basic
import MoonBackend.Proofs.Code.Execution

/-!
# Loading words

A known word is loaded in one instruction or put together from its halves, and a word of the frame is
read through the stack pointer. Which registers these are depends on the convention: all that counts
is that the zero register reads as zero and that the loaded one can be written.
-/

namespace MoonBackend

open Machine Code

/-! ### The halves of a word -/

theorem shiftRight_sixteen (v : Int64) : (v >>> 16).toBitVec = v.toBitVec.sshiftRight 16 := by
  rw [Int64.toBitVec_shiftRight]
  have hs : (16 : Int64).toBitVec.smod 64 = 16#64 := by decide
  rw [hs, BitVec.sshiftRight_eq']
  rfl

theorem toInt_highHalf (v : Int64) : (v >>> 16).toInt = v.toInt / 65536 := by
  rw [← Int64.toInt_toBitVec, shiftRight_sixteen, BitVec.toInt_sshiftRight, Int64.toInt_toBitVec,
    Int.shiftRight_eq_div_pow]
  rfl

theorem toInt_lowHalf (v : Int64) : (v &&& 65535).toInt = v.toInt % 65536 := by
  have hn : (v &&& 65535).toBitVec.toNat = v.toBitVec.toNat % 65536 := by
    rw [Int64.toBitVec_and, BitVec.toNat_and]
    exact Nat.and_two_pow_sub_one_eq_mod v.toBitVec.toNat 16
  rw [← Int64.toInt_toBitVec, ← Int64.toInt_toBitVec, BitVec.toInt_eq_toNat_cond,
    BitVec.toInt_eq_toNat_cond, hn]
  split <;> split <;> omega

theorem shiftLeft_sixteen (v : Int32) : (shiftLeft v 16).toBitVec = v.toBitVec <<< 16 := by
  have hs : shiftLeft v 16 = v <<< 16 := rfl
  have hm : (16 : Int32).toBitVec.smod 32 = 16#32 := by decide
  rw [hs, Int32.toBitVec_shiftLeft, hm]
  rfl

theorem halves_or (v : Int64) :
    shiftLeft (v >>> 16).toInt32 16 ||| (v &&& 65535).toInt32 = v.toInt32 := by
  apply Int32.toBitVec_inj.1
  rw [Int32.toBitVec_or, shiftLeft_sixteen, Int64.toBitVec_toInt32, Int64.toBitVec_toInt32,
    Int64.toBitVec_toInt32, shiftRight_sixteen, Int64.toBitVec_and]
  apply BitVec.eq_of_getLsbD_eq
  intro i hi
  interval_cases i <;> simp [BitVec.getElem_signExtend, BitVec.getElem_sshiftRight]

/-! ### Places -/

/-- The word that a place holds in a frame at a position. -/
def placeValue (mem : Memory) (x : Int) : Place → Int32
  | .immediate v => v.toInt32
  | .slot off => mem.word (x + off.toInt)

def PlaceInside (mem : Memory) (x : Int) : Place → Prop
  | .immediate _ => True
  | .slot off => mem.Inside (x + off.toInt) 4

/-! ### Loads -/

namespace Machine

variable {site : Site} {m : Machine} {a : Nat} {r z : Register} {v : Int64}

theorem On.exec_short (h : m.On site a) (hc : site.Holds a (plain [.imm .addi r z v]))
    (hz : m.get z = 0) (hr : r.Writable) :
    ∃ m', Computes site [r] m (a + Code.size (plain [.imm .addi r z v])) m'
      ∧ m'.get r = v.toInt32 := by
  simp only [plain, List.map, Site.holds_plain] at hc
  have e1 := h.exec_imm (v := v.toInt32) hc.1 rfl (by
    rw [hz]
    simp [valueOf?])
  exact ⟨_, Computes.put h e1 (by simp), get_put_self hr⟩

theorem On.exec_long (h : m.On site a)
    (hc : site.Holds a
      (plain [.imm .addi r z (v >>> 16), .sl r 16, .imm .ori r r (v &&& 65535)]))
    (hz : m.get z = 0) (hr : r.Writable) :
    ∃ m', Computes site [r] m
        (a + Code.size (plain [.imm .addi r z (v >>> 16), .sl r 16, .imm .ori r r (v &&& 65535)])) m'
      ∧ m'.get r = v.toInt32 := by
  simp only [plain, List.map, Site.holds_plain] at hc
  obtain ⟨h1, h2, h3, -⟩ := hc
  have e1 := h.exec_imm (v := (v >>> 16).toInt32) h1 rfl (by
    rw [hz]
    simp [valueOf?])
  have c1 := Computes.put (w := [r]) h e1 (by simp)
  have e2 := c1.on.exec_sl h2
  have c2 := c1.trans (Computes.put (w := [r]) c1.on e2 (by simp))
  have e3 := c2.on.exec_imm (v := v.toInt32) h3 rfl (by
    rw [get_put_self hr, get_put_self hr, ← halves_or v]
    rfl)
  exact ⟨_, c2.trans (Computes.put (w := [r]) c2.on e3 (by simp)), get_put_self hr⟩

end Machine

end MoonBackend
