import MoonBackend.Proofs.Machine.Execution
import MoonBackend.Proofs.Machine.Memory

/-!
# What routines do to memory

A text is written from its address upwards, with a zero byte behind it, and nothing else is touched:
not when the writing is refused half way, and not when the address runs past the largest one. So a
routine of the library that writes a text changes the bytes of that text only.
-/

namespace MoonBackend

namespace Memory

/-- The second memory differs from the first in none but the `n` bytes from a position onwards. -/
structure Confined (m m' : Memory) (x n : Int) : Prop where
  size : m'.size = m.size
  byte : ∀ i : Nat, (i < x ∨ x + n ≤ i) → m'[i]? = m[i]?

theorem Confined.mono {m m' : Memory} {x n k : Int} (h : Confined m m' x n) (hn : n ≤ k) :
    Confined m m' x k :=
  ⟨h.size, fun i hi => h.byte i (by omega)⟩

theorem nonneg_of_check {m : Memory} {addr n : Int32} (h : m.check addr n = .ok ()) :
    0 ≤ addr.toInt := by
  unfold check at h
  split at h
  · cases h
  · rename_i hc
    simp only [Bool.or_eq_true, decide_eq_true_eq, not_or, Int32.not_lt] at hc
    exact Int32.le_iff_toInt_le.1 hc.1

theorem putBytes_of_neg {m : Memory} {addr : Int32} {bs : List UInt8} (h : addr.toInt < 0) :
    (m.putBytes addr bs).2 = m := by
  cases bs with
  | nil => rfl
  | cons b bs =>
    unfold putBytes
    split
    · rfl
    · rename_i hc
      have := nonneg_of_check hc
      omega

theorem confined_putBytes (m : Memory) (addr : Int32) (bs : List UInt8) :
    Confined m (m.putBytes addr bs).2 addr.toInt bs.length := by
  refine ⟨size_putBytes .., ?_⟩
  induction bs generalizing m addr with
  | nil => exact fun _ _ => rfl
  | cons b bs ih =>
    intro i hi
    rw [List.length_cons] at hi
    unfold putBytes
    split
    · rfl
    · rename_i hc
      have h0 := nonneg_of_check hc
      have hput : (m.putByte addr b)[i]? = m[i]? := by
        have hne : addr.toNatClampNeg ≠ i := by
          rw [← Int32.toNat_toInt]
          omega
        rw [putByte, getElem?_set, if_neg fun h => hne h.1]
      rw [← hput]
      by_cases hlast : addr.toInt < 2 ^ 31 - 1
      · have hnext : (addr + 1).toInt = addr.toInt + 1 := by
          rw [Int32.toInt_add]
          exact Int.bmod_eq_of_le (show -_ ≤ addr.toInt + 1 by omega)
            (show addr.toInt + 1 < _ by omega)
        exact ih _ _ i (by omega)
      · -- behind the largest address comes the smallest one
        have hup := addr.toInt_lt
        have hnext : (addr + 1).toInt < 0 := by
          rw [Int32.toInt_add, show addr.toInt = 2 ^ 31 - 1 by omega]
          decide
        rw [putBytes_of_neg hnext]

theorem confined_putText (m : Memory) (addr : Int32) (text : List UInt8) :
    Confined m (m.putText addr text).2 addr.toInt (text.length + 1) := by
  have h := confined_putBytes m addr (text ++ [0])
  rwa [List.length_append, List.length_singleton] at h

end Memory

namespace Machine

open Text

variable {m : Machine}

theorem memory_putText (m : Machine) (addr : Int32) (text : List UInt8) :
    (m.putText addr text).2.memory = (m.memory.putText addr text).2 := by
  rw [putText_eq]

theorem memory_setResult (m : Machine) (v : Int32) : (m.setResult v).memory = m.memory := rfl

theorem room_of_pos {size : Int64} (h : 0 < size.toInt) :
    ¬ size - 1 < 0 ∧ ((size - 1).toNatClampNeg : Int) = size.toInt - 1 := by
  have hup := size.toInt_lt
  have hroom : (size - 1).toInt = size.toInt - 1 := by
    rw [Int64.toInt_sub]
    exact Int.bmod_eq_of_le (show -_ ≤ size.toInt - 1 by omega)
      (show size.toInt - 1 < _ by omega)
  constructor
  · rw [Int64.lt_iff_toInt_lt, hroom]
    exact Int.not_lt.2 (Int.le_sub_one_of_lt h)
  · rw [← Int64.toNat_toInt, hroom]
    omega

/-! ### Calls -/

theorem call_intToString {v buffer : Int32} (hv : m.param m.runtime.valueParam = .ok v)
    (hb : m.param m.runtime.bufferParam = .ok buffer)
    (hput : (m.memory.putText buffer (textBytes (decimal v.toInt))).1 = none) :
    m.call .intToString = (none, ({ m with
      memory := (m.memory.putText buffer (textBytes (decimal v.toInt))).2 } : Machine).setResult
        buffer) := by
  unfold call intToString
  rw [hv, hb]
  simp only
  rw [putText_eq, hput]
  rfl

theorem call_printString {addr : Int32} {text : List UInt8}
    (hv : m.param m.runtime.valueParam = .ok addr) (ht : m.getText addr = .ok text) :
    m.call .printString = (none, { m with output := m.output ++ text }) := by
  unfold call printString
  rw [hv]
  simp only
  rw [ht]

theorem call_readString {buffer : Int32} (hv : m.param m.runtime.valueParam = .ok buffer)
    (hroom : ¬ m.runtime.bufferSize - 1 < 0) {text : List UInt8}
    (ht : (chomp (splitLine m.input).1).take (m.runtime.bufferSize - 1).toNatClampNeg = text) :
    m.call .readString = ((m.memory.putText buffer text).1.map fun (place, e) => m.trapOf place e,
      { m with memory := (m.memory.putText buffer text).2, input := (splitLine m.input).2 }) := by
  unfold call readString
  rw [hv]
  simp only
  rw [if_neg hroom, ht, putText_eq]
  rfl

theorem call_stringToInt {addr : Int32} {text : List UInt8}
    (hv : m.param m.runtime.valueParam = .ok addr) (ht : m.getText addr = .ok text) :
    m.call .stringToInt = (none, m.setResult (numberIn text)) := by
  unfold call stringToInt
  rw [hv]
  simp only
  rw [ht]

/-- What a number leaves in memory is its text in the buffer, whether or not all of it fits. -/
theorem memory_intToString {v buffer : Int32} (hv : m.param m.runtime.valueParam = .ok v)
    (hb : m.param m.runtime.bufferParam = .ok buffer) :
    (m.call .intToString).2.memory
      = (m.memory.putText buffer (textBytes (decimal v.toInt))).2 := by
  have hput := memory_putText m buffer (textBytes (decimal v.toInt))
  unfold call intToString
  rw [hv, hb]
  simp only
  split
  · rename_i t m' h
    rwa [h] at hput
  · rename_i m' h
    rw [h] at hput
    rw [memory_setResult, hput]

theorem memory_readString {buffer : Int32} (hv : m.param m.runtime.valueParam = .ok buffer)
    (hroom : ¬ m.runtime.bufferSize - 1 < 0) :
    (m.call .readString).2.memory
      = (m.memory.putText buffer ((chomp (splitLine m.input).1).take
          (m.runtime.bufferSize - 1).toNatClampNeg)).2 := by
  rw [call_readString hv hroom rfl]

/-- A machine about to call a routine with a value and the address 40 of its buffer. -/
def bufferCall (value input : List UInt8) : Machine :=
  { regs := stackAt 32
    pc := 68
    memory := .ofData (List.replicate 20 0 ++ [0, 0, 0, 40] ++ value).toArray 64
    image := {}
    runtime := { bufferSize := 12, memorySize := 64 }
    input := input }

end Machine

end MoonBackend
