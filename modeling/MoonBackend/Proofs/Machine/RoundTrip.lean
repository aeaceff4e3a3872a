import MoonBackend.Proofs.Machine.Library
import MoonBackend.Proofs.Machine.ReadOverWrite
import MoonBackend.Proofs.Text.Trimming

/-!
# Numbers through text

A text without a zero byte is read from memory as it was written. A decimal is such a text, so a
number that is turned into text and back is the number, and so is a number on a line of input.
-/

namespace MoonBackend

namespace Memory

theorem spells_putText_of_nonzero {m : Memory} {addr : Int32} {text : List UInt8} (h0 : 0 ∉ text)
    (hin : m.Inside addr.toInt (text.length + 1)) :
    (m.putText addr text).1 = none ∧ (m.putText addr text).2.Spells addr.toInt text := by
  have hself : text.takeWhile (· != 0) = text := by
    rw [List.takeWhile_eq_self_iff]
    intro b hb
    have hne : b ≠ 0 := fun he => h0 (he ▸ hb)
    simpa using hne
  obtain ⟨hnone, hw⟩ := written_putText hin
  have hspells := hw.spells
  rw [Int32.ofInt_toInt] at hnone hspells
  rw [hself] at hspells
  exact ⟨hnone, hspells⟩

theorem getText_of_spells_toInt {m : Memory} {addr : Int32} {text : List UInt8}
    (h : m.Spells addr.toInt text) (hin : m.Inside addr.toInt (text.length + 1)) :
    m.getText addr = .ok text := by
  have hget := getText_of_spells h hin
  rwa [Int32.ofInt_toInt] at hget

theorem Confined.word {m m' : Memory} {x n y : Int} (h : m.Confined m' x n) (hy : 0 ≤ y)
    (hd : y + 4 ≤ x ∨ x + n ≤ y) : m'.word y = m.word y := by
  refine word_congr fun z h0 h1 => ?_
  have hz := h.byte z.toNat (by omega)
  rw [Memory.byte, Memory.byte, get_eq_getD, get_eq_getD, hz]

end Memory

namespace Machine

open Text

/-! ### Lines of input -/

/-- What ends a line: a line feed, also one behind a carriage return, or the end of the input. -/
def EndsLine (ending rest : List UInt8) : Prop :=
  ending = [10] ∨ ending = [13, 10] ∨ ending = [] ∧ rest = []

theorem chomp_append {line ending : List UInt8} (hl : ∀ b ∈ line, b ≠ 10 ∧ b ≠ 13)
    (he : ∀ b ∈ ending, b = 10 ∨ b = 13) : chomp (line ++ ending) = line := by
  have hending : ∀ b ∈ ending.reverse, (b == 10 || b == 13) = true := by
    intro b hb
    simpa using he b (List.mem_reverse.1 hb)
  have hline : ∀ b ∈ line.reverse.head?, (b == 10 || b == 13) = false := by
    intro b hb
    simpa using hl b (List.mem_reverse.1 (List.mem_of_head? hb))
  rw [chomp, List.reverse_append, List.dropWhile_append_of_pos hending, dropWhile_of_head hline,
    List.reverse_reverse]

theorem splitLine_feed {line : List UInt8} (hl : ∀ b ∈ line, b ≠ 10) (rest : List UInt8) :
    splitLine (line ++ 10 :: rest) = (line ++ [10], rest) := by
  have hpos : ∀ b ∈ line, (b != 10) = true := fun b hb => by simpa using hl b hb
  simp [splitLine, List.takeWhile_append_of_pos hpos, List.dropWhile_append_of_pos hpos]

theorem splitLine_end {line : List UInt8} (hl : ∀ b ∈ line, b ≠ 10) :
    splitLine line = (line, []) := by
  have hpos : ∀ b ∈ line, (b != 10) = true := fun b hb => by simpa using hl b hb
  have htake : line.takeWhile (· != 10) = line := List.takeWhile_eq_self_iff.2 hpos
  have hdrop : line.dropWhile (· != 10) = [] := List.dropWhile_eq_nil_iff.2 hpos
  simp [splitLine, htake, hdrop]

theorem chomp_splitLine {line ending rest : List UInt8} (hl : ∀ b ∈ line, b ≠ 10 ∧ b ≠ 13)
    (he : EndsLine ending rest) :
    chomp (splitLine (line ++ ending ++ rest)).1 = line
      ∧ (splitLine (line ++ ending ++ rest)).2 = rest := by
  have hfeed : ∀ b ∈ line, b ≠ 10 := fun b hb => (hl b hb).1
  rcases he with rfl | rfl | ⟨rfl, rfl⟩
  · rw [List.append_assoc, List.singleton_append, splitLine_feed hfeed]
    exact ⟨chomp_append hl (by simp), rfl⟩
  · have hreturn : ∀ b ∈ line ++ [13], b ≠ 10 := by
      intro b hb
      rcases List.mem_append.1 hb with hb | hb
      · exact hfeed b hb
      · rw [List.mem_singleton.1 hb]
        decide
    have hsplit : line ++ [13, 10] ++ rest = (line ++ [13]) ++ 10 :: rest := by simp
    rw [hsplit, splitLine_feed hreturn, List.append_assoc]
    exact ⟨chomp_append hl (by simp), rfl⟩
  · rw [List.append_nil, List.append_nil, splitLine_end hfeed]
    have hc := chomp_append hl (List.forall_mem_nil _)
    rw [List.append_nil] at hc
    exact ⟨hc, rfl⟩

theorem numberIn_decimal (v : Int32) : numberIn (textBytes (decimal v.toInt)) = v := by
  rw [numberIn, trimBytes_decimal, map_textBytes_decimal, decimal32?_decimal]
  rfl

theorem zero_notMem_decimal (n : Int) : 0 ∉ textBytes (decimal n) := by
  intro h
  exact absurd (range_of_mem_textBytes h).1 (by decide)

/-! ### Parameters and results -/

variable {m : Machine}

/-- The address of the value parameter. -/
def valueAddress (m : Machine) : Int32 :=
  m.regs.get stackPointer + m.runtime.valueParam.toInt32

theorem param_valueParam (m : Machine) :
    m.param m.runtime.valueParam = m.loadWord m.valueAddress := rfl

theorem inside_of_loadWord {addr v : Int32} (hs : m.memory.size < 2 ^ 31)
    (h : m.loadWord addr = .ok v) : m.memory.Inside addr.toInt 4 := by
  have ha : m.Answers addr 4 (m.loadWord addr) := answers_loadWord hs
  by_cases hhas : m.memory.Has addr 4
  · exact ⟨hhas.1, hhas.2, hs⟩
  · by_cases haddr : Addressable addr 4
    · rw [ha.outside hhas haddr] at h
      cases h
    · rw [ha.past haddr] at h
      cases h

theorem loadWord_of_inside {addr : Int32} (h : m.memory.Inside addr.toInt 4) :
    m.loadWord addr = .ok (m.memory.word addr.toInt) := by
  have hl := h.loadWord
  rw [Int32.ofInt_toInt] at hl
  rw [loadWord, hl]
  rfl

theorem storeWord_of_inside {addr : Int32} (h : m.memory.Inside addr.toInt 4) (v : Int32) :
    m.storeWord addr v = .ok { m with memory := m.memory.setWord addr.toInt v } := by
  have hc := h.check (le_refl 4)
  rw [Int32.ofInt_toInt, show Int32.ofNat 4 = 4 from rfl] at hc
  rw [storeWord, check, hc, Memory.setWord, Int32.ofInt_toInt]
  rfl

theorem get_setResult (m : Machine) (v : Int32) : (m.setResult v).regs.get resultRegister = v := by
  show (m.regs.set 13 v)[13] = v
  exact Vector.getElem_set_self ..

theorem valueAddress_setResult (m : Machine) (v : Int32) :
    (m.setResult v).valueAddress = m.valueAddress := by
  have hsp : (m.setResult v).regs.get stackPointer = m.regs.get stackPointer := by
    rw [get_stackPointer, get_stackPointer]
    exact get_setResult_of_ne (by decide)
  simp only [valueAddress, hsp]
  rfl

/-- Twelve bytes from the buffer on lie in memory and apart from the value parameter. -/
structure Buffers (m : Machine) (buffer : Int32) : Prop where
  inside : m.memory.Inside buffer.toInt 12
  apart : buffer.toInt + 12 ≤ m.valueAddress.toInt ∨ m.valueAddress.toInt + 4 ≤ buffer.toInt

theorem Buffers.decimal {buffer : Int32} (h : m.Buffers buffer) (v : Int32) :
    m.memory.Inside buffer.toInt ((textBytes (decimal v.toInt)).length + 1) := by
  have hshort := (textBytes_decimal_word v).1
  exact h.inside.mono (le_refl _) (by omega)

theorem call_stringToInt_decimal {v addr : Int32} (ha : m.loadWord m.valueAddress = .ok addr)
    (hspells : m.memory.Spells addr.toInt (textBytes (decimal v.toInt)))
    (hin : m.memory.Inside addr.toInt ((textBytes (decimal v.toInt)).length + 1)) :
    m.call .stringToInt = (none, m.setResult v) := by
  have hget : m.getText addr = .ok (textBytes (decimal v.toInt)) := by
    rw [getText, Memory.getText_of_spells_toInt hspells hin]
    rfl
  rw [call_stringToInt ha hget, numberIn_decimal]

/-! ### Round trips -/

theorem Buffers.of_eq {m' : Machine} {buffer : Int32} (h : m.Buffers buffer)
    (ha : m'.valueAddress = m.valueAddress) (hs : m'.memory.size = m.memory.size) :
    m'.Buffers buffer :=
  ⟨h.inside.of_size hs, by rw [ha]; exact h.apart⟩

theorem stringToInt_of_spells {v buffer : Int32} (hbuf : m.Buffers buffer)
    (hword : m.memory.Inside m.valueAddress.toInt 4)
    (hspells : m.memory.Spells buffer.toInt (textBytes (decimal v.toInt))) :
    ∃ m', m.storeWord m.valueAddress buffer = .ok m'
      ∧ m'.call .stringToInt = (none, m'.setResult v) := by
  have hsize := Memory.size_setWord m.memory m.valueAddress.toInt buffer
  have hlen := (textBytes_decimal_word v).1
  have hnonneg := hbuf.inside.nonneg
  have hapart := hbuf.apart
  -- storing the address leaves the text alone
  have hkept : (m.memory.setWord m.valueAddress.toInt buffer).Spells buffer.toInt
      (textBytes (decimal v.toInt)) :=
    Memory.spells_congr hspells fun y h0 h1 =>
      Memory.byte_setWord_of_ne _ hword (by omega) (by omega)
  refine ⟨_, storeWord_of_inside hword buffer, ?_⟩
  refine call_stringToInt_decimal ?_ hkept ((hbuf.decimal v).of_size hsize)
  have hload := loadWord_of_inside (m := { m with
    memory := m.memory.setWord m.valueAddress.toInt buffer }) (hword.of_size hsize)
  rwa [Memory.word_setWord_self _ hword] at hload

/-- A number that is turned into text stands in the buffer, whose address is the result. -/
theorem spells_intToString {v buffer : Int32} (hv : m.param m.runtime.valueParam = .ok v)
    (hb : m.param m.runtime.bufferParam = .ok buffer) (hbuf : m.Buffers buffer) :
    ∃ m', m.call .intToString = (none, m') ∧ m'.regs.get resultRegister = buffer
      ∧ m'.valueAddress = m.valueAddress ∧ m'.memory.size = m.memory.size
      ∧ m'.memory.Spells buffer.toInt (textBytes (decimal v.toInt)) := by
  obtain ⟨hnone, hspells⟩ :=
    Memory.spells_putText_of_nonzero (zero_notMem_decimal v.toInt) (hbuf.decimal v)
  exact ⟨_, call_intToString hv hb hnone, get_setResult _ _, valueAddress_setResult _ _,
    Memory.size_putBytes .., hspells⟩

/-- A number on a line of input stands in the buffer, and the parameter still points to it. -/
theorem spells_readString {v buffer : Int32} {ending rest : List UInt8}
    (hword : m.memory.Inside m.valueAddress.toInt 4)
    (hv : m.param m.runtime.valueParam = .ok buffer) (hbuf : m.Buffers buffer)
    (hsize : 12 ≤ m.runtime.bufferSize) (he : EndsLine ending rest)
    (hi : m.input = textBytes (decimal v.toInt) ++ ending ++ rest) :
    ∃ m', m.call .readString = (none, m') ∧ m'.loadWord m'.valueAddress = .ok buffer
      ∧ m'.valueAddress = m.valueAddress ∧ m'.memory.size = m.memory.size
      ∧ m'.memory.Spells buffer.toInt (textBytes (decimal v.toInt)) := by
  have hlen := (textBytes_decimal_word v).1
  have hapart := hbuf.apart
  have htwelve : 12 ≤ m.runtime.bufferSize.toInt := Int64.le_iff_toInt_le.1 hsize
  obtain ⟨hneg, hroom⟩ := room_of_pos (Int.lt_of_lt_of_le (by decide) htwelve)
  have hplain : ∀ b ∈ textBytes (decimal v.toInt), b ≠ 10 ∧ b ≠ 13 := by
    intro b hb
    have hr := range_of_mem_textBytes hb
    constructor
    · rintro rfl
      exact absurd hr.1 (by decide)
    · rintro rfl
      exact absurd hr.1 (by decide)
  have htake : (chomp (splitLine m.input).1).take (m.runtime.bufferSize - 1).toNatClampNeg
      = textBytes (decimal v.toInt) := by
    rw [hi, (chomp_splitLine hplain he).1, List.take_of_length_le (by omega)]
  have hread := call_readString hv hneg htake
  have hin := hbuf.decimal v
  obtain ⟨hnone, hspells⟩ := Memory.spells_putText_of_nonzero (zero_notMem_decimal v.toInt) hin
  rw [hnone] at hread
  -- the bytes that are written lie apart from the parameter
  have hkept : (m.memory.putText buffer (textBytes (decimal v.toInt))).2.word m.valueAddress.toInt
      = m.memory.word m.valueAddress.toInt := by
    refine (Memory.confined_putText ..).word hword.nonneg ?_
    have := hbuf.apart
    omega
  have hload : m.loadWord m.valueAddress = .ok buffer := by rw [← param_valueParam, hv]
  rw [loadWord_of_inside hword, ← hkept] at hload
  exact ⟨_, hread, (loadWord_of_inside (hword.of_size (Memory.size_putBytes ..))).trans hload, rfl,
    Memory.size_putBytes .., hspells⟩

/-- In a memory whose size is a word: a text without a zero byte is read as it was written and
changes no byte but its own and the one behind it; a number that was turned into text is the result
of turning that text into a number; and so is a number on a line of input. -/
theorem texts_survive_memory (hs : m.memory.size < 2 ^ 31) :
    (∀ (addr : Int32) (text : List UInt8), 0 ∉ text → 0 ≤ addr.toInt →
        addr.toInt + text.length + 1 ≤ m.memory.size →
      ∃ m', m.putText addr text = (none, m') ∧ m'.getText addr = .ok text
        ∧ m.memory.Confined m'.memory addr.toInt (text.length + 1))
    ∧ (∀ v buffer, m.param m.runtime.valueParam = .ok v →
        m.param m.runtime.bufferParam = .ok buffer → m.Buffers buffer →
      ∃ m₁ m₂ m₃, m.call .intToString = (none, m₁)
        ∧ m₁.storeWord m₁.valueAddress (m₁.regs.get resultRegister) = .ok m₂
        ∧ m₂.call .stringToInt = (none, m₃) ∧ m₃.regs.get resultRegister = v)
    ∧ ∀ v buffer ending rest, m.param m.runtime.valueParam = .ok buffer → m.Buffers buffer →
        12 ≤ m.runtime.bufferSize → EndsLine ending rest →
        m.input = textBytes (decimal v.toInt) ++ ending ++ rest →
      ∃ m₁ m₂, m.call .readString = (none, m₁) ∧ m₁.call .stringToInt = (none, m₂)
        ∧ m₂.regs.get resultRegister = v := by
  refine ⟨fun addr text h0 hlow hhigh => ?_, fun v buffer hv hb hbuf => ?_,
    fun v buffer ending rest hv hbuf hsize he hi => ?_⟩
  · have hin : m.memory.Inside addr.toInt (text.length + 1) := ⟨hlow, by omega, hs⟩
    obtain ⟨hnone, hspells⟩ := Memory.spells_putText_of_nonzero h0 hin
    refine ⟨{ m with memory := (m.memory.putText addr text).2 }, ?_, ?_,
      Memory.confined_putText ..⟩
    · rw [putText_eq, hnone]
      rfl
    · rw [getText, Memory.getText_of_spells_toInt hspells (hin.of_size (Memory.size_putBytes ..))]
      rfl
  · have hword := inside_of_loadWord hs hv
    obtain ⟨m₁, hcall, hresult, haddr, hsize, hspells⟩ := spells_intToString hv hb hbuf
    have hword₁ : m₁.memory.Inside m₁.valueAddress.toInt 4 := by
      rw [haddr]
      exact hword.of_size hsize
    obtain ⟨m₂, hstore, hback⟩ := stringToInt_of_spells (hbuf.of_eq haddr hsize) hword₁ hspells
    exact ⟨m₁, m₂, _, hcall, by rw [hresult, hstore], hback, get_setResult ..⟩
  · have hword := inside_of_loadWord hs hv
    obtain ⟨m₁, hcall, hload, haddr, hsize₁, hspells⟩ :=
      spells_readString hword hv hbuf hsize he hi
    have hin := (hbuf.of_eq haddr hsize₁).decimal v
    exact ⟨m₁, _, hcall, call_stringToInt_decimal hload hspells hin, get_setResult ..⟩

def smallestNumber : Machine := bufferCall [128, 0, 0, 0] []

def smallestLine : Machine :=
  bufferCall [0, 0, 0, 40] (textBytes (decimal (-2147483648)) ++ [13, 10] ++ textBytes "7")

theorem texts_survive_memory_smallest :
    (∃ m', smallestNumber.putText 40 (textBytes "seven") = (none, m')
        ∧ m'.getText 40 = .ok (textBytes "seven"))
    ∧ (∃ m₁ m₂ m₃, smallestNumber.call .intToString = (none, m₁)
        ∧ m₁.storeWord m₁.valueAddress (m₁.regs.get resultRegister) = .ok m₂
        ∧ m₂.call .stringToInt = (none, m₃) ∧ m₃.regs.get resultRegister = -2147483648)
    ∧ ∃ m₁ m₂, smallestLine.call .readString = (none, m₁) ∧ m₁.call .stringToInt = (none, m₂)
        ∧ m₂.regs.get resultRegister = -2147483648 := by
  have hnumber : smallestNumber.Buffers 40 :=
    ⟨⟨by decide, by decide, by decide⟩, .inr (by decide)⟩
  have hline : smallestLine.Buffers 40 := ⟨⟨by decide, by decide, by decide⟩, .inr (by decide)⟩
  refine ⟨?_, ?_, ?_⟩
  · obtain ⟨m', hput, hget, -⟩ := (texts_survive_memory (m := smallestNumber) (by decide)).1 40
      (textBytes "seven") (by decide +kernel) (by decide) (by decide +kernel)
    exact ⟨m', hput, hget⟩
  · exact (texts_survive_memory (m := smallestNumber) (by decide)).2.1 _ _ (by decide +kernel)
      (by decide +kernel) hnumber
  · exact (texts_survive_memory (m := smallestLine) (by decide)).2.2 _ _ [13, 10]
      (textBytes "7") (by decide +kernel) hline (by decide) (.inr (.inl rfl)) rfl

theorem beyondWords_refuses_text : ∃ m text, ofImage {} beyondWords [] = .ok m ∧ 0 ∉ text
    ∧ 0 ≤ (64 : Int32).toInt ∧ (64 : Int32).toInt + text.length + 1 ≤ m.memory.size
    ∧ ∀ m', m.putText 64 text ≠ (none, m') := by
  refine ⟨_, [120], rfl, by decide, by decide, by decide, fun m' h => ?_⟩
  have hnone : (_ : Option Trap) = none := congrArg Prod.fst h
  exact absurd hnone (by decide)

end Machine

end MoonBackend
