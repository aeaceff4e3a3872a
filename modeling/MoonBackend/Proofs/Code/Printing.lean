import MoonBackend.Emit.Transfer
import MoonBackend.Proofs.Emit.Registers
import MoonBackend.Proofs.Machine.Library
import MoonBackend.Proofs.Text.Numeral

/-!
# Code that prints

A number is printed through two routines of the library, which find their parameters below the frame
and share a buffer; single bytes are printed by an instruction. Neither changes more than the
registers of the call, the two words of parameters and the text in the buffer. The instruction takes
its byte for a code point, so only a byte below 128 is printed as itself.
-/

namespace MoonBackend

open Text Code

namespace Machine

/-- The machine gets to an address and prints a text on the way. It changes at most the given
registers and the bytes at the given positions. -/
structure Prints (site : Site) (w : List Register) (t : Int → Prop) (m : Machine) (b : Nat)
    (text : List UInt8) (m' : Machine) : Prop where
  exec : Exec m m'
  on : m'.On site b
  get : ∀ q, q ∉ w → m'.get q = m.get q
  size : m'.memory.size = m.memory.size
  byte : ∀ x, 0 ≤ x → ¬ t x → m'.memory.byte x = m.memory.byte x
  input : m'.input = m.input
  output : m'.output = m.output ++ text

namespace Prints

variable {site : Site} {w w' : List Register} {t : Int → Prop} {m m₁ m₂ : Machine} {b c : Nat}
  {text text' : List UInt8}

theorem trans (h : Prints site w t m b text m₁) (h' : Prints site w t m₁ c text' m₂) :
    Prints site w t m c (text ++ text') m₂ where
  exec := h.exec.trans h'.exec
  on := h'.on
  get q hq := (h'.get q hq).trans (h.get q hq)
  size := h'.size.trans h.size
  byte x h0 hx := (h'.byte x h0 hx).trans (h.byte x h0 hx)
  input := h'.input.trans h.input
  output := by
    rw [h'.output, h.output, ← Array.toList_inj]
    simp only [Array.toList_appendList, List.append_assoc]

theorem mono (h : Prints site w t m b text m₁) (hw : ∀ r ∈ w, r ∈ w') :
    Prints site w' t m b text m₁ :=
  { h with get := fun q hq => h.get q fun hm => hq (hw q hm) }

theorem restore {r : Register} (h : Prints site (r :: w) t m b text m₁) (hr : m₁.get r = m.get r) :
    Prints site w t m b text m₁ := by
  refine { h with get := fun q hq => ?_ }
  by_cases hqr : q = r
  · rw [hqr, hr]
  · exact h.get q (by simp [hqr, hq])

theorem of_reaches {mem : Memory} (h : Reaches site w m b mem m₁) (hs : mem.size = m.memory.size)
    (hb : ∀ x, 0 ≤ x → ¬ t x → mem.byte x = m.memory.byte x) : Prints site w t m b [] m₁ where
  exec := h.exec
  on := h.on
  get := h.get
  size := by rw [h.memory, hs]
  byte x h0 hx := by rw [h.memory, hb x h0 hx]
  input := h.input
  output := by rw [h.output, Array.appendList_nil]

theorem of_computes (h : Computes site w m b m₁) : Prints site w t m b [] m₁ :=
  of_reaches (.of_computes h) rfl fun _ _ _ => rfl

theorem word {x : Int} (h : Prints site w t m b text m₁) (h0 : 0 ≤ x)
    (hx : ∀ y, x ≤ y → y < x + 4 → ¬ t y) : m₁.memory.word x = m.memory.word x :=
  Memory.word_congr fun y h1 h2 => h.byte y (by omega) (hx y h1 h2)

end Prints

/-! ### Calling the library -/

/-- The names that printing needs lead to the buffer and to the two routines. -/
structure HasLibrary (site : Site) (y : Int) : Prop where
  buffer : site.names.address? site.runtime.bufferLabel = some (Int32.ofInt y)
  intToString :
    (site.names.address? site.runtime.intToString).bind site.runtime.routine? = some .intToString
  printString :
    (site.names.address? site.runtime.printString).bind site.runtime.routine? = some .printString

/-- The two words of parameters at a stack pointer and the buffer lie in memory, and none of them
lies over another. A number has at most eleven characters, so its text takes twelve bytes. -/
structure HasRoom (mem : Memory) (rt : Runtime) (z y : Int) : Prop where
  value : mem.Inside (z + rt.valueParam.toInt) 4
  buffer : mem.Inside (z + rt.bufferParam.toInt) 4
  text : mem.Inside y 12
  words : rt.valueParam.toInt + 4 ≤ rt.bufferParam.toInt ∨ rt.bufferParam.toInt + 4 ≤ rt.valueParam.toInt
  apart : y + 12 ≤ z + rt.valueParam.toInt ∨ z + rt.valueParam.toInt + 4 ≤ y

theorem HasRoom.of_size {mem mem' : Memory} {rt : Runtime} {z y : Int} (h : HasRoom mem rt z y)
    (hs : mem'.size = mem.size) : HasRoom mem' rt z y :=
  { h with value := h.value.of_size hs, buffer := h.buffer.of_size hs, text := h.text.of_size hs }

def CallBytes (rt : Runtime) (z y x : Int) : Prop :=
  (z + rt.valueParam.toInt ≤ x ∧ x < z + rt.valueParam.toInt + 4)
    ∨ (z + rt.bufferParam.toInt ≤ x ∧ x < z + rt.bufferParam.toInt + 4) ∨ (y ≤ x ∧ x < y + 12)

section
variable {site : Site} {m : Machine} {a : Nat} {r : Register} {x y z : Int}

theorem On.exec_toRoutine {name : String} {f : Routine} (h : m.On site a)
    (hi : site.HoldsItem a (.jl ⟨15⟩ name))
    (hf : (site.names.address? name).bind site.runtime.routine? = some f) :
    ∃ m', Exec m m' ∧ m'.Calls site f (a + 4) ∧ (∀ q, q ≠ ⟨15⟩ → m'.get q = m.get q)
      ∧ m'.memory = m.memory ∧ m'.input = m.input ∧ m'.output = m.output := by
  obtain ⟨k, hk, hr⟩ := Option.bind_eq_some_iff.1 hf
  have hon := h.put ⟨15⟩ (Int32.ofNat (a + 4)) a
  refine ⟨_, h.exec_jl hi hk, ⟨hon.image, hon.runtime, hon.running, hr, ?_⟩, ?_, ?_, ?_, ?_⟩
  · rw [get_goto]
    exact get_put_self (by decide)
  · intro q hq
    rw [get_goto, get_put_of_ne hq]
  · rw [memory_goto, memory_put]
  · rw [input_goto, input_put]
  · rw [output_goto, output_put]

theorem On.exec_param {off : Int64} (h : m.On site a) (hi : site.HoldsItem a (.sw off ⟨14⟩ r))
    (hs : m.get ⟨14⟩ = Int32.ofInt z) (hin : m.memory.Inside (z + off.toInt) 4)
    {w : List Register} :
    ∃ m', Reaches site w m (a + 4) (m.memory.setWord (z + off.toInt) (m.get r)) m'
      ∧ ∀ q, m'.get q = m.get q :=
  ⟨_, .poke h (h.exec_sw hi hs hin), fun _ => rfl⟩

theorem On.exec_lower {size : Int64} (h : m.On site a)
    (hi : site.HoldsItem a (.imm .addi ⟨14⟩ ⟨14⟩ (-size))) (hs : m.get ⟨14⟩ = Int32.ofInt x) :
    ∃ m', Computes site [⟨14⟩] m (a + 4) m' ∧ m'.get ⟨14⟩ = Int32.ofInt (x - size.toInt) := by
  have hneg : (-size).toInt = -size.toInt := by
    have hfit := operand_fits hi rfl
    have hback := Int64.toInt_neg (-size)
    rw [Int64.neg_neg, Int.bmod_eq_of_le (by omega) (by omega)] at hback
    omega
  have he := h.exec_imm (v := Int32.ofInt (x - size.toInt)) hi rfl (by
    rw [hs, toInt32_eq_ofInt, hneg]
    simp only [valueOf?, ← Int32.ofInt_add]
    rfl)
  exact ⟨_, .put h he (by simp), get_put_self (by decide)⟩

theorem On.exec_raise {size : Int64} (h : m.On site a)
    (hi : site.HoldsItem a (.imm .addi ⟨14⟩ ⟨14⟩ size))
    (hs : m.get ⟨14⟩ = Int32.ofInt (x - size.toInt)) :
    ∃ m', Computes site [⟨14⟩] m (a + 4) m' ∧ m'.get ⟨14⟩ = Int32.ofInt x := by
  have he := h.exec_imm (v := Int32.ofInt x) hi rfl (by
    rw [hs, toInt32_eq_ofInt]
    simp only [valueOf?, ← Int32.ofInt_add]
    rw [show x - size.toInt + size.toInt = x by omega])
  exact ⟨_, .put h he (by simp), get_put_self (by decide)⟩

theorem On.exec_buffer (hl : HasLibrary site y) (h : m.On site a)
    (hi : site.HoldsItem a (.named .addi r ⟨0⟩ site.runtime.bufferLabel)) (hz : m.get ⟨0⟩ = 0)
    (hr : r.Writable) :
    ∃ m', Computes site [r] m (a + 4) m' ∧ m'.get r = Int32.ofInt y := by
  have he := h.exec_named hi hl.buffer
  rw [hz, Int32.zero_add] at he
  exact ⟨_, .put h he (by simp), get_put_self hr⟩

/-! ### A number -/

def Free (r : Register) : Prop := 0 < r.number ∧ r.number < 13

theorem Free.writable (h : Free r) : r.Writable := ⟨h.1, Int64.lt_trans h.2 (by decide)⟩

theorem Free.ne {q : Register} (h : Free r) (hq : ¬ Free q) : q ≠ r := fun he => hq (he ▸ h)

instance (r : Register) : Decidable (Free r) := inferInstanceAs (Decidable (_ ∧ _))

/-- A machine at an address of a function whose frame has the given size: the library can be called
from below the frame. -/
structure ReadyToPrint (site : Site) (size : Int64) (x y : Int) (m : Machine) (a : Nat) : Prop where
  library : HasLibrary site y
  on : m.On site a
  zero : m.get ⟨0⟩ = 0
  stack : m.get ⟨14⟩ = Int32.ofInt x
  room : HasRoom m.memory site.runtime (x - size.toInt) y

theorem ReadyToPrint.after {size : Int64} {m' : Machine} {b : Nat} {t : Int → Prop}
    {text : List UInt8} (h : ReadyToPrint site size x y m a) (hr : Free r)
    (hp : Prints site [r, ⟨13⟩, ⟨15⟩] t m b text m') : ReadyToPrint site size x y m' b where
  library := h.library
  on := hp.on
  zero := (hp.get _ (by simpa using hr.ne (by decide))).trans h.zero
  stack := (hp.get _ (by simpa using hr.ne (by decide))).trans h.stack
  room := h.room.of_size hp.size

def writeCode (rt : Runtime) (r : Register) : Code :=
  plain [.sw rt.valueParam ⟨14⟩ r, .named .addi r ⟨0⟩ rt.bufferLabel, .sw rt.bufferParam ⟨14⟩ r,
    .jl ⟨15⟩ rt.intToString]

def showCode (rt : Runtime) : Code :=
  plain [.sw rt.valueParam ⟨14⟩ ⟨13⟩, .jl ⟨15⟩ rt.printString]

/-- Prints the number in a register of a function whose frame has the given size. -/
def numberCode (rt : Runtime) (size : Int64) (r : Register) : Code :=
  plain [.imm .addi ⟨14⟩ ⟨14⟩ (-size)] ++ (writeCode rt r ++ showCode rt)
    ++ plain [.imm .addi ⟨14⟩ ⟨14⟩ size]

structure Passed (mem : Memory) (rt : Runtime) (z y : Int) (v w : Int32) (mem' : Memory) : Prop where
  size : mem'.size = mem.size
  value : mem'.word (z + rt.valueParam.toInt) = v
  buffer : mem'.word (z + rt.bufferParam.toInt) = w
  byte : ∀ x, 0 ≤ x → ¬ CallBytes rt z y x → mem'.byte x = mem.byte x

theorem HasRoom.passed {mem : Memory} {rt : Runtime} (h : HasRoom mem rt z y) (v w : Int32) :
    Passed mem rt z y v w ((mem.setWord (z + rt.valueParam.toInt) v).setWord
      (z + rt.bufferParam.toInt) w) := by
  have hwords := h.words
  have hbuffer := h.buffer.of_size (Memory.size_setWord mem (z + rt.valueParam.toInt) v)
  refine ⟨by rw [Memory.size_setWord, Memory.size_setWord], ?_, Memory.word_setWord_self _ hbuffer,
    fun x h0 hx => ?_⟩
  · rw [Memory.word_setWord_of_disjoint _ hbuffer h.value.nonneg (by omega)]
    exact Memory.word_setWord_self _ h.value
  · unfold CallBytes at hx
    rw [Memory.byte_setWord_of_ne _ hbuffer h0 (by omega),
      Memory.byte_setWord_of_ne _ h.value h0 (by omega)]

theorem On.exec_writeCode (hl : HasLibrary site y) (hroom : HasRoom m.memory site.runtime z y)
    (h : m.On site a) (hc : site.Holds a (writeCode site.runtime r)) (hz : m.get ⟨0⟩ = 0)
    (hs : m.get ⟨14⟩ = Int32.ofInt z) (hr : Free r) :
    ∃ m', Prints site [r, ⟨13⟩, ⟨15⟩] (CallBytes site.runtime z y) m (a + 16) [] m'
      ∧ m'.get ⟨13⟩ = Int32.ofInt y ∧ m'.memory.Spells y (textBytes (decimal (m.get r).toInt)) := by
  simp only [writeCode, plain, List.map, Site.holds_plain, Item.size_sw, Item.size_named] at hc
  obtain ⟨h1, h2, h3, h4, -⟩ := hc
  obtain ⟨m₁, r1, g1⟩ := h.exec_param (w := [r]) h1 hs hroom.value
  obtain ⟨m₂, c2, v2⟩ := r1.on.exec_buffer hl h2 ((g1 _).trans hz) hr.writable
  have r2 := r1.before c2
  have hbuffer := hroom.buffer.of_size (Memory.size_setWord _ (z + site.runtime.valueParam.toInt)
    (m.get r))
  obtain ⟨m₃, r3, g3⟩ := c2.on.exec_param (w := [r]) h3
    ((r2.get _ (by simpa using hr.ne (by decide))).trans hs) (by rw [r2.memory]; exact hbuffer)
  obtain ⟨m₄, e4, hcall, g4, hmem, hi4, ho4⟩ := r3.on.exec_toRoutine h4 hl.intToString
  have hpassed := hroom.passed (m.get r) (Int32.ofInt y)
  rw [← v2, ← r2.memory, ← r3.memory, ← hmem] at hpassed
  have hget : ∀ q, q ≠ r → q ≠ ⟨15⟩ → m₄.get q = m.get q := fun q hq hq' => by
    rw [g4 q hq', g3, r2.get q (by simpa using hq)]
  obtain ⟨hlen, hnonzero⟩ := textBytes_decimal_word (m.get r)
  obtain ⟨m₅, hret, hresult, hw, hi5, ho5⟩ := hcall.exec_intToString (x := z) (y := y)
    ((hget _ (hr.ne (by decide)) (by decide)).trans hs) (hroom.value.of_size hpassed.size)
    (hroom.buffer.of_size hpassed.size) (hpassed.buffer.trans v2) (by rw [hpassed.value])
    ((hroom.text.of_size hpassed.size).mono (le_refl _) (by omega))
  refine ⟨m₅, ⟨r2.exec.trans (r3.exec.trans (e4.trans hret.exec)), hret.on, ?_, ?_, ?_, ?_, ?_⟩,
    hresult, ?_⟩
  · intro q hq
    simp only [List.mem_cons, List.not_mem_nil, or_false, not_or] at hq
    rw [hret.get q hq.2.1, hget q hq.1 hq.2.2]
  · rw [hw.size, hpassed.size]
  · intro x h0 hx
    rw [hw.byte x h0 (by unfold CallBytes at hx; omega), hpassed.byte x h0 hx]
  · rw [hi5, hi4, r3.input, r2.input]
  · rw [ho5, ho4, r3.output, r2.output, Array.appendList_nil]
  · have hspells := hw.spells
    rwa [hnonzero] at hspells

theorem On.exec_showCode (hl : HasLibrary site y) (hroom : HasRoom m.memory site.runtime z y)
    (h : m.On site a) (hc : site.Holds a (showCode site.runtime))
    (hs : m.get ⟨14⟩ = Int32.ofInt z) (hresult : m.get ⟨13⟩ = Int32.ofInt y) {text : List UInt8}
    (hlen : text.length ≤ 11) (ht : m.memory.Spells y text) :
    ∃ m', Prints site [⟨13⟩, ⟨15⟩] (CallBytes site.runtime z y) m (a + 8) text m' := by
  simp only [showCode, plain, List.map, Site.holds_plain, Item.size_sw] at hc
  obtain ⟨h1, h2, -⟩ := hc
  obtain ⟨m₁, r1, g1⟩ := h.exec_param (w := []) h1 hs hroom.value
  obtain ⟨m₂, e2, hcall, g2, hmem, hi2, ho2⟩ := r1.on.exec_toRoutine h2 hl.printString
  rw [r1.memory] at hmem
  have hsize : m₂.memory.size = m.memory.size := by rw [hmem, Memory.size_setWord]
  have hapart := hroom.apart
  have hpos := hroom.text.nonneg
  have hkept : m₂.memory.Spells y text := by
    refine Memory.spells_congr ht fun x h0 h1 => ?_
    rw [hmem, Memory.byte_setWord_of_ne _ hroom.value (by omega) (by omega)]
  obtain ⟨m₃, hret, hm3, hi3, ho3⟩ := hcall.exec_printString (x := z) (y := y)
    (by rw [g2 _ (by decide), g1, hs]) (hroom.value.of_size hsize)
    (by rw [hmem, Memory.word_setWord_self _ hroom.value, hresult]) hkept
    ((hroom.text.of_size hsize).mono (le_refl _) (by omega))
  refine ⟨m₃, r1.exec.trans (e2.trans hret.exec), hret.on, ?_, by rw [hm3, hsize], ?_, ?_, ?_⟩
  · intro q hq
    simp only [List.mem_cons, List.not_mem_nil, or_false, not_or] at hq
    rw [hret.get q hq.1, g2 q hq.2, g1]
  · intro x h0 hx
    rw [hm3, hmem, Memory.byte_setWord_of_ne _ hroom.value h0 (by unfold CallBytes at hx; omega)]
  · rw [hi3, hi2, r1.input]
  · rw [ho3, ho2, r1.output]

/-- The number in a register is printed, and the stack pointer is back afterwards. -/
theorem ReadyToPrint.exec_numberCode {size : Int64} (h : ReadyToPrint site size x y m a)
    (hc : site.Holds a (numberCode site.runtime size r)) (hr : Free r) :
    ∃ m', Prints site [r, ⟨13⟩, ⟨15⟩] (CallBytes site.runtime (x - size.toInt) y) m
      (a + Code.size (numberCode site.runtime size r)) (textBytes (decimal (m.get r).toInt)) m' := by
  rw [numberCode, Site.holds_append, Site.holds_append, Site.holds_append] at hc
  obtain ⟨⟨hlower, hwrite, hshow⟩, hraise⟩ := hc
  simp only [plain, List.map, Site.holds_plain] at hlower hraise
  obtain ⟨m₁, c1, v1⟩ := h.on.exec_lower hlower.1 h.stack
  have hget : ∀ q, q ≠ ⟨14⟩ → m₁.get q = m.get q := fun q hq => c1.get q (by simpa using hq)
  have hroom := h.room.of_size (congrArg Memory.size c1.memory)
  obtain ⟨m₂, p2, v2, hspells⟩ := c1.on.exec_writeCode h.library hroom hwrite
    ((hget _ (by decide)).trans h.zero) v1 hr
  rw [hget _ (hr.ne (by decide)).symm] at hspells
  have hstack : ∀ {m' m'' : Machine} {b : Nat} {t : Int → Prop} {text : List UInt8},
      Prints site [r, ⟨13⟩, ⟨15⟩] t m' b text m'' → m''.get ⟨14⟩ = m'.get ⟨14⟩ :=
    fun p => p.get _ (by simpa using hr.ne (by decide))
  obtain ⟨m₃, p3⟩ := p2.on.exec_showCode h.library (hroom.of_size p2.size) hshow
    ((hstack p2).trans v1) v2 (textBytes_decimal_word (m.get r)).1 hspells
  have p23 := p2.trans (p3.mono (by simp))
  obtain ⟨m₄, c4, v4⟩ := p3.on.exec_raise hraise.1 ((hstack p23).trans v1)
  have p1 : Prints site [⟨14⟩, r, ⟨13⟩, ⟨15⟩] (CallBytes site.runtime (x - size.toInt) y) m (a + 4) []
      m₁ := (Prints.of_computes c1).mono (by simp)
  have p := p1.trans ((p23.mono (by simp)).trans ((Prints.of_computes c4).mono (by simp)))
  rw [List.nil_append, List.nil_append, List.append_nil] at p
  exact ⟨m₄, p.restore (v4.trans h.stack.symm)⟩

/-! ### Bytes -/

def bytesCode (r : Register) (bytes : List UInt8) : Code :=
  plain <| bytes.flatMap fun b => [.imm .addi r ⟨0⟩ (Int64.ofNat b.toNat), .reg1 .putc r]

/-- What is printed for a byte: the character with the byte as its code point. -/
def shownByte (b : UInt8) : List UInt8 := charBytes (Char.ofNat b.toNat)

set_option maxRecDepth 4000 in
theorem byteAt_ofNat (b : UInt8) : byteAt (Int64.ofNat b.toNat).toInt32 0 = b := by
  have h : ∀ n : Fin 256, byteAt (Int64.ofNat n).toInt32 0 = UInt8.ofNat n := by decide
  have hb := h ⟨b.toNat, b.toNat_lt⟩
  rwa [UInt8.ofNat_toNat] at hb

set_option maxRecDepth 4000 in
theorem shownByte_of_lt {b : UInt8} (h : b < 128) : shownByte b = [b] := by
  have hall : ∀ n : Fin 128, String.utf8EncodeChar (Char.ofNat n) = [UInt8.ofNat n] := by
    decide
  have hb := hall ⟨b.toNat, UInt8.lt_iff_toNat_lt.1 h⟩
  rwa [UInt8.ofNat_toNat, ← charBytes_eq] at hb

set_option maxRecDepth 4000 in
theorem length_shownByte_of_le {b : UInt8} (h : 128 ≤ b) : (shownByte b).length = 2 := by
  have hall : ∀ n : Fin 256, 128 ≤ n.val → (String.utf8EncodeChar (Char.ofNat n)).length = 2 := by
    decide
  have hb := hall ⟨b.toNat, b.toNat_lt⟩ (UInt8.le_iff_toNat_le.1 h)
  rwa [← charBytes_eq] at hb

theorem length_le_flatMap_shownByte (bytes : List UInt8) :
    bytes.length ≤ (bytes.flatMap shownByte).length := by
  induction bytes with
  | nil => simp
  | cons b bytes ih =>
    rw [List.flatMap_cons, List.length_append, List.length_cons]
    by_cases hlt : b < 128
    · rw [shownByte_of_lt hlt, List.length_singleton]
      omega
    · rw [length_shownByte_of_le (UInt8.not_lt.1 hlt)]
      omega

/-- Bytes below 128 are printed as they are, and no others. -/
theorem flatMap_shownByte_eq_iff {bytes : List UInt8} :
    bytes.flatMap shownByte = bytes ↔ ∀ b ∈ bytes, b < 128 := by
  induction bytes with
  | nil => simp
  | cons b bytes ih =>
    rw [List.flatMap_cons, List.forall_mem_cons, ← ih]
    by_cases hlt : b < 128
    · rw [shownByte_of_lt hlt, List.singleton_append, List.cons.injEq]
      simp [hlt]
    · refine ⟨fun h => ?_, fun h => absurd h.1 hlt⟩
      have hlen := congrArg List.length h
      have hle := length_le_flatMap_shownByte bytes
      rw [List.length_append, length_shownByte_of_le (UInt8.not_lt.1 hlt), List.length_cons] at hlen
      omega

theorem flatMap_shownByte_feed : [10].flatMap shownByte = [10] :=
  flatMap_shownByte_eq_iff.2 (by simp)

theorem ReadyToPrint.exec_byte {size : Int64} (h : ReadyToPrint site size x y m a) {b : UInt8}
    (h1 : site.HoldsItem a (.imm .addi r ⟨0⟩ (Int64.ofNat b.toNat)))
    (h2 : site.HoldsItem (a + 4) (.reg1 .putc r)) (hr : Free r) :
    ∃ m', Prints site [r, ⟨13⟩, ⟨15⟩] (CallBytes site.runtime (x - size.toInt) y) m (a + 8)
      (shownByte b) m' := by
  have e1 := h.on.exec_imm (v := (Int64.ofNat b.toNat).toInt32) h1 rfl (by
    rw [h.zero]
    simp [valueOf?])
  have c1 : Computes site [r, ⟨13⟩, ⟨15⟩] m (a + 4) _ := .put h.on e1 (by simp)
  have e2 := c1.on.exec_putc h2
  rw [get_put_self hr.writable, byteAt_ofNat] at e2
  refine ⟨_, c1.exec.trans e2, ⟨c1.on.image, c1.on.runtime, c1.on.running, rfl⟩,
    fun q hq => c1.get q hq, congrArg Memory.size c1.memory,
    fun _ _ _ => congrArg (Memory.byte · _) c1.memory, c1.input, ?_⟩
  show _ ++ _ = _
  rw [c1.output]
  rfl

theorem ReadyToPrint.exec_bytesCode {size : Int64} {bytes : List UInt8}
    (h : ReadyToPrint site size x y m a) (hc : site.Holds a (bytesCode r bytes)) (hr : Free r) :
    ∃ m', Prints site [r, ⟨13⟩, ⟨15⟩] (CallBytes site.runtime (x - size.toInt) y) m
      (a + Code.size (bytesCode r bytes)) (bytes.flatMap shownByte) m' := by
  induction bytes generalizing m a with
  | nil => exact ⟨m, .of_computes (.refl h.on)⟩
  | cons b bytes ih =>
    have hcode : bytesCode r (b :: bytes)
        = plain [.imm .addi r ⟨0⟩ (Int64.ofNat b.toNat), .reg1 .putc r] ++ bytesCode r bytes := rfl
    rw [hcode, Site.holds_append] at hc
    obtain ⟨hb, hrest⟩ := hc
    simp only [plain, List.map, Site.holds_plain, Item.size_imm] at hb
    obtain ⟨m₁, p1⟩ := h.exec_byte hb.1 hb.2.1 hr
    obtain ⟨m₂, p2⟩ := ih (h.after hr p1) hrest
    refine ⟨m₂, ?_⟩
    rw [hcode, size_append, ← Nat.add_assoc]
    exact p1.trans p2

end

end Machine

namespace Emit

open Machine

/-! ### What is emitted -/

variable {c : Context} {k : Counts} {r : Register} {rest : List Register} {size : Int64}

theorem eval_printWord {p : Place} {i : Int64} {code : Code}
    (hr : c.config.registers.reserved = Registers.reserved {})
    (hframe : c.scope.frameSize = .ok size) (hp : k.pool.Sound) (hf : k.pool.free = r :: rest)
    (hload : ∀ s, eval (load r p i) c s = (.ok code, s)) :
    eval (printWord p i) c k = (.ok (code ++ numberCode c.config.runtime size r), k) := by
  simp only [Registers.reserved, List.cons.injEq, Prod.mk.injEq, and_true] at hr
  obtain ⟨hzero, hstack, hresult, hlink⟩ := hr
  unfold printWord
  rw [eval_bind_ok (eval_read c k), eval_bind_ok (by rw [eval_frameSize, hframe]),
    eval_bind_ok (eval_stackPointer c k), eval_bind_ok (eval_zero c k),
    eval_bind_ok (eval_link c k), eval_bind_ok (eval_resultRegister c k)]
  rw [hzero, hstack, hresult, hlink]
  exact eval_withRegister_of_const hp hf fun s => (eval_bind_ok (hload s)).trans (eval_pure ..)

theorem eval_printBytes (hr : c.config.registers.reserved = Registers.reserved {})
    (hp : k.pool.Sound) (hf : k.pool.free = r :: rest) (bytes : List UInt8) :
    eval (printBytes bytes) c k = (.ok (bytesCode r bytes), k) := by
  simp only [Registers.reserved, List.cons.injEq, Prod.mk.injEq, and_true] at hr
  unfold printBytes
  rw [eval_bind_ok (eval_zero c k), hr.1]
  exact eval_withRegister_of_const hp hf fun _ => eval_pure ..

end Emit

end MoonBackend
