import MoonBackend.Proofs.Config.Accepted
import MoonBackend.Proofs.Emit.Conventions
import MoonBackend.Proofs.Machine.Routines
import MoonBackend.Proofs.Text.Numeral

/-!
# The buffer of the library

Two routines write into the buffer. The one that reads a line cuts it to the size of the buffer. The
one that writes a number takes as many bytes as the number has characters and one more, whatever
the size is, so it keeps to the buffer if the number fits; every number fits into twelve bytes.
-/

namespace MoonBackend

namespace Machine

open Text

variable {m : Machine}

theorem confined_intToString {v buffer : Int32} (hv : m.param m.runtime.valueParam = .ok v)
    (hb : m.param m.runtime.bufferParam = .ok buffer) :
    m.memory.Confined (m.call .intToString).2.memory buffer.toInt
      ((textBytes (decimal v.toInt)).length + 1) := by
  rw [memory_intToString hv hb]
  exact Memory.confined_putText ..

theorem confined_readString {buffer : Int32} (hv : m.param m.runtime.valueParam = .ok buffer)
    (hsize : 0 < m.runtime.bufferSize) :
    m.memory.Confined (m.call .readString).2.memory buffer.toInt m.runtime.bufferSize.toInt := by
  obtain ⟨hneg, hroom⟩ := room_of_pos (Int64.lt_iff_toInt_lt.1 hsize)
  rw [memory_readString hv hneg]
  refine (Memory.confined_putText ..).mono ?_
  have hlen := List.length_take_le (m.runtime.bufferSize - 1).toNatClampNeg
    (chomp (splitLine m.input).1)
  omega

/-- With an accepted configuration a line of input never changes a byte outside the buffer, and a
number does not if the buffer has twelve bytes or has room for its text with the zero byte. -/
theorem routines_keep_to_buffer {c : Config} (hc : c.validate = .ok ())
    (hm : m.runtime = c.runtime) (buffer : Int32) :
    (m.param c.runtime.valueParam = .ok buffer →
      m.memory.Confined (m.call .readString).2.memory buffer.toInt c.runtime.bufferSize.toInt)
    ∧ ∀ v, m.param c.runtime.valueParam = .ok v → m.param c.runtime.bufferParam = .ok buffer →
      12 ≤ c.runtime.bufferSize
        ∨ ((textBytes (decimal v.toInt)).length : Int) < c.runtime.bufferSize.toInt →
      m.memory.Confined (m.call .intToString).2.memory buffer.toInt c.runtime.bufferSize.toInt := by
  have hsize := (Config.accepted_of_validate hc).buffer
  rw [← hm] at hsize ⊢
  refine ⟨fun hv => confined_readString hv hsize, fun v hv hb hfits => ?_⟩
  refine (confined_intToString hv hb).mono ?_
  rcases hfits with htwelve | hfits
  · have hshort := (textBytes_decimal_word v).1
    have htwelve' := Int64.le_iff_toInt_le.1 htwelve
    rw [show (12 : Int64).toInt = 12 from rfl] at htwelve'
    omega
  · omega

def longestNumberCall : Machine := bufferCall [128, 0, 0, 0] []

def longLineCall : Machine := bufferCall [0, 0, 0, 40] (textBytes "ten green bottles\n")

theorem routines_keep_to_buffer_full :
    Config.validate { runtime := { bufferSize := 12, memorySize := 64 } } = .ok ()
    ∧ longestNumberCall.param (-8) = .ok (-2147483648) ∧ longestNumberCall.param (-12) = .ok 40
    ∧ longestNumberCall.memory.Confined (longestNumberCall.call .intToString).2.memory 40 12
    ∧ longLineCall.param (-8) = .ok 40
    ∧ longLineCall.memory.Confined (longLineCall.call .readString).2.memory 40 12 := by
  have hconfig : Config.validate { runtime := { bufferSize := 12, memorySize := 64 } } = .ok () := by
    decide
  have hvalue : longestNumberCall.param (-8) = .ok (-2147483648) := by decide
  have hbuffer : longestNumberCall.param (-12) = .ok 40 := by decide
  have hline : longLineCall.param (-8) = .ok 40 := by decide
  exact ⟨hconfig, hvalue, hbuffer,
    (routines_keep_to_buffer hconfig rfl 40).2 _ hvalue hbuffer (.inl (by decide)), hline,
    (routines_keep_to_buffer hconfig rfl 40).1 hline⟩

end Machine

open Assembly Machine

/-- A machine whose buffer has one byte. -/
def Config.cramped : Config := { runtime := { memorySize := 128, bufferSize := 1 } }

/-- A program that prints the smallest integer while a variable holds 7. -/
def holdsSeven : Program :=
  ⟨[], [{ name := "main", className := "", isConstructor := false, params := [], returns := .void,
          body := [.declare ⟨"x", .integer⟩ (.int 7), .write (.int (-2147483648)),
            .write (.var "x" .void)] }]⟩

def holdsSevenCode : Code :=
  let print : Code := Code.plain
    [.imm .addi ⟨14⟩ ⟨14⟩ (-4), .sw (-8) ⟨14⟩ ⟨1⟩, .named .addi ⟨1⟩ ⟨0⟩ "buf", .sw (-12) ⟨14⟩ ⟨1⟩,
      .jl ⟨15⟩ "intstr", .sw (-8) ⟨14⟩ ⟨13⟩, .jl ⟨15⟩ "putstr", .imm .addi ⟨14⟩ ⟨14⟩ 4,
      .imm .addi ⟨1⟩ ⟨0⟩ 10, .reg1 .putc ⟨1⟩]
  [.comment "generated by moonc", .plain .entry, .plain (.named .addi ⟨14⟩ ⟨0⟩ "topaddr"),
    .comment "function main() => void", .comment "frame 4", .comment "x := 7",
    .plain (.imm .addi ⟨1⟩ ⟨0⟩ 7), .plain (.sw 0 ⟨14⟩ ⟨1⟩), .comment "write(-2147483648)",
    .plain (.imm .addi ⟨1⟩ ⟨0⟩ (-32768)), .plain (.sl ⟨1⟩ 16), .plain (.imm .ori ⟨1⟩ ⟨1⟩ 0)] ++ print
  ++ [.comment "write(x)", .plain (.lw ⟨1⟩ 0 ⟨14⟩)] ++ print
  ++ [.labeled "end_main1" (.bare .nop), .plain (.bare .hlt), .blank, .comment "data",
    .labeled "buf" (.reserve 1)]

/-- After eleven steps the number is about to be written to the buffer at 116, with the variable at
124, and writing it changes a byte of the variable. -/
def numberOverflows : Bool :=
  match assembleLines (holdsSevenCode.sources 1) Config.cramped.runtime.symbols with
  | .ok image =>
    match ofImage image Config.cramped.runtime [] with
    | .ok m =>
      let m' := (fun m : Machine => m.step.2)^[11] m
      decide (m'.runtime = Config.cramped.runtime
        ∧ m'.runtime.routine? m'.pc = some .intToString ∧ m'.param (-12) = .ok 116
        ∧ image.labels.lookup "buf" = some 116 ∧ m'.memory.word 124 = 7
        ∧ (m'.call .intToString).2.memory[127]? ≠ m'.memory[127]?)
    | .error _ => false
  | .error _ => false

/-- The number is written over the buffer and on over the variable behind it. -/
theorem cramped_number_overflows : Config.cramped.validate = .ok ()
    ∧ ∃ x image m, (compile .cramped holdsSeven).1 = .ok x
      ∧ assemble x.assembly Config.cramped.runtime.symbols = .ok image
      ∧ ofImage image Config.cramped.runtime [] = .ok m
      ∧ let m' := (fun m : Machine => m.step.2)^[11] m
        m'.runtime = Config.cramped.runtime ∧ m'.runtime.routine? m'.pc = some .intToString
          ∧ m'.param (-12) = .ok 116 ∧ image.labels.lookup "buf" = some 116
          ∧ m'.memory.word 124 = 7 ∧ ¬ m'.memory.Confined (m'.call .intToString).2.memory 116 1 := by
  refine ⟨by decide, ?_⟩
  obtain ⟨x, hx, hcode⟩ := compile_of_code? .cramped holdsSeven (· == holdsSevenCode) (by cbv)
  have htext : assemble x.assembly Config.cramped.runtime.symbols
      = assembleLines (holdsSevenCode.sources 1) Config.cramped.runtime.symbols := by
    rw [Compiled.assembly, eq_of_beq hcode, Code.assemble_text (by decide)]
  have hcheck : numberOverflows = true := by decide +kernel
  unfold numberOverflows at hcheck
  split at hcheck
  · rename_i image himage
    split at hcheck
    · rename_i m hm
      obtain ⟨hr, hroutine, hparam, hlabel, hseven, hchanged⟩ := of_decide_eq_true hcheck
      exact ⟨x, image, m, hx, htext.trans himage, hm, hr, hroutine, hparam, hlabel, hseven,
        fun h => hchanged (h.byte 127 (.inr (by decide)))⟩
    · cases hcheck
  · cases hcheck

end MoonBackend
