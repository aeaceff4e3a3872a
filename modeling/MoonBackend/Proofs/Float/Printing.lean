import MoonBackend.Proofs.Code.Printing
import MoonBackend.Proofs.Emit.Conventions
import MoonBackend.Proofs.Float.Refinement

/-!
# Printing floats

A float is printed as its mantissa, the separator and its exponent. The numbers come out as their
decimal texts. The separator goes out byte by byte, and each byte is printed as the character that
has it as its code point, so what comes out is the separator itself just when all of it is ASCII.
-/

namespace MoonBackend

open Text Code Machine

def Code.wordCode (rt : Runtime) (size off : Int64) (r : Register) : Code :=
  plain [.lw r off ⟨14⟩] ++ numberCode rt size r

def Code.floatCode (config : Config) (size mantissa exponent : Int64) (r : Register) : Code :=
  wordCode config.runtime size mantissa r
    ++ bytesCode r (textBytes config.emit.floatSeparator)
    ++ wordCode config.runtime size exponent r
    ++ bytesCode r (if config.emit.newline then [10] else [])

namespace Emit

/-! ### What is emitted -/

variable {c : Context} {k : Counts} {r : Register} {rest : List Register} {size : Int64}

theorem eval_wordCode (hr : c.config.registers.reserved = Registers.reserved {})
    (hframe : c.scope.frameSize = .ok size) (hp : k.pool.Sound) (hf : k.pool.free = r :: rest)
    (off i : Int64) :
    eval (printWord (.slot off) i) c k
      = (.ok (wordCode c.config.runtime size (off - i * c.config.sizes.word) r), k) := by
  have hstack : c.config.registers.stackPointer = 14 := by
    simp only [Registers.reserved, List.cons.injEq, Prod.mk.injEq, and_true] at hr
    exact hr.2.1
  refine eval_printWord hr hframe hp hf fun s => ?_
  rw [eval_load_slot, hstack]

theorem eval_write_float {path : Path} {e : Expr} {k' : Counts} {before : Code} {off : Int64}
    (hr : c.config.registers.reserved = Registers.reserved {})
    (hframe : c.scope.frameSize = .ok size) (hfloat : e.type.isFloat = true)
    (hv : eval (value path e) c k = (.ok (before, .slot off), k')) (hp : k'.pool.Sound)
    (hf : k'.pool.free = r :: rest) :
    eval (write path e) c k
      = (.ok (before ++ floatCode c.config size off (off - c.config.sizes.word) r), k') := by
  have hinteger : e.type.isInteger = false := by
    simp only [Ty.isFloat, Ty.isInteger, Bool.and_eq_true, beq_iff_eq] at hfloat ⊢
    rw [hfloat.1]
    rfl
  have hmantissa := eval_wordCode hr hframe hp hf off 0
  have hexponent := eval_wordCode hr hframe hp hf off 1
  rw [Int64.zero_mul, Int64.sub_zero] at hmantissa
  rw [Int64.one_mul] at hexponent
  unfold write
  rw [eval_bind_ok (eval_read c k), eval_bind_ok hv]
  simp only [hinteger, hfloat, Bool.false_eq_true, if_false, if_true]
  rw [eval_bind_ok hmantissa, eval_bind_ok (eval_printBytes hr hp hf _), eval_bind_ok hexponent,
    eval_bind_ok (eval_pure ..)]
  by_cases hnewline : c.config.emit.newline = true
  · rw [if_pos hnewline, eval_bind_ok (eval_printBytes hr hp hf _), floatCode, if_pos hnewline]
    rw [eval_pure, List.append_assoc]
    rfl
  · rw [if_neg hnewline, eval_bind_ok (eval_pure ..), floatCode, if_neg hnewline]
    rw [eval_pure, List.append_assoc]
    rfl

end Emit

namespace Float

open Emit

/-! ### What is printed -/

section
variable {site : Site} {m : Machine} {a : Nat} {r : Register} {x y : Int} {size : Int64}

theorem exec_wordCode {off : Int64} (h : ReadyToPrint site size x y m a)
    (hc : site.Holds a (wordCode site.runtime size off r)) (hr : Free r)
    (hin : m.memory.Inside (x + off.toInt) 4) :
    ∃ m', Prints site [r, ⟨13⟩, ⟨15⟩] (CallBytes site.runtime (x - size.toInt) y) m
      (a + Code.size (wordCode site.runtime size off r))
      (textBytes (decimal (m.memory.word (x + off.toInt)).toInt)) m' := by
  rw [wordCode, Site.holds_append] at hc
  obtain ⟨hload, hnumber⟩ := hc
  simp only [plain, List.map, Site.holds_plain] at hload
  have e1 := h.on.exec_lw hload.1 h.stack hin
  have p1 : Prints site [r, ⟨13⟩, ⟨15⟩] (CallBytes site.runtime (x - size.toInt) y) m (a + 4) [] _ :=
    (Prints.of_computes (.put (w := [r]) h.on e1 (by simp))).mono (by simp)
  obtain ⟨m', p2⟩ := (h.after hr p1).exec_numberCode hnumber hr
  rw [get_put_self hr.writable] at p2
  rw [wordCode, size_append, ← Nat.add_assoc]
  exact ⟨m', p1.trans p2⟩

/-- The exponent is still in its slot when the mantissa and the separator have been printed. -/
theorem exec_floatCode {config : Config} {mantissa exponent : Int64}
    (hrt : site.runtime = config.runtime) (h : ReadyToPrint site size x y m a)
    (hc : site.Holds a (floatCode config size mantissa exponent r)) (hr : Free r)
    (hm : m.memory.Inside (x + mantissa.toInt) 4) (he : m.memory.Inside (x + exponent.toInt) 4)
    (hapart : ∀ i, x + exponent.toInt ≤ i → i < x + exponent.toInt + 4 →
      ¬ CallBytes site.runtime (x - size.toInt) y i) :
    ∃ m', Prints site [r, ⟨13⟩, ⟨15⟩] (CallBytes site.runtime (x - size.toInt) y) m
      (a + Code.size (floatCode config size mantissa exponent r))
      (textBytes (decimal (m.memory.word (x + mantissa.toInt)).toInt)
        ++ (textBytes config.emit.floatSeparator).flatMap shownByte
        ++ textBytes (decimal (m.memory.word (x + exponent.toInt)).toInt)
        ++ if config.emit.newline then [10] else []) m' := by
  rw [floatCode, ← hrt, Site.holds_append, Site.holds_append, Site.holds_append] at hc
  obtain ⟨⟨⟨hfirst, hseparator⟩, hsecond⟩, hending⟩ := hc
  rw [size_append, ← Nat.add_assoc] at hsecond
  rw [size_append, size_append, ← Nat.add_assoc, ← Nat.add_assoc] at hending
  obtain ⟨m₁, p1⟩ := exec_wordCode h hfirst hr hm
  have h1 := h.after hr p1
  obtain ⟨m₂, p2⟩ := h1.exec_bytesCode hseparator hr
  have h2 := h1.after hr p2
  have p12 := p1.trans p2
  obtain ⟨m₃, p3⟩ := exec_wordCode h2 hsecond hr (he.of_size p12.size)
  rw [p12.word he.nonneg hapart] at p3
  obtain ⟨m₄, p4⟩ := (h2.after hr p3).exec_bytesCode hending hr
  have hnewline : (if config.emit.newline then [10] else []).flatMap shownByte
      = if config.emit.newline then [10] else [] := by
    split
    · exact flatMap_shownByte_feed
    · rfl
  rw [hnewline] at p4
  refine ⟨m₄, ?_⟩
  rw [floatCode, ← hrt, size_append, size_append, size_append, ← Nat.add_assoc, ← Nat.add_assoc,
    ← Nat.add_assoc]
  exact (p12.trans p3).trans p4

end

theorem textBytes_text (v : Decimal) : textBytes v.text
    = textBytes (decimal v.mantissa.toInt) ++ textBytes "e" ++ textBytes (decimal v.exponent.toInt) := by
  rw [Decimal.text, textBytes_append, textBytes_append]

/-- The code for a write of a float prints the decimal text of the mantissa, the characters of the
separator's bytes, the decimal text of the exponent and a line feed if one is wanted. What comes out
for the separator is the separator just when it is ASCII; with the stock separator the whole is the
text of the float. -/
theorem write_prints_float {c : Context} {k k' : Counts} {path : Path} {e : Expr} {before : Code}
    {off size : Int64} {r : Register} {rest : List Register}
    (hr : c.config.registers.reserved = Registers.reserved {})
    (hframe : c.scope.frameSize = .ok size) (hfloat : e.type.isFloat = true)
    (hv : eval (value path e) c k = (.ok (before, .slot off), k')) (hp : k'.pool.Stock)
    (hf : k'.pool.free = r :: rest) :
    ∃ code, eval (write path e) c k = (.ok (before ++ code), k')
      ∧ ∀ (site : Site) (a : Nat) (m : Machine) (x y : Int), site.runtime = c.config.runtime →
        site.Holds a code → ReadyToPrint site size x y m a →
        let below := off - c.config.sizes.word
        m.memory.Inside (x + off.toInt) 4 → m.memory.Inside (x + below.toInt) 4 →
        (∀ i, x + below.toInt ≤ i → i < x + below.toInt + 4 →
          ¬ CallBytes site.runtime (x - size.toInt) y i) →
        let v : Decimal := ⟨(m.memory.word (x + off.toInt)).toInt64,
          (m.memory.word (x + below.toInt)).toInt64⟩
        let separator := textBytes c.config.emit.floatSeparator
        let ending := if c.config.emit.newline then [10] else []
        ∃ shown m', Prints site [r, ⟨13⟩, ⟨15⟩] (CallBytes site.runtime (x - size.toInt) y) m
            (a + Code.size code) (textBytes (decimal v.mantissa.toInt) ++ shown
              ++ textBytes (decimal v.exponent.toInt) ++ ending) m'
          ∧ (shown = separator ↔ ∀ b ∈ separator, b < 128)
          ∧ (c.config.emit.floatSeparator = "e" →
            textBytes (decimal v.mantissa.toInt) ++ shown ++ textBytes (decimal v.exponent.toInt)
              = textBytes v.text) := by
  refine ⟨_, eval_write_float hr hframe hfloat hv hp.sound hf, ?_⟩
  intro site a m x y hrt hc hready below hm he hapart v separator ending
  have hfree : Free r := hp.of_mem_free (by rw [hf]; exact List.mem_cons_self)
  obtain ⟨m', hprints⟩ := exec_floatCode hrt hready hc hfree hm he hapart
  refine ⟨separator.flatMap shownByte, m', ?_, flatMap_shownByte_eq_iff, fun hstock => ?_⟩
  · simp only [v, Int32.toInt_toInt64]
    exact hprints
  · have hshown : separator.flatMap shownByte = textBytes "e" := by
      rw [show separator = textBytes "e" from congrArg textBytes hstock]
      rw [show textBytes "e" = [101] by cbv]
      exact flatMap_shownByte_eq_iff.2 (by simp)
    rw [hshown, textBytes_text]

/-! ### Two separators

The float -12345 with exponent 2 is printed with a wide separator that is ASCII, and zero with one
that is not. -/

def shownVariable : Expr := .var "x" ⟨.float, []⟩

def shownContext : Context :=
  let entry : Entry := ⟨.localVar, "x", ⟨.float, []⟩, none, some 8, some 0⟩
  let scope : Scope :=
    { name := "main", owner := .function, parent := none, backing := .expr [] shownVariable,
      entries := [entry], size := some 8 }
  { config := { emit := { floatSeparator := " e " } },
    layout := { table := ⟨⟨[], []⟩, scope, [], [scope]⟩, sizes := {}, entryName := "main" },
    tags := [], index := 0, head := ⟨"main", "", false, [], ⟨.void, []⟩⟩, scope := scope,
    exit := "end" }

def shownCounts : Counts := { pool := .ofNumbers shownContext.config.registers.general }

def shownCode : Code :=
  floatCode shownContext.config 8 0 (-4) ⟨1⟩ ++ [.labeled "buf" (.reserve 20)]

def shownMemory : Memory :=
  .ofData (List.replicate 140 (0 : UInt8) ++ [0, 0, 0, 2, 255, 255, 207, 199]).toArray 148

def shownMachine (image : Image) : Machine :=
  { regs := Machine.stackAt 144
    pc := 0
    memory := shownMemory
    image := image
    runtime := {} }

theorem shownCode_holds : ∃ image,
    Assembly.assemble (Code.text shownCode) (Runtime.symbols {}) = .ok image
      ∧ Site.Holds ⟨image, {}, shownCode.names (Runtime.symbols {})⟩ 0 shownCode := by
  have hread : ∀ l ∈ shownCode, l.Readable := by decide +kernel
  have hnames : ∀ e ∈ Runtime.symbols {}, Assembly.isIdentifier e.1.toList = true := by
    decide
  obtain ⟨image, himage⟩ := Code.exists_assemble hread hnames (by decide +kernel)
    (by decide +kernel) (by decide +kernel) (by decide +kernel)
  exact ⟨image, himage, Code.holds_of_assemble hread hnames himage (by decide +kernel)
    (by decide +kernel)⟩

theorem shownCode_library (image : Image) :
    HasLibrary ⟨image, {}, shownCode.names (Runtime.symbols {})⟩ 104 := by
  have hbuffer : (shownCode.names (Runtime.symbols {})).address? "buf" = some 104 := by
    cbv
  have hwrite : (shownCode.names (Runtime.symbols {})).address? "intstr" = some 65540 := by
    cbv
  have hprint : (shownCode.names (Runtime.symbols {})).address? "putstr" = some 65544 := by
    cbv
  exact ⟨hbuffer, by rw [hwrite]; rfl, by rw [hprint]; rfl⟩

theorem inside_shownMemory {x : Int} {n : Nat} (h0 : 0 ≤ x) (h1 : x + n ≤ 148) :
    shownMemory.Inside x n := by
  have hsize : shownMemory.size = 148 := rfl
  exact ⟨h0, by omega, by omega⟩

theorem shownMemory_room : HasRoom shownMemory {} 136 104 :=
  ⟨inside_shownMemory (by decide) (by decide), inside_shownMemory (by decide) (by decide),
    inside_shownMemory (by decide) (by decide), .inr (by decide), .inl (by decide)⟩

theorem write_prints_float_wide : ∃ image m',
    Assembly.assemble (Code.text shownCode) (Runtime.symbols {}) = .ok image
      ∧ Exec (shownMachine image) m' ∧ m'.output.toList = textBytes "-12345 e 2\n" := by
  obtain ⟨image, himage, hholds⟩ := shownCode_holds
  have hvalue : eval (value [0] shownVariable) shownContext shownCounts
      = (.ok ([], .slot 0), shownCounts) := rfl
  have hframe : shownContext.scope.frameSize = .ok 8 := rfl
  have hpool : shownCounts.pool.Stock := ⟨RegisterPool.sound_ofNumbers (by decide), by decide⟩
  obtain ⟨code, heval, hrun⟩ := write_prints_float rfl hframe rfl hvalue hpool rfl
  have hdirect := eval_write_float rfl hframe rfl hvalue hpool.sound rfl
  have hcode : code = floatCode shownContext.config 8 0 (-4) ⟨1⟩ :=
    List.append_cancel_left (Except.ok.inj (congrArg Prod.fst (heval.symm.trans hdirect)))
  subst hcode
  rw [shownCode, Site.holds_append] at hholds
  obtain ⟨shown, m', hprints, hshown, -⟩ := hrun _ 0 (shownMachine image) 144 104 rfl hholds.1
    ⟨shownCode_library image, ⟨rfl, rfl, rfl, rfl⟩, rfl, rfl, shownMemory_room⟩
    (inside_shownMemory (by decide) (by decide)) (inside_shownMemory (by decide) (by decide)) (by
      intro i h0 h1 hi
      have h0 : 140 ≤ i := h0
      have hi : (128 ≤ i ∧ i < 132) ∨ (124 ≤ i ∧ i < 128) ∨ (104 ≤ i ∧ i < 116) := hi
      omega)
  refine ⟨image, m', himage, hprints.exec, ?_⟩
  have hmemory : (shownMachine image).memory = shownMemory := rfl
  have houtput : (shownMachine image).output = #[] := rfl
  rw [hprints.output, hshown.2 (by decide +kernel), hmemory, houtput]
  decide +kernel

def accented : Config := { runtime := { memorySize := 256 }, emit := { floatSeparator := "\u00e9" } }

def printsUnset : Program :=
  ⟨[], [{ name := "main", className := "", isConstructor := false, params := [], returns := .void,
          body := [.declare ⟨"x", ⟨.float, []⟩⟩ .missing, .write (.var "x" .void)] }]⟩

def printsUnsetCode : Code :=
  [.comment "generated by moonc", .plain .entry, .plain (.named .addi ⟨14⟩ ⟨0⟩ "topaddr"),
    .comment "function main() => void", .comment "frame 8", .comment "write(x)"]
  ++ floatCode accented 8 0 (-4) ⟨1⟩
  ++ [.labeled "end_main1" (.bare .nop), .plain (.bare .hlt), .blank, .comment "data",
    .labeled "buf" (.reserve 20)]

/-- The separator is printed as the two characters that its two bytes are the code points of. -/
theorem accented_separator_differs : accented.validate = .ok ()
    ∧ textBytes accented.emit.floatSeparator = [195, 169]
    ∧ ∃ x, (compile accented printsUnset).1 = .ok x
      ∧ (runAssembly accented x.assembly []).error = none
      ∧ (runAssembly accented x.assembly []).output.toList
        = textBytes (decimal 0) ++ [195, 131, 194, 169] ++ textBytes (decimal 0) ++ [10] := by
  obtain ⟨x, hx, hcode⟩ := compile_of_code? accented printsUnset (· == printsUnsetCode) (by cbv)
  refine ⟨by decide, by cbv, x, hx, ?_⟩
  rw [Compiled.assembly, eq_of_beq hcode, runAssembly_eq, Code.assemble_text (by decide +kernel)]
  decide +kernel

end Float

end MoonBackend
