import MoonBackend.Proofs.Assembly.Image

/-!
# Assembling a listing

A listing has one instruction a line, each written the way the machine writes it. Assembling gives
the instructions back, one at every word from address zero onwards, whatever names are known from
outside: the written form of an instruction mentions none.
-/

namespace MoonBackend

open Text Assembly

namespace MachineInstruction

/-- A known operation on registers of the machine, with an immediate that can be written and zero in
the fields that its form leaves open. -/
structure Regular (i : MachineInstruction) : Prop where
  known : i.op ∈ Opcode.all
  registers : i.ri < 16 ∧ i.rj < 16 ∧ i.rk < 16
  immediate : -32768 ≤ i.k ∧ i.k ≤ 65535
  unused : match i.op.form with
    | .none => i.ri = 0 ∧ i.rj = 0 ∧ i.rk = 0 ∧ i.k = 0
    | .load | .store | .immediate => i.rk = 0
    | .threeRegisters => i.k = 0
    | .twoRegisters => i.rk = 0 ∧ i.k = 0
    | .registerImmediate => i.rj = 0 ∧ i.rk = 0
    | .oneRegister => i.rj = 0 ∧ i.rk = 0 ∧ i.k = 0
    | .immediateOnly => i.ri = 0 ∧ i.rj = 0 ∧ i.rk = 0

/-- The instruction before its registers and its immediate were filled in. -/
def symbolic (i : MachineInstruction) : Instruction Register Operand :=
  ⟨i.op, ⟨Int64.ofNat i.ri.toNat⟩, ⟨Int64.ofNat i.rj.toNat⟩, ⟨Int64.ofNat i.rk.toNat⟩,
    .number i.k.toInt64⟩

theorem text_register (r : UInt8) :
    Register.text ⟨Int64.ofNat r.toNat⟩ = "r" ++ decimal r.toNat := by
  have hr := r.toNat_lt
  rw [Register.text, Int64.toInt_ofNat_of_lt (by omega)]

theorem text_immediate (k : Int32) : (Operand.number k.toInt64).text = decimal k.toInt := by
  rw [Operand.text, Int32.toInt_toInt64]

theorem text_symbolic (i : MachineInstruction) : (Item.instruction i.symbolic).text = i.text := by
  simp only [Item.text, text, Instruction.render, symbolic, text_register, text_immediate]

theorem index?_register {r : UInt8} (h : r < 16) :
    Register.index? ⟨Int64.ofNat r.toNat⟩ = some r := by
  have hlt : r.toNat < 16 := h
  have hn : (Int64.ofNat r.toNat).toInt = r.toNat := Int64.toInt_ofNat_of_lt (by omega)
  have hc : (Int64.ofNat r.toNat).toNatClampNeg = r.toNat :=
    Int64.toNatClampNeg_ofNat_of_lt (by omega)
  have hrange : 0 ≤ Int64.ofNat r.toNat ∧ Int64.ofNat r.toNat < 16 := by
    rw [Int64.le_iff_toInt_le, Int64.lt_iff_toInt_lt, hn, Int64.toInt_zero,
      show (16 : Int64).toInt = 16 from rfl]
    omega
  simp only [Register.index?, if_pos hrange, hc]
  simp

theorem canonical_symbolic {i : MachineInstruction} (h : i.Regular) : i.symbolic.Canonical := by
  have hu := h.unused
  unfold Instruction.Canonical
  simp only [symbolic]
  cases hf : i.op.form <;> simp only [hf] at hu ⊢ <;> simp [hu, Item.unused]

theorem readable_symbolic {i : MachineInstruction} (h : i.Regular) :
    (Item.instruction i.symbolic).Readable := by
  refine ⟨h.known, canonical_symbolic h, ?_⟩
  intro s hs
  cases hs

theorem value?_immediate {names : Names} {k : Int32} (h : -32768 ≤ k ∧ k ≤ 65535) :
    (Operand.number k.toInt64).value? names = some k := by
  have hrange : -32768 ≤ k.toInt64 ∧ k.toInt64 ≤ 65535 := by
    rw [Int32.le_iff_toInt_le, Int32.le_iff_toInt_le] at h
    rw [Int64.le_iff_toInt_le, Int64.le_iff_toInt_le, Int32.toInt_toInt64]
    exact h
  rw [Operand.value?, if_pos hrange, Int32.toInt32_toInt64]

/-- A number that can be written is read before any name is looked up. -/
theorem reads_immediate {names : Names} {k : Int32} (h : -32768 ≤ k ∧ k ≤ 65535) :
    names.Reads (.number k.toInt64) := by
  intro line v
  rw [value?_immediate h, text_immediate, parseImmediate, literal32?_decimal,
    if_pos ⟨k.le_toInt, k.toInt_lt⟩, Int32.ofInt_toInt]
  have hout : (k < -32768 || 65535 < k) = false := by
    simp only [Bool.or_eq_false_iff, decide_eq_false_iff_not, Int32.not_lt]
    exact h
  simp [hout]

theorem encode?_symbolic {names : Names} {i : MachineInstruction} (h : i.Regular) :
    i.symbolic.encode? names = some i := by
  obtain ⟨hi, hj, hk⟩ := h.registers
  rw [encode?_eq_some_iff]
  exact ⟨rfl, index?_register hi, index?_register hj, index?_register hk,
    value?_immediate h.immediate⟩

def row (i : MachineInstruction) : String := " " ++ i.text

def source (n : Nat) (i : MachineInstruction) : SourceLine :=
  ⟨n, "", i.op.mnemonic, i.symbolic.operandTexts⟩

theorem parseLine_row {i : MachineInstruction} (h : i.Regular) (n : Nat) :
    parseLine n i.row.toList = .ok (i.source n) := by
  have hread := readable_symbolic h
  have htext : i.row.toList = ' ' :: (Item.instruction i.symbolic).text.toList := by
    rw [row, String.toList_append, text_symbolic]
    rfl
  have hpercent : '%' ∉ i.row.toList := by
    rw [htext, List.mem_cons, not_or]
    exact ⟨by decide, Item.percent_not_mem_text hread.spelled⟩
  have hitem := Item.parseItem_text hread.spelled n ""
  rw [parseLine, Line.takeWhile_eq_self hpercent, htext, words_cons_blank _ (by decide)]
  rw [Item.words_text hread.spelled] at hitem ⊢
  exact hitem

theorem newline_not_mem_row {i : MachineInstruction} (h : i.Regular) : '\n' ∉ i.row.toList := by
  have hread := readable_symbolic h
  rw [row, String.toList_append, ← text_symbolic, List.mem_append, not_or]
  exact ⟨by decide, Line.newline_not_mem_item hread.spelled⟩

theorem lineSize_source {i : MachineInstruction} (h : i.Regular) (n : Nat) :
    lineSize (i.source n) = .ok 4 := Item.lineSize_eq (readable_symbolic h) n ""

theorem lineStart_source {i : MachineInstruction} (h : i.Regular) (n : Nat) (addr : Int32) :
    lineStart (i.source n) addr = .ok addr := Item.lineStart_eq (readable_symbolic h) n "" addr

theorem line_source {names : Names} {i : MachineInstruction} (h : i.Regular) (n : Nat) {p : Pass}
    (ha : p.address % 4 = 0) : p.line names (i.source n) = .ok (p.withInstruction n i) := by
  apply (Pass.instruction_eq_ok (readable_symbolic h) (reads_immediate h.immediate) n "" p _).2
  exact ⟨i, encode?_symbolic h, ha, rfl⟩

end MachineInstruction

/-! ### Listings -/

/-- The texts with one instruction a line, in which the last line may be ended or not. -/
def IsListing (is : List MachineInstruction) (text : String) : Prop :=
  text = String.join (is.map fun i => i.row ++ "\n") ∨ text = "\n".intercalate (is.map (·.row))

namespace IsListing

section
variable {is : List MachineInstruction} {names : Names}

theorem lines_ended (h : ∀ i ∈ is, i.Regular) :
    lines (String.join (is.map fun i => i.row ++ "\n")).toList
      = is.map (·.row.toList) ++ [[]] := by
  induction is with
  | nil => rfl
  | cons i is ih =>
    have hi : ∀ c ∈ i.row.toList, (c == '\n') = false := by
      intro c hc
      have hne : c ≠ '\n' := fun he =>
        MachineInstruction.newline_not_mem_row (h i List.mem_cons_self) (he ▸ hc)
      simpa using hne
    rw [List.map_cons, String.join_cons, String.toList_append, String.toList_append,
      List.append_assoc, show "\n".toList = ['\n'] from rfl, List.singleton_append, lines,
      splitWhen_append hi (by decide), ← lines, ih fun j hj => h j (List.mem_cons_of_mem _ hj)]
    rfl

theorem lines_separated {i : MachineInstruction} (h : ∀ j ∈ i :: is, j.Regular) :
    lines ("\n".intercalate ((i :: is).map (·.row))).toList = (i :: is).map (·.row.toList) := by
  have hrow : ∀ j ∈ i :: is, ∀ c ∈ j.row.toList, (c == '\n') = false := by
    intro j hj c hc
    have hne : c ≠ '\n' := fun he => MachineInstruction.newline_not_mem_row (h j hj) (he ▸ hc)
    simpa using hne
  induction is generalizing i with
  | nil =>
    rw [List.map_singleton, String.intercalate_singleton, lines,
      splitWhen_clean (hrow i List.mem_cons_self)]
    rfl
  | cons j is ih =>
    rw [List.map_cons, List.map_cons, String.intercalate_cons_cons, String.toList_append,
      String.toList_append, List.append_assoc, show "\n".toList = ['\n'] from rfl,
      List.singleton_append, lines, splitWhen_append (hrow i List.mem_cons_self) (by decide),
      ← lines, ← List.map_cons, ih (fun k hk => h k (List.mem_cons_of_mem _ hk))
        fun k hk => hrow k (List.mem_cons_of_mem _ hk)]
    rfl

theorem lines_eq {text : String} (h : ∀ i ∈ is, i.Regular) (ht : IsListing is text) :
    ∃ rest, (rest = [] ∨ rest = [[]])
      ∧ lines text.toList = is.map (·.row.toList) ++ rest := by
  rcases ht with rfl | rfl
  · exact ⟨_, .inr rfl, lines_ended h⟩
  · cases is with
    | nil => exact ⟨_, .inr rfl, rfl⟩
    | cons i is => exact ⟨_, .inl rfl, by rw [lines_separated h, List.append_nil]⟩

def sources (n : Nat) : List MachineInstruction → List SourceLine
  | [] => []
  | i :: is => i.source n :: sources (n + 1) is

theorem parseLinesFrom_rows (h : ∀ i ∈ is, i.Regular) {rest : List (List Char)}
    (hrest : rest = [] ∨ rest = [[]]) (n : Nat) (done : List SourceLine) :
    ∃ tail, (tail = [] ∨ ∃ m, tail = [{ number := m }])
      ∧ parseLinesFrom n done (is.map (·.row.toList) ++ rest)
        = .ok (done.reverse ++ sources n is ++ tail) := by
  induction is generalizing n done with
  | nil =>
    rcases hrest with rfl | rfl
    · exact ⟨[], .inl rfl, by simp [parseLinesFrom, sources]⟩
    · exact ⟨_, .inr ⟨n, rfl⟩, by simp [parseLinesFrom, parseLine, sources]⟩
  | cons i is ih =>
    obtain ⟨tail, htail, heq⟩ :=
      ih (fun j hj => h j (List.mem_cons_of_mem _ hj)) (n + 1) (i.source n :: done)
    refine ⟨tail, htail, ?_⟩
    rw [List.map_cons, List.cons_append, parseLinesFrom,
      MachineInstruction.parseLine_row (h i List.mem_cons_self)]
    simp only
    rw [heq]
    simp [sources]

theorem collectLabels_sources (h : ∀ i ∈ is, i.Regular) {tail : List SourceLine}
    (htail : tail = [] ∨ ∃ m, tail = [{ number := m }]) (n : Nat) (addr : Int32) :
    collectLabels addr [] (sources n is ++ tail) = .ok [] := by
  induction is generalizing n addr with
  | nil =>
    rcases htail with rfl | ⟨m, rfl⟩
    · rfl
    · rfl
  | cons i is ih =>
    have hi := h i List.mem_cons_self
    have hlabel : addLabel (i.source n) addr [] = .ok [] := rfl
    rw [sources, List.cons_append, collectLabels, MachineInstruction.lineStart_source hi]
    simp only [hlabel, MachineInstruction.lineSize_source hi]
    exact ih (fun j hj => h j (List.mem_cons_of_mem _ hj)) (n + 1) (addr + 4)

/-! ### Addresses -/

/-- Addresses repeat only after the whole range of a word. -/
theorem ofNat_ne_of_close {x y : Nat} (h : x < y) (hd : y < x + 2 ^ 32) :
    Int32.ofNat x ≠ Int32.ofNat y := by
  intro he
  have hn := congrArg (fun v : Int32 => v.toBitVec.toNat) he
  simp only [Int32.toBitVec_ofNat', BitVec.toNat_ofNat] at hn
  omega

/-- What the pass over instructions does that are put at the words from the `a`-th onwards. -/
structure Puts (n a : Nat) (is : List MachineInstruction) (p p' : Pass) : Prop where
  data : p'.image.data = p.image.data
  code : ∀ k i, is[k]? = some i → is.length ≤ k + 2 ^ 30 →
    p'.image.code[Int32.ofNat (4 * (a + k))]? = some i
      ∧ p'.image.lines[Int32.ofNat (4 * (a + k))]? = some (n + k)
  kept : ∀ x, (∀ k < is.length, x ≠ Int32.ofNat (4 * (a + k))) →
    p'.image.code[x]? = p.image.code[x]? ∧ p'.image.lines[x]? = p.image.lines[x]?
  only : ∀ x i, p'.image.code[x]? = some i →
    p.image.code[x]? = some i ∨ ∃ k, x = Int32.ofNat (4 * (a + k)) ∧ is[k]? = some i
  numbered : ∀ x m, p'.image.lines[x]? = some m →
    p.image.lines[x]? = some m
      ∨ ∃ k < is.length, x = Int32.ofNat (4 * (a + k)) ∧ m = n + k

theorem Puts.nil {n a : Nat} {p : Pass} : Puts n a [] p p where
  data := rfl
  code := fun _ _ h => by cases h
  kept := fun _ _ => ⟨rfl, rfl⟩
  only := fun _ _ h => .inl h
  numbered := fun _ _ h => .inl h

theorem Puts.cons {n a : Nat} {i : MachineInstruction} {p p' : Pass}
    (ha : p.address = Int32.ofNat (4 * a)) (h : Puts (n + 1) (a + 1) is (p.withInstruction n i) p') :
    Puts n a (i :: is) p p' := by
  have hcode : ∀ x, (p.withInstruction n i).image.code[x]?
      = if Int32.ofNat (4 * a) = x then some i else p.image.code[x]? := by
    intro x
    show (p.image.code.insert p.address i)[x]? = _
    rw [Std.TreeMap.getElem?_insert, ha]
    simp
  have hlines : ∀ x, (p.withInstruction n i).image.lines[x]?
      = if Int32.ofNat (4 * a) = x then some n else p.image.lines[x]? := by
    intro x
    show (p.image.lines.insert p.address n)[x]? = _
    rw [Std.TreeMap.getElem?_insert, ha]
    simp
  have hshift : ∀ k, 4 * (a + 1 + k) = 4 * (a + (k + 1)) := fun k => by omega
  constructor
  · exact h.data
  · intro k j hk hlen
    rw [List.length_cons] at hlen
    cases k with
    | zero =>
      -- no later instruction comes around to the address of the first one
      have hfirst : ∀ k < is.length, Int32.ofNat (4 * a) ≠ Int32.ofNat (4 * (a + 1 + k)) :=
        fun k hk => ofNat_ne_of_close (by omega) (by omega)
      obtain ⟨h1, h2⟩ := h.kept _ hfirst
      rw [Nat.add_zero, h1, h2, hcode, hlines, if_pos rfl, if_pos rfl]
      exact ⟨hk, rfl⟩
    | succ k =>
      obtain ⟨h1, h2⟩ := h.code k j hk (by omega)
      rw [hshift] at h1 h2
      exact ⟨h1, by rw [h2]; congr 1; omega⟩
  · intro x hx
    have hne : Int32.ofNat (4 * a) ≠ x := fun he => hx 0 (by simp) (by rw [Nat.add_zero]; exact he.symm)
    obtain ⟨h1, h2⟩ := h.kept x fun k hk => by
      rw [hshift]
      exact hx (k + 1) (by simpa using hk)
    rw [h1, h2, hcode, hlines, if_neg hne, if_neg hne]
    exact ⟨rfl, rfl⟩
  · intro x j hx
    rcases h.only x j hx with hx | ⟨k, hxk, hk⟩
    · rw [hcode] at hx
      split at hx
      · rename_i he
        exact .inr ⟨0, by rw [Nat.add_zero]; exact he.symm, hx⟩
      · exact .inl hx
    · exact .inr ⟨k + 1, by rw [← hshift]; exact hxk, hk⟩
  · intro x m hx
    rcases h.numbered x m hx with hx | ⟨k, hk, hxk, hm⟩
    · rw [hlines] at hx
      split at hx
      · rename_i he
        exact .inr ⟨0, by simp, by rw [Nat.add_zero]; exact he.symm, (Option.some.inj hx).symm⟩
      · exact .inl hx
    · exact .inr ⟨k + 1, by simpa using hk, by rw [← hshift]; exact hxk, by omega⟩

theorem exists_puts (h : ∀ i ∈ is, i.Regular) {tail : List SourceLine}
    (htail : tail = [] ∨ ∃ m, tail = [{ number := m }]) {n a : Nat} {p : Pass}
    (ha : p.address = Int32.ofNat (4 * a)) :
    ∃ p', Pass.lines names (sources n is ++ tail) p = .ok p' ∧ Puts n a is p p' := by
  induction is generalizing n a p with
  | nil =>
    rcases htail with rfl | ⟨m, rfl⟩
    · exact ⟨p, rfl, .nil⟩
    · exact ⟨p, rfl, .nil⟩
  | cons i is ih =>
    have hword : p.address % 4 = 0 := by
      rw [ha]
      exact Pass.ofNat_mod_four (by omega)
    have hnext : (p.withInstruction n i).address = Int32.ofNat (4 * (a + 1)) := by
      show p.address + 4 = _
      rw [ha, Nat.mul_add, Int32.ofNat_add]
      rfl
    obtain ⟨p', hp', hputs⟩ := ih (fun j hj => h j (List.mem_cons_of_mem _ hj)) hnext
    refine ⟨p', ?_, hputs.cons ha⟩
    rw [sources, List.cons_append, Pass.lines,
      MachineInstruction.line_source (h i List.mem_cons_self) n hword]
    exact hp'

end

end IsListing

/-- Assembling a listing gives its instructions back: the `k`-th stands at the `k`-th word and is
known to come from line `k + 1`, and there is neither other code nor data nor a label. Memory has
`2 ^ 30` words, so of two instructions that far apart the later one takes the place. -/
theorem assemble_listing {is : List MachineInstruction} {text : String}
    (h : ∀ i ∈ is, i.Regular) (ht : IsListing is text) (symbols : List (String × Int32)) :
    ∃ image, assemble text symbols = .ok image
      ∧ image.data = #[] ∧ image.labels = []
      ∧ (∀ k i, is[k]? = some i → is.length ≤ k + 2 ^ 30 →
        image.code[Int32.ofNat (4 * k)]? = some i
          ∧ image.lines[Int32.ofNat (4 * k)]? = some (k + 1))
      ∧ (∀ x i, image.code[x]? = some i → ∃ k, x = Int32.ofNat (4 * k) ∧ is[k]? = some i)
      ∧ ∀ x n, image.lines[x]? = some n →
        ∃ k < is.length, x = Int32.ofNat (4 * k) ∧ n = k + 1 := by
  obtain ⟨rest, hrest, hlines⟩ := ht.lines_eq h
  obtain ⟨tail, htail, hparse⟩ := IsListing.parseLinesFrom_rows h hrest 1 []
  have hsource : parseLines text = .ok (IsListing.sources 1 is ++ tail) := by
    rw [parseLines, hlines, hparse]
    rfl
  have hlabels := IsListing.collectLabels_sources h htail 1 0
  obtain ⟨p, hp, hputs⟩ :
      ∃ p, Pass.lines ⟨[], symbols⟩ (IsListing.sources 1 is ++ tail) {} = .ok p
        ∧ IsListing.Puts 1 0 is {} p := IsListing.exists_puts h htail rfl
  refine ⟨{ p.image with labels := [] }, ?_, hputs.data, rfl, ?_, ?_, ?_⟩
  · simp only [assemble, hsource, hlabels, hp, bind, Except.bind, pure, Except.pure]
  · intro k i hk hlen
    have := hputs.code k i hk hlen
    rwa [Nat.zero_add, Nat.add_comm 1 k] at this
  · intro x i hx
    rcases hputs.only x i hx with hx | ⟨k, hxk, hk⟩
    · simp at hx
    · rw [Nat.zero_add] at hxk
      exact ⟨k, hxk, hk⟩
  · intro x n hx
    rcases hputs.numbered x n hx with hx | ⟨k, hk, hxk, hn⟩
    · simp at hx
    · rw [Nat.zero_add] at hxk
      exact ⟨k, hk, hxk, by omega⟩

/-- Instructions of several forms, one of them with the largest immediate. -/
def shortListing : List MachineInstruction :=
  [⟨.addi, 1, 0, 0, -5⟩, ⟨.sw, 1, 14, 0, -32768⟩, ⟨.bz, 1, 0, 0, 65535⟩, ⟨.hlt, 0, 0, 0, 0⟩]

theorem assemble_shortListing :
    ∃ image,
      assemble " addi r1,r0,-5\n sw -32768(r14),r1\n bz r1,65535\n hlt" [("r1", 8)] = .ok image
      ∧ image.data = #[] ∧ image.labels = []
      ∧ image.code[(4 : Int32)]? = some ⟨.sw, 1, 14, 0, -32768⟩
      ∧ image.code[(8 : Int32)]? = some ⟨.bz, 1, 0, 0, 65535⟩
      ∧ image.lines[(8 : Int32)]? = some 3 := by
  have hregular : ∀ i ∈ shortListing, i.Regular := by
    intro i hi
    simp only [shortListing, List.mem_cons, List.not_mem_nil, or_false] at hi
    rcases hi with rfl | rfl | rfl | rfl
    · exact ⟨by decide, by decide, by decide, rfl⟩
    · exact ⟨by decide, by decide, by decide, rfl⟩
    · exact ⟨by decide, by decide, by decide, rfl, rfl⟩
    · exact ⟨by decide, by decide, by decide, rfl, rfl, rfl, rfl⟩
  have hlisting : IsListing shortListing
      " addi r1,r0,-5\n sw -32768(r14),r1\n bz r1,65535\n hlt" := .inr (by decide)
  obtain ⟨image, himage, hdata, hlabels, hcode, -⟩ :=
    assemble_listing hregular hlisting [("r1", 8)]
  exact ⟨image, himage, hdata, hlabels, (hcode 1 _ rfl (by decide)).1, hcode 2 _ rfl (by decide)⟩

end MoonBackend
