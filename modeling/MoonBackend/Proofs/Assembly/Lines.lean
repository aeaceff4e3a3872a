import MoonBackend.Assembly.Source
import MoonBackend.Emit.Line
import MoonBackend.Proofs.Text.Numeral

/-!
# Lines read back

A line of code whose parts are tokens is taken apart into the parts that it was written from: its
label, its mnemonic and its operands.
-/

namespace MoonBackend

open Text Assembly

namespace Text

/-! ### Splitting -/

theorem splitFrom_eq (p : Char → Bool) (piece : List Char) (done : List (List Char))
    (cs : List Char) :
    splitFrom p piece done cs = done.reverse ++ splitFrom p piece [] cs := by
  induction cs generalizing piece done with
  | nil => simp [splitFrom]
  | cons c cs ih =>
    unfold splitFrom
    split
    · rw [ih, ih [] [piece.reverse]]
      simp
    · exact ih _ _

theorem splitFrom_clean (p : Char → Bool) (piece xs cs : List Char) (hx : ∀ x ∈ xs, p x = false) :
    splitFrom p piece [] (xs ++ cs) = splitFrom p (xs.reverse ++ piece) [] cs := by
  induction xs generalizing piece with
  | nil => rfl
  | cons x xs ih =>
    have h1 := hx x List.mem_cons_self
    have h2 : ∀ y ∈ xs, p y = false := fun y hy => hx y (List.mem_cons_of_mem _ hy)
    rw [List.cons_append, splitFrom, if_neg (by simp [h1]), ih _ h2]
    simp

theorem splitWhen_clean {p : Char → Bool} {xs : List Char} (hx : ∀ x ∈ xs, p x = false) :
    splitWhen p xs = [xs] := by
  have h := splitFrom_clean p [] xs [] hx
  rw [List.append_nil] at h
  rw [splitWhen, h]
  simp [splitFrom]

theorem splitWhen_append {p : Char → Bool} {xs cs : List Char} {c : Char}
    (hx : ∀ x ∈ xs, p x = false) (hc : p c = true) :
    splitWhen p (xs ++ c :: cs) = xs :: splitWhen p cs := by
  rw [splitWhen, splitFrom_clean p [] xs _ hx, splitFrom, if_pos hc, splitFrom_eq]
  simp [splitWhen]

/-! ### Words -/

@[simp] theorem words_nil : words [] = [] := by decide

theorem words_cons_blank {c : Char} (cs : List Char) (hc : isBlank c = true) :
    words (c :: cs) = words cs := by
  have h : splitWhen isBlank ([] ++ c :: cs) = [] :: splitWhen isBlank cs :=
    splitWhen_append (by simp) hc
  rw [List.nil_append] at h
  rw [words, h]
  rfl

theorem words_replicate (n : Nat) (cs : List Char) :
    words (List.replicate n ' ' ++ cs) = words cs := by
  induction n with
  | zero => rfl
  | succ n ih =>
    rw [List.replicate_succ, List.cons_append, words_cons_blank _ (by decide), ih]

theorem words_token {w : List Char} (hw : ∀ x ∈ w, isBlank x = false) (hne : w ≠ []) :
    words w = [w] := by
  rw [words, splitWhen_clean hw]
  simp [hne]

theorem words_append {w cs : List Char} {c : Char} (hw : ∀ x ∈ w, isBlank x = false)
    (hne : w ≠ []) (hc : isBlank c = true) : words (w ++ c :: cs) = w :: words cs := by
  rw [words, splitWhen_append hw hc, List.filter_cons_of_pos (by simp [hne])]
  rfl

/-! ### Tokens -/

/-- A character that neither ends a token nor starts a comment. -/
def isTokenChar (c : Char) : Bool := !isBlank c && c != '%' && c != ','

/-- A piece of a line that is read back as it was written. -/
def IsToken (s : String) : Prop := s.toList ≠ [] ∧ ∀ c ∈ s.toList, isTokenChar c = true

theorem isTokenChar_iff {c : Char} :
    isTokenChar c = true ↔ isBlank c = false ∧ c ≠ '%' ∧ c ≠ ',' := by
  simp [isTokenChar, and_assoc]

theorem ne_of_not_blank {c : Char} (h : isBlank c = false) : c ≠ '\n' ∧ c ≠ ' ' ∧ c ≠ '\t' := by
  refine ⟨?_, ?_, ?_⟩
  · rintro rfl
    exact absurd h (by decide)
  · rintro rfl
    exact absurd h (by decide)
  · rintro rfl
    exact absurd h (by decide)

def isNameChar (c : Char) : Bool := isLetter c || isDigit c || c == '_'

def wideBlanks : List Nat :=
  [0x85, 0xA0, 0x1680, 0x2000, 0x2001, 0x2002, 0x2003, 0x2004, 0x2005, 0x2006, 0x2007, 0x2008,
    0x2009, 0x200A, 0x2028, 0x2029, 0x202F, 0x205F, 0x3000]

theorem mem_wideBlanks {c : Char} (h : isBlank c = true) (hc : 128 ≤ c.toNat) :
    c.toNat ∈ wideBlanks := by
  simp only [isBlank, Bool.or_eq_true, Bool.and_eq_true, decide_eq_true_eq, beq_iff_eq] at h
  simp only [wideBlanks, List.mem_cons, List.not_mem_nil, or_false]
  omega

theorem inRanges_eq_false {ranges : Array (Nat × Nat)} {n : Nat}
    (h : ranges.toList.all (fun r => Nat.blt n r.1 || Nat.blt r.2 n) = true) :
    inRanges ranges n = false := by
  rw [inRanges, ← Array.any_toList, List.any_eq_false]
  intro r hr
  have hout := List.all_eq_true.1 h r hr
  simp only [Bool.or_eq_true, Nat.blt_eq] at hout
  simp only [Bool.and_eq_true, decide_eq_true_eq]
  omega

theorem wideBlanks_not_letters : ∀ n ∈ wideBlanks,
    letterRanges.toList.all (fun r => Nat.blt n r.1 || Nat.blt r.2 n) = true := by decide +kernel

theorem wideBlanks_not_digits : ∀ n ∈ wideBlanks,
    digitRanges.toList.all (fun r => Nat.blt n r.1 || Nat.blt r.2 n) = true := by decide +kernel

theorem isAlpha_iff_toNat {c : Char} :
    c.isAlpha = true ↔ 65 ≤ c.toNat ∧ c.toNat ≤ 90 ∨ 97 ≤ c.toNat ∧ c.toNat ≤ 122 := by
  simp only [Char.isAlpha, Char.isUpper, Char.isLower, Bool.or_eq_true, Bool.and_eq_true,
    decide_eq_true_eq, ge_iff_le, UInt32.le_iff_toNat_le]
  exact Iff.rfl

theorem isBlank_eq_false_of_isNameChar {c : Char} (h : isNameChar c = true) :
    isBlank c = false := by
  rw [Bool.eq_false_iff]
  intro hb
  simp only [isNameChar, isLetter, isDigit, Bool.or_eq_true, Bool.and_eq_true, decide_eq_true_eq,
    isAlpha_iff_toNat, Char.isDigit_iff_toNat, beq_iff_eq] at h
  have hcodes : '0'.toNat = 48 ∧ '9'.toNat = 57 := by decide
  by_cases hc : 128 ≤ c.toNat
  · have hm := mem_wideBlanks hb hc
    have hl := inRanges_eq_false (wideBlanks_not_letters _ hm)
    have hd := inRanges_eq_false (wideBlanks_not_digits _ hm)
    rcases h with (hletter | hdigit) | rfl
    · rcases hletter with ha | ⟨-, ha⟩
      · omega
      · rw [hl] at ha
        cases ha
    · rcases hdigit with ha | ⟨-, ha⟩
      · omega
      · rw [hd] at ha
        cases ha
    · exact absurd hc (by decide)
  · simp only [isBlank, Bool.or_eq_true, Bool.and_eq_true, decide_eq_true_eq, beq_iff_eq] at hb
    rcases h with (hletter | hdigit) | rfl
    · omega
    · omega
    · exact absurd hb (by decide)

theorem isNameChar_special : ∀ c ∈ ['%', ',', '(', ')', '-', '+'], isNameChar c = false := by
  intro c hc
  simp only [List.mem_cons, List.not_mem_nil, or_false] at hc
  rcases hc with rfl | rfl | rfl | rfl | rfl | rfl <;> rfl

theorem isTokenChar_of_isNameChar {c : Char} (h : isNameChar c = true) : isTokenChar c = true := by
  rw [isTokenChar_iff]
  refine ⟨isBlank_eq_false_of_isNameChar h, ?_, ?_⟩
  · rintro rfl
    exact absurd h (by rw [isNameChar_special '%' (by decide)]; decide)
  · rintro rfl
    exact absurd h (by rw [isNameChar_special ',' (by decide)]; decide)

theorem isNameChar_of_isDigit {c : Char} (h : c.isDigit = true) : isNameChar c = true := by
  simp [isNameChar, isDigit, h]

theorem decimal_ne_nil (n : Int) : (decimal n).toList ≠ [] := by
  cases n with
  | ofNat k => simp [decimal, Nat.toDigits_ne_nil]
  | negSucc k => simp [decimal]

theorem isToken_decimal (n : Int) : IsToken (decimal n) := by
  refine ⟨decimal_ne_nil n, ?_⟩
  intro c hc
  rcases mem_decimal hc with hd | rfl
  · exact isTokenChar_of_isNameChar (isNameChar_of_isDigit hd)
  · decide

/-- Tokens with a comma between two of them. -/
def commaSeparated : List String → List Char
  | [] => []
  | [s] => s.toList
  | s :: t :: rest => s.toList ++ ',' :: commaSeparated (t :: rest)

theorem splitWhen_commaSeparated (s : String) (ss : List String)
    (h : ∀ t ∈ s :: ss, IsToken t) :
    splitWhen (· == ',') (commaSeparated (s :: ss)) = (s :: ss).map String.toList := by
  have hs : ∀ c ∈ s.toList, (c == ',') = false := by
    intro c hc
    have htok := isTokenChar_iff.1 ((h s List.mem_cons_self).2 c hc)
    simpa using htok.2.2
  induction ss generalizing s with
  | nil => exact splitWhen_clean hs
  | cons t ss ih =>
    have ht : ∀ c ∈ t.toList, (c == ',') = false := by
      intro c hc
      have htok := isTokenChar_iff.1 ((h t (by simp)).2 c hc)
      simpa using htok.2.2
    rw [commaSeparated, splitWhen_append hs (by decide),
      ih t (fun u hu => h u (List.mem_cons_of_mem _ hu)) ht]
    rfl

theorem mem_commaSeparated {ss : List String} {c : Char} (h : c ∈ commaSeparated ss) :
    c = ',' ∨ ∃ s ∈ ss, c ∈ s.toList := by
  induction ss with
  | nil => cases h
  | cons s ss ih =>
    cases ss with
    | nil => exact .inr ⟨s, List.mem_cons_self, h⟩
    | cons t ss =>
      simp only [commaSeparated, List.mem_append, List.mem_cons] at h
      rcases h with h | rfl | h
      · exact .inr ⟨s, List.mem_cons_self, h⟩
      · exact .inl rfl
      · rcases ih h with rfl | ⟨u, hu, hc⟩
        · exact .inl rfl
        · exact .inr ⟨u, List.mem_cons_of_mem _ hu, hc⟩

end Text

/-! ### Items -/

def Instruction.operandTexts (i : Instruction Register Operand) : List String :=
  let indexed := i.k.text ++ "(" ++ i.rj.text ++ ")"
  match i.op.form with
  | .none => []
  | .load => [i.ri.text, indexed]
  | .store => [indexed, i.ri.text]
  | .threeRegisters => [i.ri.text, i.rj.text, i.rk.text]
  | .twoRegisters => [i.ri.text, i.rj.text]
  | .immediate => [i.ri.text, i.rj.text, i.k.text]
  | .registerImmediate => [i.ri.text, i.k.text]
  | .oneRegister => [i.ri.text]
  | .immediateOnly => [i.k.text]

/-- The fields that the form of an instruction leaves open are at their defaults. -/
def Instruction.Canonical (i : Instruction Register Operand) : Prop :=
  match i.op.form with
  | .none => i.ri = Item.unused ∧ i.rj = Item.unused ∧ i.rk = Item.unused ∧ i.k = .number 0
  | .load | .store | .immediate => i.rk = Item.unused
  | .threeRegisters => i.k = .number 0
  | .twoRegisters => i.rk = Item.unused ∧ i.k = .number 0
  | .registerImmediate => i.rj = Item.unused ∧ i.rk = Item.unused
  | .oneRegister => i.rj = Item.unused ∧ i.rk = Item.unused ∧ i.k = .number 0
  | .immediateOnly => i.ri = Item.unused ∧ i.rj = Item.unused ∧ i.rk = Item.unused

instance (i : Instruction Register Operand) : Decidable i.Canonical := by
  unfold Instruction.Canonical
  cases i.op.form <;> exact inferInstance

namespace Item

def mnemonic : Item → String
  | .instruction i => i.op.mnemonic
  | .entry => "entry"
  | .reserve _ => "res"

def operandTexts : Item → List String
  | .instruction i => i.operandTexts
  | .entry => []
  | .reserve n => [decimal n.toInt]

def Readable : Item → Prop
  | .instruction i =>
    i.op ∈ Opcode.all ∧ i.Canonical ∧ ∀ s, i.k = .name s → isIdentifier s.toList = true
  | .entry => True
  | .reserve n => 0 ≤ n.toInt ∧ n.toInt < 2 ^ 31

def Spelled : Item → Prop
  | .instruction i => i.op ∈ Opcode.all ∧ ∀ s, i.k = .name s → isIdentifier s.toList = true
  | .entry | .reserve _ => True

theorem Readable.spelled {item : Item} (h : item.Readable) : item.Spelled := by
  cases item with
  | instruction i => exact ⟨h.1, h.2.2⟩
  | entry => trivial
  | reserve n => trivial

instance (k : Operand) : Decidable (∀ s, k = .name s → isIdentifier s.toList = true) :=
  match k with
  | .number _ => isTrue (by simp)
  | .name s => decidable_of_iff (isIdentifier s.toList = true) (by simp)

instance (item : Item) : Decidable item.Readable :=
  match item with
  | .instruction _ => inferInstanceAs (Decidable (_ ∧ _ ∧ _))
  | .entry => isTrue trivial
  | .reserve _ => inferInstanceAs (Decidable (_ ∧ _))

theorem text_toList (item : Item) :
    item.text.toList = item.mnemonic.toList ++
      match item.operandTexts with
      | [] => []
      | s :: ss => ' ' :: commaSeparated (s :: ss) := by
  cases item with
  | instruction i =>
    simp only [text, Instruction.render, mnemonic, operandTexts, Instruction.operandTexts]
    cases i.op.form <;> simp [commaSeparated, String.toList_append]
  | entry => rfl
  | reserve n => simp [text, mnemonic, operandTexts, commaSeparated, String.toList_append]

theorem isToken_of_all {s : String}
    (h : (!s.toList.isEmpty && s.toList.all isTokenChar) = true) : IsToken s := by
  rw [Bool.and_eq_true, List.all_eq_true] at h
  exact ⟨by simpa using h.1, h.2⟩

theorem isToken_mnemonic_opcode {op : Opcode} (h : op ∈ Opcode.all) :
    IsToken op.mnemonic ∧ lower op.mnemonic = op.mnemonic := by
  have htoken : ∀ op ∈ Opcode.all,
      (!op.mnemonic.toList.isEmpty && op.mnemonic.toList.all isTokenChar) = true := by
    decide
  have hlower : ∀ op ∈ Opcode.all, lower op.mnemonic = op.mnemonic := by decide
  exact ⟨isToken_of_all (htoken op h), hlower op h⟩

theorem isToken_mnemonic {item : Item} (h : item.Spelled) :
    IsToken item.mnemonic ∧ lower item.mnemonic = item.mnemonic := by
  cases item with
  | instruction i => exact isToken_mnemonic_opcode h.1
  | entry => exact ⟨isToken_of_all (show _ = true by decide), by decide⟩
  | reserve n =>
    have hlower : lower "res" = "res" := by decide
    exact ⟨isToken_of_all (s := "res") (by decide), hlower⟩

theorem isNameChar_of_isIdentifier {cs : List Char} (h : isIdentifier cs = true) :
    cs ≠ [] ∧ ∀ c ∈ cs, isNameChar c = true := by
  cases cs with
  | nil => cases h
  | cons c cs =>
    simp only [isIdentifier, Bool.and_eq_true, Bool.or_eq_true, List.all_eq_true] at h
    refine ⟨by simp, ?_⟩
    intro d hd
    rcases List.mem_cons.1 hd with rfl | hd
    · rcases h.1 with hl | hu
      · simp [isNameChar, hl]
      · simp [isNameChar, hu]
    · have := h.2 d hd
      simpa [isNameChar] using this

theorem isToken_identifier {s : String} (h : isIdentifier s.toList = true) : IsToken s := by
  obtain ⟨hne, hall⟩ := isNameChar_of_isIdentifier h
  exact ⟨hne, fun c hc => isTokenChar_of_isNameChar (hall c hc)⟩

theorem isToken_register (r : Register) : IsToken r.text := by
  refine ⟨by simp [Register.text, String.toList_append], ?_⟩
  intro c hc
  simp only [Register.text, String.toList_append, List.mem_append] at hc
  rcases hc with hc | hc
  · have he : c = 'r' := by simpa using hc
    subst he
    decide
  · exact (isToken_decimal r.number.toInt).2 c hc

theorem isToken_operand {k : Operand} (h : ∀ s, k = .name s → isIdentifier s.toList = true) :
    IsToken k.text := by
  cases k with
  | number n => exact isToken_decimal n.toInt
  | name s => exact isToken_identifier (h s rfl)

theorem isToken_indexed {k r : String} (hk : IsToken k) (hr : IsToken r) :
    IsToken (k ++ "(" ++ r ++ ")") := by
  refine ⟨by simp [String.toList_append], ?_⟩
  intro c hc
  simp only [String.toList_append, List.mem_append] at hc
  rcases hc with ((hc | hc) | hc) | hc
  · exact hk.2 c hc
  · have he : c = '(' := by simpa using hc
    subst he
    decide
  · exact hr.2 c hc
  · have he : c = ')' := by simpa using hc
    subst he
    decide

theorem isToken_operandTexts {item : Item} (h : item.Spelled) :
    ∀ s ∈ item.operandTexts, IsToken s := by
  cases item with
  | instruction i =>
    have hk := isToken_operand h.2
    have hi := isToken_indexed hk (isToken_register i.rj)
    intro s hs
    simp only [operandTexts, Instruction.operandTexts] at hs
    have hr := isToken_register
    cases hf : i.op.form <;> grind
  | entry =>
    intro s hs
    cases hs
  | reserve n =>
    intro s hs
    simp only [operandTexts, List.mem_cons, List.not_mem_nil, or_false] at hs
    rw [hs]
    exact isToken_decimal n.toInt

theorem commaSeparated_not_blank {ss : List String} (h : ∀ s ∈ ss, IsToken s) :
    ∀ c ∈ commaSeparated ss, isBlank c = false ∧ c ≠ '%' := by
  intro c hc
  rcases mem_commaSeparated hc with rfl | ⟨s, hs, hcs⟩
  · decide
  · have htok := isTokenChar_iff.1 ((h s hs).2 c hcs)
    exact ⟨htok.1, htok.2.1⟩

theorem commaSeparated_ne_nil {s : String} {ss : List String} (h : IsToken s) :
    commaSeparated (s :: ss) ≠ [] := by
  cases ss with
  | nil => exact h.1
  | cons t ss => simp [commaSeparated]

theorem words_text {item : Item} (h : item.Spelled) :
    words item.text.toList = item.mnemonic.toList ::
      match item.operandTexts with
      | [] => []
      | s :: ss => [commaSeparated (s :: ss)] := by
  obtain ⟨hm, -⟩ := isToken_mnemonic h
  have hops := isToken_operandTexts h
  have hblank : ∀ c ∈ item.mnemonic.toList, isBlank c = false :=
    fun c hc => (isTokenChar_iff.1 (hm.2 c hc)).1
  rw [text_toList]
  cases hs : item.operandTexts with
  | nil => simpa using words_token hblank hm.1
  | cons s ss =>
    rw [hs] at hops
    simp only
    rw [words_append hblank hm.1 (by decide),
      words_token (fun c hc => (commaSeparated_not_blank hops c hc).1)
        (commaSeparated_ne_nil (hops s List.mem_cons_self))]

theorem parseOperands_commaSeparated (n : Nat) {s : String} {ss : List String}
    (h : ∀ t ∈ s :: ss, IsToken t) :
    parseOperands n (commaSeparated (s :: ss)) = .ok (s :: ss) := by
  have hne : commaSeparated (s :: ss) ≠ [] := commaSeparated_ne_nil (h s List.mem_cons_self)
  unfold parseOperands
  rw [if_neg (by simpa using hne), splitWhen_commaSeparated s ss h]
  have hany : ((s :: ss).map String.toList).any List.isEmpty = false := by
    rw [List.any_eq_false]
    intro cs hcs
    obtain ⟨t, ht, rfl⟩ := List.mem_map.1 hcs
    simpa using (h t ht).1
  simp only [hany, Bool.false_eq_true, if_false, List.map_map]
  congr 1
  rw [List.map_congr_left (g := id) (fun t _ => by simp), List.map_id]

theorem parseItem_text {item : Item} (h : item.Spelled) (n : Nat) (label : String) :
    parseItem n label (words item.text.toList) =
      .ok ⟨n, label, item.mnemonic, item.operandTexts⟩ := by
  obtain ⟨-, hlow⟩ := isToken_mnemonic h
  have hops := isToken_operandTexts h
  rw [words_text h]
  cases hs : item.operandTexts with
  | nil =>
    simp only [parseItem, List.flatten_nil, String.ofList_toList, hlow]
    rfl
  | cons s ss =>
    rw [hs] at hops
    simp only [parseItem, List.flatten_cons, List.flatten_nil, List.append_nil,
      parseOperands_commaSeparated n hops, String.ofList_toList, hlow]
    rfl

theorem percent_not_mem_text {item : Item} (h : item.Spelled) : '%' ∉ item.text.toList := by
  obtain ⟨hm, -⟩ := isToken_mnemonic h
  have hops := isToken_operandTexts h
  rw [text_toList]
  intro hp
  rcases List.mem_append.1 hp with hp | hp
  · exact absurd (hm.2 _ hp) (by decide)
  · cases hs : item.operandTexts with
    | nil =>
      rw [hs] at hp
      cases hp
    | cons s ss =>
      rw [hs] at hp hops
      rcases List.mem_cons.1 hp with hp | hp
      · exact absurd hp (by decide)
      · exact (commaSeparated_not_blank hops _ hp).2 rfl

end Item

/-! ### Lines -/

namespace Line

/-- A line that is read back as it was written. -/
def Readable : Line → Prop
  | .blank => True
  | .comment s => '\n' ∉ s.toList
  | .plain item => item.Readable
  | .labeled label item => isIdentifier label.toList = true ∧ item.Readable

instance (l : Line) : Decidable l.Readable :=
  match l with
  | .blank => isTrue trivial
  | .comment _ => inferInstanceAs (Decidable (¬ _))
  | .plain item => inferInstanceAs (Decidable item.Readable)
  | .labeled _ _ => inferInstanceAs (Decidable (_ ∧ _))

def Spelled : Line → Prop
  | .blank => True
  | .comment s => '\n' ∉ s.toList
  | .plain item => item.Spelled
  | .labeled label item => isIdentifier label.toList = true ∧ item.Spelled

theorem Readable.spelled {l : Line} (h : l.Readable) : l.Spelled := by
  cases l with
  | blank => trivial
  | comment s => exact h
  | plain item => exact Item.Readable.spelled h
  | labeled label item => exact ⟨h.1, h.2.spelled⟩

def source (n : Nat) : Line → SourceLine
  | .blank => { number := n }
  | .comment _ => { number := n }
  | .plain item => ⟨n, "", item.mnemonic, item.operandTexts⟩
  | .labeled label item => ⟨n, label, item.mnemonic, item.operandTexts⟩

theorem takeWhile_eq_self {cs : List Char} (h : '%' ∉ cs) : cs.takeWhile (· != '%') = cs := by
  induction cs with
  | nil => rfl
  | cons c cs ih =>
    simp only [List.mem_cons, not_or] at h
    have hc : (c != '%') = true := by simpa using Ne.symm h.1
    rw [List.takeWhile_cons, hc, ih h.2]
    rfl

theorem replicate_append_cons (n : Nat) (c : Char) (cs : List Char) :
    List.replicate n c ++ c :: cs = c :: (List.replicate n c ++ cs) := by
  induction n with
  | zero => rfl
  | succ n ih => rw [List.replicate_succ, List.cons_append, ih, List.cons_append]

theorem parseLine_text {l : Line} (h : l.Spelled) (n : Nat) :
    parseLine n l.text.toList = .ok (l.source n) := by
  cases l with
  | blank => rfl
  | comment s =>
    have htake : (Line.comment s).text.toList.takeWhile (· != '%') = List.replicate 16 ' ' := by
      simp [Line.text, spaces, indent, String.toList_append, List.takeWhile]
    have hw := words_replicate 16 []
    rw [List.append_nil, words_nil] at hw
    simp only [parseLine, htake, hw]
    rfl
  | plain item =>
    have hp := Item.percent_not_mem_text h
    have htext : (Line.plain item).text.toList = List.replicate 16 ' ' ++ item.text.toList := by
      simp [Line.text, spaces, indent, String.toList_append]
    have hpc : '%' ∉ (Line.plain item).text.toList := by
      rw [htext]
      simp [hp]
    have hparse := Item.parseItem_text h n ""
    simp only [parseLine, takeWhile_eq_self hpc]
    rw [htext, words_replicate]
    rw [Item.words_text h] at hparse ⊢
    exact hparse
  | labeled label item =>
    obtain ⟨hl, hi⟩ := h
    have hp := Item.percent_not_mem_text hi
    have htok := Item.isToken_identifier hl
    have hblank : ∀ c ∈ label.toList, isBlank c = false :=
      fun c hc => (isTokenChar_iff.1 (htok.2 c hc)).1
    have htext : (Line.labeled label item).text.toList =
        label.toList ++ ' ' :: (List.replicate (15 - label.length) ' ' ++ item.text.toList) := by
      rw [← replicate_append_cons]
      simp [Line.text, padRight, spaces, indent, String.toList_append]
    have hpc : '%' ∉ (Line.labeled label item).text.toList := by
      rw [htext]
      simp only [List.mem_append, List.mem_cons, not_or]
      refine ⟨?_, by decide, by simp, hp⟩
      intro hm
      exact absurd (htok.2 _ hm) (by decide)
    have hwords : words (Line.labeled label item).text.toList
        = label.toList :: words item.text.toList := by
      rw [htext, words_append hblank htok.1 (by decide), words_replicate]
    simp only [parseLine, takeWhile_eq_self hpc, hwords]
    rw [htext]
    cases hcs : label.toList with
    | nil => exact absurd hcs htok.1
    | cons c cs =>
      have hc := ne_of_not_blank (hblank c (hcs ▸ List.mem_cons_self))
      have hspace : (c == ' ' || c == '\t') = false := by simp [hc.2.1, hc.2.2]
      simp only [List.cons_append, hspace, Bool.false_eq_true, if_false]
      rw [← hcs, if_pos hl, String.ofList_toList]
      exact Item.parseItem_text hi n label

theorem newline_not_mem_item {item : Item} (h : item.Spelled) : '\n' ∉ item.text.toList := by
  obtain ⟨hm, -⟩ := Item.isToken_mnemonic h
  have hops := Item.isToken_operandTexts h
  rw [Item.text_toList]
  intro hn
  rcases List.mem_append.1 hn with hn | hn
  · exact absurd (hm.2 _ hn) (by decide)
  · cases hs : item.operandTexts with
    | nil =>
      rw [hs] at hn
      cases hn
    | cons s ss =>
      rw [hs] at hn hops
      rcases List.mem_cons.1 hn with hn | hn
      · exact absurd hn (by decide)
      · exact absurd (Item.commaSeparated_not_blank hops _ hn).1 (by decide)

theorem newline_not_mem_text {l : Line} (h : l.Spelled) : '\n' ∉ l.text.toList := by
  cases l with
  | blank => simp [Line.text]
  | comment s =>
    have hs : '\n' ∉ s.toList := h
    simp [Line.text, spaces, String.toList_append, hs]
  | plain item =>
    have hi : '\n' ∉ item.text.toList := newline_not_mem_item h
    simp [Line.text, spaces, String.toList_append, hi]
  | labeled label item =>
    have hi := newline_not_mem_item h.2
    have hl : '\n' ∉ label.toList := by
      intro hm
      exact absurd ((Item.isToken_identifier h.1).2 _ hm) (by decide)
    simp [Line.text, padRight, spaces, String.toList_append, hi, hl]

end Line

namespace Code

theorem text_cons (l : Line) (c : Code) :
    (text (l :: c)).toList = l.text.toList ++ '\n' :: (text c).toList := by
  rw [text_eq, List.map_cons, String.join_cons, ← text_eq]
  simp [String.toList_append]

/-- The parts of all lines; the text ends with an empty line. -/
def sources (n : Nat) : Code → List SourceLine
  | [] => [{ number := n }]
  | l :: c => l.source n :: sources (n + 1) c

theorem parseLinesFrom_text {c : Code} (h : ∀ l ∈ c, l.Readable) (n : Nat)
    (done : List SourceLine) :
    parseLinesFrom n done (lines (text c).toList) = .ok (done.reverse ++ sources n c) := by
  induction c generalizing n done with
  | nil => simp [text, lines, splitWhen, splitFrom, parseLinesFrom, parseLine, sources]
  | cons l c ih =>
    have hl := (h l List.mem_cons_self).spelled
    have hn : ∀ x ∈ l.text.toList, (x == '\n') = false := by
      intro x hx
      have hne : x ≠ '\n' := fun he => Line.newline_not_mem_text hl (he ▸ hx)
      simpa using hne
    rw [text_cons, lines, splitWhen_append hn (by decide), parseLinesFrom,
      Line.parseLine_text hl]
    simp only
    rw [← lines, ih (fun m hm => h m (List.mem_cons_of_mem _ hm))]
    simp [sources]

theorem parseLines_text {c : Code} (h : ∀ l ∈ c, l.Readable) :
    parseLines (text c) = .ok (sources 1 c) := by
  rw [parseLines, parseLinesFrom_text h]
  rfl

end Code

end MoonBackend
