import MoonBackend.Assembly.Operand
import MoonBackend.Proofs.Assembly.Lines
import MoonBackend.Proofs.Code.Site

/-!
# Operands read back

The assembler makes of the written operands of an instruction exactly the machine instruction that
`Instruction.encode?` gives, and refuses them when there is none.
-/

namespace MoonBackend.Assembly

open Text

/-- Only identifiers stand for addresses. -/
def Names.Proper (names : Names) : Prop :=
  ∀ s k, names.address? s = some k → isIdentifier s.toList = true

/-! ### Registers -/

theorem toLower_of_isDigit {c : Char} (h : c.isDigit = true) : toLower c = c := by
  have hn := Char.isDigit_iff_toNat.1 h
  have hcodes : '0'.toNat = 48 ∧ '9'.toNat = 57 := by decide
  have hlt : c.toNat < 128 := by omega
  have hup : ¬ (c.val ≥ 'A'.val ∧ c.val ≤ 'Z'.val) := by
    rw [ge_iff_le, UInt32.le_iff_toNat_le]
    intro hu
    have hv : c.val.toNat = c.toNat := rfl
    have hA : 'A'.val.toNat = 65 := by decide
    omega
  unfold toLower
  rw [if_pos hlt, Char.toLower]
  simp only [hup, dite_false]

theorem lower_register (r : Register) : lower r.text = r.text := by
  have hd : (decimal r.number.toInt).toList.map toLower = (decimal r.number.toInt).toList := by
    rw [List.map_congr_left (g := id), List.map_id]
    intro c hc
    rcases mem_decimal hc with hd | rfl
    · exact toLower_of_isDigit hd
    · rfl
  have hr : lower r.text = String.ofList (['r'] ++ (decimal r.number.toInt).toList) := by
    simp only [lower, Register.text, String.toList_append, List.map_append, hd]
    rfl
  rw [hr]
  apply String.toList_inj.1
  simp [Register.text, String.toList_append]

theorem register?_text (r : Register) : register? r.text = r.index? := by
  have ht : (lower r.text).toList = 'r' :: (decimal r.number.toInt).toList := by
    rw [lower_register]
    simp [Register.text, String.toList_append]
  simp only [register?, ht, decimal64?_decimal, Register.index?, Bool.and_eq_true,
    decide_eq_true_eq]

theorem parseRegister_eq_ok {line : Nat} {r : Register} {i : UInt8} :
    parseRegister line r.text = .ok i ↔ r.index? = some i := by
  rw [parseRegister, register?_text]
  cases r.index? with
  | none => simp
  | some j => simp

/-! ### Immediates -/

theorem not_isLetter_of_isDigit {c : Char} (h : c.isDigit = true) :
    isLetter c = false ∧ c ≠ '_' := by
  have hn := Char.isDigit_iff_toNat.1 h
  have hcodes : '0'.toNat = 48 ∧ '9'.toNat = 57 := by decide
  constructor
  · rw [Bool.eq_false_iff]
    intro hl
    simp only [isLetter, Bool.or_eq_true, Bool.and_eq_true, decide_eq_true_eq,
      isAlpha_iff_toNat] at hl
    omega
  · rintro rfl
    exact absurd h (by decide)

theorem digitValue?_of_not_isDigit {c : Char} {d : Nat} (h : c.isDigit = false)
    (hd : digitValue? c = some d) : 10 ≤ d := by
  have hzero : ¬ ('0' ≤ c ∧ c ≤ '9') := by
    intro hc
    have hc' : c.isDigit = true := by
      simpa [Char.isDigit, Char.le_def] using hc
    rw [h] at hc'
    cases hc'
  unfold digitValue? at hd
  rw [if_neg hzero] at hd
  split at hd
  · have := Option.some.inj hd
    omega
  · split at hd
    · have := Option.some.inj hd
      omega
    · cases hd

theorem natLiteral?_identifier {cs : List Char} (h : isIdentifier cs = true) :
    natLiteral? cs = none := by
  cases cs with
  | nil => cases h
  | cons c cs =>
    simp only [isIdentifier, Bool.and_eq_true, Bool.or_eq_true, beq_iff_eq] at h
    have hd : c.isDigit = false := by
      rw [Bool.eq_false_iff]
      intro hd
      obtain ⟨hl, hu⟩ := not_isLetter_of_isDigit hd
      rcases h.1 with hc | hc
      · rw [hl] at hc
        cases hc
      · exact hu hc
    have hzero : c ≠ '0' := by
      rintro rfl
      exact absurd hd (by decide)
    unfold natLiteral?
    by_cases hu : c = '_'
    · -- an underscore in front stands between no digits
      subst hu
      simp [separated, separatedFrom, show Char.isDigit '_' = false from rfl]
    · split
      · rfl
      · split
        · rename_i he
          cases he
        · rename_i he
          exact absurd (List.cons.inj he).1 hzero
        · rename_i he
          exact absurd (List.cons.inj he).1 hzero
        · have hf : (c :: cs).filter (· != '_') = c :: cs.filter (· != '_') :=
            List.filter_cons_of_pos (by simpa using hu)
          simp only [hf, digits?, digitsFrom?]
          cases hv : digitValue? c with
          | none => rfl
          | some d =>
            have hge := digitValue?_of_not_isDigit hd hv
            simp only
            rw [if_neg (by omega)]

theorem literal32?_identifier {cs : List Char} (h : isIdentifier cs = true) :
    literal32? cs = none := by
  have hname := Item.isNameChar_of_isIdentifier h
  have hs : signed? natLiteral? cs = none := by
    unfold signed?
    split
    · exact absurd (hname.2 '-' List.mem_cons_self) (by decide)
    · exact absurd (hname.2 '+' List.mem_cons_self) (by decide)
    · rw [natLiteral?_identifier h]
      rfl
  rw [literal32?, hs]
  rfl

theorem not_isIdentifier_decimal (n : Int) : isIdentifier (decimal n).toList = false := by
  cases n with
  | ofNat k =>
    obtain ⟨c, cs, hcs, hc⟩ := toDigits_head_isDigit k
    obtain ⟨hl, hu⟩ := not_isLetter_of_isDigit hc
    simp only [decimal, String.toList_ofList, hcs, isIdentifier, hl, Bool.false_or,
      Bool.and_eq_false_iff]
    left
    simpa using hu
  | negSucc k =>
    simp only [decimal, String.toList_ofList, isIdentifier]
    rfl

theorem parseImmediate_eq_ok {names : Names} {line : Nat} {k : Operand} {v : Int32}
    (hn : names.Proper) (hk : ∀ s, k = .name s → isIdentifier s.toList = true) :
    parseImmediate names line k.text = .ok v ↔ k.value? names = some v := by
  cases k with
  | number n =>
    have h0 := n.le_toInt
    have h1 := n.toInt_lt
    simp only [parseImmediate, Operand.text, literal32?_decimal, Operand.value?,
      Int64.le_iff_toInt_le, show (-32768 : Int64).toInt = -32768 from rfl,
      show (65535 : Int64).toInt = 65535 from rfl]
    by_cases hfit : -2 ^ 31 ≤ n.toInt ∧ n.toInt < 2 ^ 31
    · have hv : (Int32.ofInt n.toInt).toInt = n.toInt :=
        Int32.toInt_ofInt_of_le (by omega) (by omega)
      have h32 : n.toInt32 = Int32.ofInt n.toInt := by
        apply Int32.toInt_inj.1
        rw [hv, Int64.toInt_toInt32]
        exact Int.bmod_eq_of_le (by omega) (by omega)
      rw [if_pos hfit]
      simp only [Bool.or_eq_true, decide_eq_true_eq, Int32.lt_iff_toInt_lt, hv, h32,
        show (-32768 : Int32).toInt = -32768 from rfl, show (65535 : Int32).toInt = 65535 from rfl]
      by_cases hr : -32768 ≤ n.toInt ∧ n.toInt ≤ 65535
      · rw [if_neg (by omega), if_pos hr]
        simp
      · rw [if_pos (by omega), if_neg hr]
        simp
    · have hnone : names.address? (decimal n.toInt) = none := by
        cases ha : names.address? (decimal n.toInt) with
        | none => rfl
        | some a =>
          have hid := hn _ _ ha
          rw [not_isIdentifier_decimal] at hid
          cases hid
      rw [if_neg hfit, if_neg (by omega)]
      simp [hnone, not_isIdentifier_decimal]
  | name s =>
    have hid := hk s rfl
    simp only [parseImmediate, Operand.text, literal32?_identifier hid, Operand.value?]
    cases names.address? s with
    | none => simp [hid]
    | some a => simp

/-- The operand is read as the word that it stands for, if there is one. -/
def Names.Reads (names : Names) (k : Operand) : Prop :=
  ∀ line v, parseImmediate names line k.text = .ok v ↔ k.value? names = some v

theorem Names.Proper.reads {names : Names} {k : Operand} (hn : names.Proper)
    (hk : ∀ s, k = .name s → isIdentifier s.toList = true) : names.Reads k :=
  fun _ _ => parseImmediate_eq_ok hn hk

/-! ### Instructions -/

theorem paren_not_mem_operand {k : Operand}
    (hk : ∀ s, k = .name s → isIdentifier s.toList = true) : '(' ∉ k.text.toList := by
  cases k with
  | number n =>
    intro hm
    rcases mem_decimal hm with hd | he
    · exact absurd hd (by decide)
    · exact absurd he (by decide)
  | name s =>
    intro hm
    exact absurd ((Item.isNameChar_of_isIdentifier (hk s rfl)).2 _ hm) (by decide)

theorem takeWhile_append_cons {xs : List Char} {d : Char} (ys : List Char) (h : d ∉ xs) :
    (xs ++ d :: ys).takeWhile (· != d) = xs ∧ (xs ++ d :: ys).dropWhile (· != d) = d :: ys := by
  induction xs with
  | nil => simp
  | cons x xs ih =>
    simp only [List.mem_cons, not_or] at h
    have hx : (x != d) = true := by simpa using Ne.symm h.1
    obtain ⟨h1, h2⟩ := ih h.2
    rw [List.cons_append, List.takeWhile_cons, List.dropWhile_cons, hx]
    simp [h1, h2]

theorem bind_eq_ok {ε α β : Type} {x : Except ε α} {f : α → Except ε β} {b : β} :
    x >>= f = .ok b ↔ ∃ a, x = .ok a ∧ f a = .ok b := by
  cases x with
  | error e => simp [bind, Except.bind]
  | ok a => simp [bind, Except.bind]

theorem parseIndexed_eq_ok {names : Names} {line : Nat} {k : Operand} {r : Register} {v : Int32}
    {i : UInt8} (hr : names.Reads k) (hk : ∀ s, k = .name s → isIdentifier s.toList = true) :
    parseIndexed names line (k.text ++ "(" ++ r.text ++ ")") = .ok (v, i) ↔
      k.value? names = some v ∧ r.index? = some i := by
  have hcs : (k.text ++ "(" ++ r.text ++ ")").toList
      = k.text.toList ++ '(' :: (r.text.toList ++ [')']) := by
    simp [String.toList_append]
  obtain ⟨htake, hdrop⟩ := takeWhile_append_cons (r.text.toList ++ [')'])
    (paren_not_mem_operand hk)
  have hlast : (k.text.toList ++ '(' :: (r.text.toList ++ [')'])).getLast? = some ')' := by
    simp [List.getLast?_append, List.getLast?_cons]
  have hinside : (r.text.toList ++ [')']).dropLast = r.text.toList := by simp
  simp only [parseIndexed, hcs, htake, hdrop, hlast, hinside, String.ofList_toList, bind_eq_ok,
    pure, Except.pure, Except.ok.injEq, Prod.mk.injEq, hr line, parseRegister_eq_ok]
  constructor
  · rintro ⟨v', hv, i', hi, rfl, rfl⟩
    exact ⟨hv, hi⟩
  · rintro ⟨hv, hi⟩
    exact ⟨v, hv, i, hi, rfl, rfl⟩

theorem index?_unused : Item.unused.index? = some 0 := by decide

theorem value?_zero (names : Names) : (Operand.number 0).value? names = some 0 := by rfl

theorem encode?_eq_some_iff {names : Names} {i : Instruction Register Operand}
    {mi : MachineInstruction} :
    i.encode? names = some mi ↔
      mi.op = i.op ∧ i.ri.index? = some mi.ri ∧ i.rj.index? = some mi.rj
        ∧ i.rk.index? = some mi.rk ∧ i.k.value? names = some mi.k := by
  constructor
  · exact Instruction.encode?_eq_some
  · rintro ⟨ho, h1, h2, h3, h4⟩
    simp only [Instruction.encode?, h1, h2, h3, h4, ← ho]

theorem parseInstruction_eq_ok {names : Names} {line : Nat} {i : Instruction Register Operand}
    {mi : MachineInstruction} (hr : names.Reads i.k) (hc : i.Canonical)
    (hk : ∀ s, i.k = .name s → isIdentifier s.toList = true) :
    parseInstruction names line i.op i.operandTexts = .ok mi ↔ i.encode? names = some mi := by
  rw [encode?_eq_some_iff]
  obtain ⟨op, ri, rj, rk, k⟩ := mi
  have hzero := index?_unused
  have hnum := value?_zero names
  unfold Instruction.Canonical at hc
  unfold parseInstruction Instruction.operandTexts
  cases hf : i.op.form <;>
    simp only [hf, bind_eq_ok, pure, Except.pure, Except.ok.injEq, parseRegister_eq_ok, Prod.exists,
      parseIndexed_eq_ok hr hk, hr line, Instruction.mk.injEq] at hc ⊢ <;>
    grind

end MoonBackend.Assembly
