import MoonBackend.Proofs.Assembly.Mirror
import MoonBackend.Proofs.Assembly.Operands
import MoonBackend.Proofs.Emit.Mirror

/-!
# The text of mirrored code

Comments on one line are idle lines of the text, and lines that mirror each other are read as lines
that ask for the same up to a renaming of registers. So the texts of code that mirrors other code are
both refused, or make images whose instructions are renamed one by one.
-/

namespace MoonBackend

open Text Assembly

theorem Text.lines_append (xs ys : List Char) :
    lines (xs ++ '\n' :: ys) = lines xs ++ lines ys := by
  have h : ∀ piece, splitFrom (· == '\n') piece [] (xs ++ '\n' :: ys)
      = splitFrom (· == '\n') piece [] xs ++ splitFrom (· == '\n') [] [] ys := by
    induction xs with
    | nil =>
      intro piece
      simp only [List.nil_append, splitFrom, beq_self_eq_true, if_true]
      exact splitFrom_eq _ _ _ _
    | cons x xs ih =>
      intro piece
      rw [List.cons_append, splitFrom, splitFrom]
      split
      · rw [splitFrom_eq, ih, splitFrom_eq _ [] [piece.reverse] xs, List.append_assoc]
      · exact ih _
  exact h []

theorem Code.lines_text_cons (l : Line) (c : Code) :
    lines (text (l :: c)).toList = lines l.text.toList ++ lines (text c).toList := by
  rw [text_cons, lines_append]

theorem Line.idle_comment {s : String} (h : OneLine s) :
    ∃ raw, lines (Line.comment s).text.toList = [raw] ∧ IdleText raw := by
  have hr : (Line.comment s).Spelled := h
  refine ⟨(Line.comment s).text.toList, splitWhen_clean fun x hx => ?_, fun n => parseLine_text hr n⟩
  have hne : x ≠ '\n' := fun he => newline_not_mem_text hr (he ▸ hx)
  simpa using hne

/-- Texts of code mirror each other when the lines other than comments do, and comments stand on one
line each. -/
theorem Code.mirrorTexts {I : MachineInstruction → MachineInstruction → Prop} {R : Line → Line → Prop}
    (hR : ∀ l m, R l m → MirrorTexts I (lines l.text.toList) (lines m.text.toList)) {c d : Code}
    (h : List.Forall₂ R c.uncommented d.uncommented) (hc : c.Legible) (hd : d.Legible) :
    MirrorTexts I (lines c.text.toList) (lines d.text.toList) := by
  induction c generalizing d with
  | nil =>
    induction d with
    | nil => exact .cons (fun n m => .ok ⟨rfl, rfl, fun _ => rfl, fun op hop => by cases hop⟩) .nil
    | cons m d ih =>
      cases m with
      | comment s =>
        obtain ⟨raw, hraw, hidle⟩ := Line.idle_comment (hd s List.mem_cons_self)
        rw [lines_text_cons, hraw]
        exact .right hidle (ih h fun t ht => hd t (List.mem_cons_of_mem _ ht))
      | _ => cases h
  | cons l c ih =>
    have hc' : Legible c := fun t ht => hc t (List.mem_cons_of_mem _ ht)
    cases l with
    | comment s =>
      obtain ⟨raw, hraw, hidle⟩ := Line.idle_comment (hc s List.mem_cons_self)
      rw [lines_text_cons, hraw]
      exact .left hidle (ih h hc' hd)
    | _ =>
      -- the line pairs with the first line of the other code that is no comment
      induction d with
      | nil => cases h
      | cons m d ih' =>
        have hd' : Legible d := fun t ht => hd t (List.mem_cons_of_mem _ ht)
        cases m with
        | comment s =>
          obtain ⟨raw, hraw, hidle⟩ := Line.idle_comment (hd s List.mem_cons_self)
          rw [lines_text_cons _ d, hraw]
          exact .right hidle (ih' hd' h)
        | _ =>
          obtain ⟨hlm, hrest⟩ := List.forall₂_cons.1 h
          rw [lines_text_cons, lines_text_cons]
          exact (hR _ _ hlm).append (ih hrest hc' hd')

/-! ### Lines with other registers -/

theorem Opcode.sets_of_form {op : Opcode} (h : op.form = .none ∨ op.form = .immediateOnly) :
    op.sets = false := by
  cases op <;> simp_all [form]

theorem Opcode.mem_all_of_isDefined {op : Opcode} (h : op.isDefined = true) : op ∈ all := by
  cases op with
  | undefined code => cases h
  | _ => decide

theorem Assembly.parseIndexed_text {names : Names} {n : ℕ} {k : Operand} {r : Register}
    (hk : ∀ s, k = .name s → isIdentifier s.toList = true) :
    parseIndexed names n (k.text ++ "(" ++ r.text ++ ")") = (do
      let v ← parseImmediate names n k.text
      let x ← parseRegister n r.text
      return (v, x)) := by
  have hcs : (k.text ++ "(" ++ r.text ++ ")").toList
      = k.text.toList ++ '(' :: (r.text.toList ++ [')']) := by
    simp [String.toList_append]
  obtain ⟨htake, hdrop⟩ := takeWhile_append_cons (r.text.toList ++ [')']) (paren_not_mem_operand hk)
  have hlast : (k.text.toList ++ '(' :: (r.text.toList ++ [')'])).getLast? = some ')' := by
    simp [List.getLast?_append, List.getLast?_cons]
  have hinside : (r.text.toList ++ [')']).dropLast = r.text.toList := by simp
  simp only [parseIndexed, hcs, htake, hdrop, hlast, hinside, String.ofList_toList]

/-- What stands for each other in emission stands for each other in the machine, and all names are
words. -/
structure Pairing.Realizes {a b : Config} (P : Pairing a b) (f : Renaming) : Prop where
  worded : P.worded
  writes : ∀ {r s}, P.writes r s → ∃ x y, r.index? = some x ∧ s.index? = some y ∧ f.pairs x y
  reads : ∀ {r s}, P.reads r s → ∃ x y, r.index? = some x ∧ s.index? = some y ∧ f.Stands x y

namespace Pairing.Realizes

variable {a b : Config} {P : Pairing a b} {f : Renaming} (h : P.Realizes f)

include h

theorem register {r s : Register} (hrs : P.reads r s) :
    ∃ x y, (∀ line, parseRegister line r.text = .ok x) ∧ (∀ line, parseRegister line s.text = .ok y)
      ∧ f.Stands x y ∧ (P.writes r s → f.pairs x y) := by
  obtain ⟨x, y, hx, hy, hxy⟩ := h.reads hrs
  refine ⟨x, y, fun _ => parseRegister_eq_ok.2 hx, fun _ => parseRegister_eq_ok.2 hy, hxy, fun hw => ?_⟩
  obtain ⟨x', y', hx', hy', hp⟩ := h.writes hw
  rw [hx] at hx'
  rw [hy] at hy'
  cases hx'
  cases hy'
  exact hp

theorem indexed (names : Names) (n m : ℕ) {k : Operand} {r s : Register} (hrs : P.reads r s)
    (hk : ∀ s, k = .name s → isIdentifier s.toList = true) :
    Alike (fun u v : Int32 × UInt8 => u.1 = v.1 ∧ f.Stands u.2 v.2)
      (parseIndexed names n (k.text ++ "(" ++ r.text ++ ")"))
      (parseIndexed names m (k.text ++ "(" ++ s.text ++ ")")) := by
  obtain ⟨x, y, hx, hy, hxy, -⟩ := h.register hrs
  rw [parseIndexed_text hk, parseIndexed_text hk, hx, hy]
  refine (parseImmediate_alike names n m k.text).bind fun v w hvw => ?_
  exact .ok ⟨hvw, hxy⟩

/-- Instructions that mirror each other are both refused, or read as renamed ones. -/
theorem instruction (names : Names) (n m : ℕ) {i j : Instruction Register Operand}
    (hij : (Item.instruction i).Mirrors P (.instruction j)) :
    Alike (MachineInstruction.Renamed f) (parseInstruction names n i.op i.operandTexts)
      (parseInstruction names m j.op j.operandTexts) := by
  obtain ⟨hop, hk, hsets, hi, hj, hk', -, hname⟩ := hij
  have hident : ∀ s, i.k = .name s → isIdentifier s.toList = true := fun s hs => hname s hs h.worded
  obtain ⟨x, x', hx, hx', hi, hpair⟩ := h.register hi
  have hindexed := h.indexed names n m hj hident
  obtain ⟨y, y', hy, hy', hj, -⟩ := h.register hj
  obtain ⟨z, z', hz, hz', hk', -⟩ := h.register hk'
  have hzero := f.stands_zero
  have hset : i.op.sets = true → f.pairs x x' := fun ho => hpair (hsets ho)
  have himm := parseImmediate_alike names n m i.k.text
  unfold parseInstruction Instruction.operandTexts
  rw [← hop, ← hk]
  cases hf : i.op.form
  case none =>
    have hnone : i.op.sets ≠ true := by rw [Opcode.sets_of_form (.inl hf)]; exact Bool.false_ne_true
    exact .ok ⟨rfl, rfl, fun ho => absurd ho hnone, hzero, hzero, hzero⟩
  case immediateOnly =>
    have hnone : i.op.sets ≠ true := by rw [Opcode.sets_of_form (.inr hf)]; exact Bool.false_ne_true
    exact himm.bind fun v w hvw => .ok ⟨rfl, hvw, fun ho => absurd ho hnone, hzero, hzero, hzero⟩
  case load =>
    simp only [hx, hx']
    exact hindexed.bind fun u v huv => .ok ⟨rfl, huv.1, hset, hi, huv.2, hzero⟩
  case store =>
    refine hindexed.bind fun u v huv => ?_
    simp only [hx, hx']
    exact .ok ⟨rfl, huv.1, hset, hi, huv.2, hzero⟩
  case threeRegisters =>
    simp only [hx, hx', hy, hy', hz, hz']
    exact .ok ⟨rfl, rfl, hset, hi, hj, hk'⟩
  case twoRegisters =>
    simp only [hx, hx', hy, hy']
    exact .ok ⟨rfl, rfl, hset, hi, hj, hzero⟩
  case immediate =>
    simp only [hx, hx', hy, hy']
    exact himm.bind fun v w hvw => .ok ⟨rfl, hvw, hset, hi, hj, hzero⟩
  case registerImmediate =>
    simp only [hx, hx']
    exact himm.bind fun v w hvw => .ok ⟨rfl, hvw, hset, hi, hzero, hzero⟩
  case oneRegister =>
    simp only [hx, hx']
    exact .ok ⟨rfl, rfl, hset, hi, hzero, hzero⟩

theorem spelled {i j : Item} (hij : i.Mirrors P j) : i.Spelled ∧ j.Spelled := by
  cases i with
  | instruction i =>
    cases j with
    | instruction j =>
      obtain ⟨hop, hk, -, -, -, -, hdef, hname⟩ := hij
      have hall := Opcode.mem_all_of_isDefined hdef
      have hident : ∀ s, i.k = .name s → isIdentifier s.toList = true := fun s hs => hname s hs h.worded
      exact ⟨⟨hall, hident⟩, ⟨hop ▸ hall, hk ▸ hident⟩⟩
    | _ => cases hij
  | entry =>
    cases j with
    | entry => exact ⟨trivial, trivial⟩
    | _ => cases hij
  | reserve m =>
    cases j with
    | reserve n => exact ⟨trivial, trivial⟩
    | _ => cases hij

theorem source {i j : Item} (hij : i.Mirrors P j) (label : String) (n m : ℕ) :
    SourceLine.Mirrors (MachineInstruction.Renamed f) ⟨n, label, i.mnemonic, i.operandTexts⟩
      ⟨m, label, j.mnemonic, j.operandTexts⟩ := by
  cases i with
  | instruction i =>
    cases j with
    | instruction j =>
      have hall := (h.spelled hij).1.1
      have hparse : Opcode.parse? i.op.mnemonic = some i.op := Opcode.parse?_mnemonic i.op hall
      refine ⟨rfl, congrArg Opcode.mnemonic hij.1, fun hno => ?_, fun op hop names => ?_⟩
      · rw [show Opcode.parse? (Item.instruction i).mnemonic = some i.op from hparse] at hno
        cases hno
      · rw [show Opcode.parse? (Item.instruction i).mnemonic = some i.op from hparse] at hop
        cases hop
        have halike := h.instruction names n m hij
        rw [← hij.1] at halike
        exact halike
    | _ => cases hij
  | entry =>
    cases j with
    | entry => exact ⟨rfl, rfl, fun _ => rfl, fun op hop => by cases hop⟩
    | _ => cases hij
  | reserve k =>
    cases j with
    | reserve k' =>
      obtain rfl : k = k' := hij
      exact ⟨rfl, rfl, fun _ => rfl, fun op hop => by cases hop⟩
    | _ => cases hij

theorem mirrorTexts {l m : Line} (hlm : l.Mirrors P m) :
    MirrorTexts (MachineInstruction.Renamed f) (lines l.text.toList) (lines m.text.toList) := by
  have hone : ∀ x : Line, x.Spelled → lines x.text.toList = [x.text.toList] := fun x hx =>
    splitWhen_clean fun c hc => by
      have hne : c ≠ '\n' := fun he => Line.newline_not_mem_text hx (he ▸ hc)
      simpa using hne
  have hboth : l.Spelled ∧ m.Spelled ∧ ∀ n k,
      SourceLine.Mirrors (MachineInstruction.Renamed f) (l.source n) (m.source k) := by
    cases hlm with
    | blank => exact ⟨trivial, trivial, fun n k => ⟨rfl, rfl, fun _ => rfl, fun op hop => by cases hop⟩⟩
    | plain hij => exact ⟨(h.spelled hij).1, (h.spelled hij).2, h.source hij ""⟩
    | labeled hlabel hij =>
      exact ⟨⟨hlabel h.worded, (h.spelled hij).1⟩, ⟨hlabel h.worded, (h.spelled hij).2⟩,
        h.source hij _⟩
  obtain ⟨hl, hm, hsource⟩ := hboth
  rw [hone l hl, hone m hm]
  refine .cons (fun n k => ?_) .nil
  rw [Line.parseLine_text hl, Line.parseLine_text hm]
  exact .ok (hsource n k)

/-- Code that mirrors other code is refused with it, or makes an image of renamed instructions. -/
theorem assemble {c d : Code} (hcd : c.Mirrors P d) (hn : P.named) (symbols : List (String × Int32)) :
    Alike (ImageMirrors (MachineInstruction.Renamed f)) (Assembly.assemble c.text symbols)
      (Assembly.assemble d.text symbols) := by
  obtain ⟨hc, hd⟩ := hcd.legible hn
  exact assemble_mirrors (Code.mirrorTexts (fun _ _ => h.mirrorTexts) hcd.lines hc hd) symbols

end Pairing.Realizes

end MoonBackend
