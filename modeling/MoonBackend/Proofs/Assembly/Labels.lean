import MoonBackend.Assembly.Assemble
import MoonBackend.Proofs.Assembly.Operands

/-!
# The first pass

The addresses that the assembler gives to the labels of readable code are those of their lines, and
it accepts the code exactly when no label stands twice.
-/

namespace MoonBackend

open Text Assembly

/-! ### Mnemonics -/

theorem Opcode.mnemonic_not_directive : ∀ op ∈ Opcode.all,
    op.mnemonic ∉ ["", "entry", "org", "align", "dw", "db", "res"] := by decide

theorem reserved_eq {k : Int64} {l : SourceLine} (h : (Item.reserve k).Readable)
    (hl : l.operands = [decimal k.toInt]) : reserved l = .ok (Int32.ofNat (Item.reserve k).size) := by
  obtain ⟨h0, h1⟩ := h
  have hlit : literal32? (decimal k.toInt).toList = some (Int32.ofInt k.toInt) := by
    rw [literal32?_decimal, if_pos ⟨by omega, h1⟩]
  have hneg : ¬ Int32.ofInt k.toInt < 0 := by
    rw [Int32.lt_iff_toInt_lt, Int32.toInt_ofInt_of_le (by omega) (by omega)]
    exact Int.not_lt.2 h0
  have hnat : Int32.ofInt k.toInt = Int32.ofNat k.toNatClampNeg := by
    rw [← Int64.toNat_toInt, ← Int32.ofInt_eq_ofNat]
    congr 1
    omega
  unfold reserved
  rw [hl]
  simp only [hlit]
  rw [if_neg hneg, hnat]
  rfl

theorem Item.lineSize_eq {item : Item} (h : item.Readable) (n : Nat) (label : String) :
    lineSize ⟨n, label, item.mnemonic, item.operandTexts⟩ = .ok (Int32.ofNat item.size) := by
  cases item with
  | instruction i =>
    have hd := Opcode.mnemonic_not_directive i.op h.1
    have hp := Opcode.parse?_mnemonic i.op h.1
    simp only [List.mem_cons, List.not_mem_nil, or_false, not_or] at hd
    simp [lineSize, Item.mnemonic, hd, hp, Item.size]
  | entry => rfl
  | reserve k =>
    have hres : lineSize ⟨n, label, (Item.reserve k).mnemonic, (Item.reserve k).operandTexts⟩
        = reserved ⟨n, label, "res", [decimal k.toInt]⟩ := rfl
    rw [hres]
    exact reserved_eq h rfl

theorem Item.lineStart_eq {item : Item} (h : item.Readable) (n : Nat) (label : String)
    (addr : Int32) : lineStart ⟨n, label, item.mnemonic, item.operandTexts⟩ addr = .ok addr := by
  cases item with
  | instruction i =>
    have hd := Opcode.mnemonic_not_directive i.op h.1
    simp only [List.mem_cons, List.not_mem_nil, or_false, not_or] at hd
    simp [lineStart, Item.mnemonic, hd]
  | entry => rfl
  | reserve k => rfl

namespace Line

def label? : Line → Option String
  | .labeled label _ => some label
  | _ => none

theorem lineSize_source {l : Line} (h : l.Readable) (n : Nat) :
    lineSize (l.source n) = .ok (Int32.ofNat l.size) := by
  cases l with
  | blank => rfl
  | comment s => rfl
  | plain item => exact Item.lineSize_eq h n ""
  | labeled label item => exact Item.lineSize_eq h.2 n label

theorem lineStart_source {l : Line} (h : l.Readable) (n : Nat) (addr : Int32) :
    lineStart (l.source n) addr = .ok addr := by
  cases l with
  | blank => rfl
  | comment s => rfl
  | plain item => exact Item.lineStart_eq h n "" addr
  | labeled label item => exact Item.lineStart_eq h.2 n label addr

theorem addLabel_source {l : Line} (h : l.Readable) (n : Nat) (addr : Int32)
    (labels : List (String × Int32)) :
    addLabel (l.source n) addr labels =
      match l.label? with
      | none => .ok labels
      | some label =>
        if (labels.lookup label).isSome then .error (.duplicateLabel label n)
        else .ok ((label, addr) :: labels) := by
  cases l with
  | blank => rfl
  | comment s => rfl
  | plain item => rfl
  | labeled label item =>
    have hne : label ≠ "" := by
      rintro rfl
      exact absurd h.1 (by decide)
    have hb : (label == "") = false := by simpa using hne
    simp only [addLabel, source, label?, hb, Bool.false_eq_true, if_false]
    congr

end Line

namespace Code

def labelsFrom (a : Nat) : Code → List (String × Int32)
  | [] => []
  | l :: c => (l.label?.map fun label => (label, Int32.ofNat a)).toList ++ labelsFrom (a + l.size) c

theorem lookup_isSome {labels : List (String × Int32)} {s : String} :
    (labels.lookup s).isSome ↔ s ∈ labels.map Prod.fst := by
  induction labels with
  | nil => simp
  | cons p labels ih =>
    obtain ⟨t, k⟩ := p
    by_cases hs : s = t
    · simp [hs]
    · have hb : (s == t) = false := by simpa using hs
      simp only [List.lookup_cons, hb, List.map_cons, List.mem_cons, hs, false_or]
      exact ih

theorem lookup_of_mem {labels : List (String × Int32)} {s : String} {k : Int32}
    (hd : (labels.map Prod.fst).Nodup) (h : (s, k) ∈ labels) : labels.lookup s = some k := by
  induction labels with
  | nil => cases h
  | cons p labels ih =>
    obtain ⟨t, j⟩ := p
    simp only [List.map_cons, List.nodup_cons] at hd
    rcases List.mem_cons.1 h with he | hm
    · simp only [Prod.mk.injEq] at he
      simp [he.1, he.2]
    · have hne : s ≠ t := by
        rintro rfl
        exact hd.1 (List.mem_map.2 ⟨(s, k), hm, rfl⟩)
      have hb : (s == t) = false := by simpa using hne
      rw [List.lookup_cons, hb]
      exact ih hd.2 hm

/-- The first pass collects the labels of the lines. -/
theorem collectLabels_sources {c : Code} (h : ∀ l ∈ c, l.Readable) (n a : Nat)
    (labels r : List (String × Int32)) :
    collectLabels (Int32.ofNat a) labels (sources n c) = .ok r ↔
      ((labelsFrom a c).map Prod.fst).Nodup
        ∧ (∀ s ∈ (labelsFrom a c).map Prod.fst, s ∉ labels.map Prod.fst)
        ∧ r = (labelsFrom a c).reverse ++ labels := by
  induction c generalizing n a labels with
  | nil =>
    have hend : collectLabels (Int32.ofNat a) labels (sources n []) = .ok labels := rfl
    rw [hend]
    simp [labelsFrom, eq_comm]
  | cons l c ih =>
    have hl := h l List.mem_cons_self
    have ih' := ih fun m hm => h m (List.mem_cons_of_mem _ hm)
    have hadd : Int32.ofNat a + Int32.ofNat l.size = Int32.ofNat (a + l.size) :=
      (Int32.ofNat_add a l.size).symm
    simp only [sources, collectLabels, Line.lineStart_source hl, Line.addLabel_source hl,
      labelsFrom]
    cases hlabel : l.label? with
    | none =>
      simp only [Line.lineSize_source hl, hadd, ih']
      simp
    | some label =>
      simp only
      by_cases hs : (labels.lookup label).isSome
      · rw [if_pos hs]
        have hm := lookup_isSome.1 hs
        simp only [reduceCtorEq, false_iff, not_and]
        intro _ hd _
        exact hd label (by simp) hm
      · rw [if_neg hs]
        have hm := mt lookup_isSome.2 hs
        simp only [Line.lineSize_source hl, hadd, ih']
        simp only [Option.map_some, Option.toList_some, List.singleton_append, List.map_cons,
          List.nodup_cons, List.mem_cons, forall_eq_or_imp, List.reverse_cons, List.append_assoc,
          not_or]
        grind

end Code

end MoonBackend
