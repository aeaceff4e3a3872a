import Mathlib.Data.List.Forall2
import Mathlib.Data.List.Induction
import MoonBackend.Proofs.Assembly.Image

/-!
# Two passes over any text

The address of a line is counted in two places: the first pass adds up the sizes of the lines, the
second moves on as it writes. Both agree with a count in natural numbers as long as that count does
not leave the positive words. What a line does to the second pass is said once, in `Pass.Step`.
-/

namespace MoonBackend.Assembly

open Text

def wordBytes (v : Int32) : List UInt8 := [byteAt v 24, byteAt v 16, byteAt v 8, byteAt v 0]

namespace SourceLine

def amount (l : SourceLine) : Nat :=
  match l.operands with
  | [s] => ((literal32? s.toList).map Int32.toNatClampNeg).getD 0
  | _ => 0

/-- Where a line starts that comes at an address. -/
def start (l : SourceLine) (a : Nat) : Nat :=
  if l.mnemonic = "org" then max a l.amount
  else if l.mnemonic = "align" then (a + 3) / 4 * 4
  else a

def extent (l : SourceLine) : Nat :=
  if l.mnemonic ∈ ["", "entry", "org", "align"] then 0
  else if l.mnemonic = "dw" then 4 * l.operands.length
  else if l.mnemonic = "db" then l.operands.length
  else if l.mnemonic = "res" then l.amount
  else 4

def finish (l : SourceLine) (a : Nat) : Nat := l.start a + l.extent

theorem le_start (l : SourceLine) (a : Nat) : a ≤ l.start a := by
  unfold start
  split
  · exact Nat.le_max_left _ _
  · split
    · omega
    · exact Nat.le_refl a

theorem start_le_finish (l : SourceLine) (a : Nat) : l.start a ≤ l.finish a :=
  Nat.le_add_right _ _

theorem start_eq {l : SourceLine} (a : Nat) (h : l.mnemonic ≠ "org" ∧ l.mnemonic ≠ "align") :
    l.start a = a := by
  rw [start, if_neg h.1, if_neg h.2]

/-- The line asks for the bytes `bs`: those of the words of `dw` or of the numbers of `db`. -/
def Asks (names : Names) (l : SourceLine) (bs : List UInt8) : Prop :=
  ∃ vs, List.Forall₂ (fun s v => parseImmediate names l.number s = .ok v) l.operands vs
    ∧ (l.mnemonic = "dw" ∧ bs = vs.flatMap wordBytes
      ∨ l.mnemonic = "db" ∧ bs = vs.map (byteAt · 0))

theorem length_flatMap_wordBytes (vs : List Int32) :
    (vs.flatMap wordBytes).length = 4 * vs.length := by
  induction vs with
  | nil => rfl
  | cons v vs ih =>
    rw [List.flatMap_cons, List.length_append, ih, List.length_cons, wordBytes]
    simp only [List.length_cons, List.length_nil]
    omega

theorem Asks.length {names : Names} {l : SourceLine} {bs : List UInt8} (h : l.Asks names bs) :
    bs.length = l.extent := by
  obtain ⟨vs, hvs, ⟨hm, rfl⟩ | ⟨hm, rfl⟩⟩ := h
  · rw [length_flatMap_wordBytes, ← hvs.length_eq, extent, if_neg (by rw [hm]; decide), if_pos hm]
  · rw [List.length_map, ← hvs.length_eq, extent, if_neg (by rw [hm]; decide),
      if_neg (by rw [hm]; decide), if_pos hm]

theorem Asks.start_eq {names : Names} {l : SourceLine} {bs : List UInt8} (h : l.Asks names bs)
    (a : Nat) : l.start a = a := by
  obtain ⟨vs, hvs, ⟨hm, -⟩ | ⟨hm, -⟩⟩ := h
  · exact SourceLine.start_eq a (by rw [hm]; decide)
  · exact SourceLine.start_eq a (by rw [hm]; decide)

theorem not_directive {l : SourceLine} {op : Opcode} (h : Opcode.parse? l.mnemonic = some op) :
    l.mnemonic ∉ ["", "entry", "org", "align", "dw", "db", "res"] := by
  have hmem : op ∈ Opcode.all := List.mem_of_find?_eq_some h
  have hname : op.mnemonic = l.mnemonic := by simpa using List.find?_some h
  rw [← hname]
  exact Opcode.mnemonic_not_directive op hmem

theorem extent_instruction {l : SourceLine} {op : Opcode}
    (h : Opcode.parse? l.mnemonic = some op) : l.extent = 4 := by
  have hd := not_directive h
  simp only [List.mem_cons, List.not_mem_nil, or_false, not_or] at hd
  simp [extent, hd]

theorem start_instruction {l : SourceLine} {op : Opcode}
    (h : Opcode.parse? l.mnemonic = some op) (a : Nat) : l.start a = a := by
  have hd := not_directive h
  simp only [List.mem_cons, List.not_mem_nil, or_false, not_or] at hd
  exact start_eq a ⟨hd.2.2.1, hd.2.2.2.1⟩

end SourceLine

/-- The address after lines that start at zero. -/
def addressAfter (lines : List SourceLine) : Nat := lines.foldl (fun a l => l.finish a) 0

theorem addressAfter_snoc (lines : List SourceLine) (l : SourceLine) :
    addressAfter (lines ++ [l]) = l.finish (addressAfter lines) := by
  rw [addressAfter, List.foldl_append]
  rfl

theorem addressAfter_le (lines rest : List SourceLine) :
    addressAfter lines ≤ addressAfter (lines ++ rest) := by
  induction rest using List.reverseRecOn with
  | nil => rw [List.append_nil]
  | append_singleton rest l ih =>
    rw [← List.append_assoc, addressAfter_snoc]
    have h1 := l.le_start (addressAfter (lines ++ rest))
    have h2 := l.start_le_finish (addressAfter (lines ++ rest))
    omega

theorem finish_le_start {before middle : List SourceLine} {l l' : SourceLine} :
    l.finish (addressAfter before) ≤ l'.start (addressAfter (before ++ l :: middle)) := by
  have h := addressAfter_le (before ++ [l]) middle
  rw [addressAfter_snoc, List.append_assoc, List.singleton_append] at h
  exact Nat.le_trans h (l'.le_start _)

/-! ### Sizes in words -/

section
variable {l : SourceLine} {a : Nat}

theorem ofNat_toNatClampNeg {n : Int32} (h : 0 ≤ n.toInt) : Int32.ofNat n.toNatClampNeg = n := by
  apply Int32.toInt_inj.1
  have hlt := n.toInt_lt
  rw [← Int32.toNat_toInt, Int32.toInt_ofNat_of_lt (by omega)]
  omega

theorem origin_eq {s : Int32} (ha : a < 2 ^ 31) (h : origin l (Int32.ofNat a) = .ok s) :
    s = Int32.ofNat (max a l.amount) := by
  unfold origin at h
  split at h
  · rename_i value hops
    cases hv : literal32? value.toList with
    | none =>
      rw [hv] at h
      cases h
    | some target =>
      rw [hv] at h
      simp only at h
      split at h
      · cases h
      · rename_i hle
        have hs := Except.ok.inj h
        rw [Int32.lt_iff_toInt_lt, Int32.toInt_ofNat_of_lt ha] at hle
        have hamount : l.amount = target.toNatClampNeg := by simp [SourceLine.amount, hops, hv]
        have hmax : max a l.amount = target.toNatClampNeg := by
          rw [hamount, ← Int32.toNat_toInt]
          omega
        rw [hmax, ofNat_toNatClampNeg (by omega), hs]
  · cases h

theorem reserved_eq_ok {n : Int32} (h : reserved l = .ok n) : n = Int32.ofNat l.amount := by
  unfold reserved at h
  split at h
  · rename_i size hops
    cases hv : literal32? size.toList with
    | none =>
      rw [hv] at h
      cases h
    | some m =>
      rw [hv] at h
      simp only at h
      split at h
      · cases h
      · rename_i hle
        have hn := Except.ok.inj h
        rw [Int32.lt_iff_toInt_lt, Int32.toInt_zero, Int.not_lt] at hle
        have hamount : l.amount = m.toNatClampNeg := by simp [SourceLine.amount, hops, hv]
        rw [hamount, ofNat_toNatClampNeg hle, hn]
  · cases h

theorem aligned_eq (ha : a < 2 ^ 31) : aligned (Int32.ofNat a) = Int32.ofNat ((a + 3) / 4 * 4) := by
  have hmod : Int32.ofNat a % 4 = Int32.ofNat (a % 4) := by
    apply Int32.toInt_inj.1
    rw [Int32.toInt_mod, show (4 : Int32).toInt = 4 from rfl, Int32.toInt_ofNat_of_lt ha,
      Int32.toInt_ofNat_of_lt (by omega), Int.tmod_eq_emod_of_nonneg (by omega)]
    omega
  have hpad : ∀ r < 4, (4 - Int32.ofNat r) % 4 = Int32.ofNat ((4 - r) % 4) := by decide
  rw [aligned, hmod, hpad _ (Nat.mod_lt _ (by decide)), ← Int32.ofNat_add]
  congr 1
  omega

theorem lineStart_eq {s : Int32} (ha : a < 2 ^ 31) (h : lineStart l (Int32.ofNat a) = .ok s) :
    s = Int32.ofNat (l.start a) := by
  unfold lineStart at h
  unfold SourceLine.start
  simp only [beq_iff_eq] at h
  split at h
  · rw [if_pos ‹_›]
    exact origin_eq ha h
  · rw [if_neg ‹_›]
    split at h
    · rw [if_pos ‹_›, ← Except.ok.inj h]
      exact aligned_eq ha
    · rw [if_neg ‹_›]
      exact (Except.ok.inj h).symm

theorem lineSize_eq {n : Int32} (h : lineSize l = .ok n) : n = Int32.ofNat l.extent := by
  unfold lineSize at h
  unfold SourceLine.extent
  simp only [beq_iff_eq, List.contains_iff_mem] at h
  split at h
  · rw [if_pos ‹_›]
    exact (Except.ok.inj h).symm
  · rw [if_neg ‹_›]
    split at h
    · rw [if_pos ‹_›]
      exact (Except.ok.inj h).symm
    · rw [if_neg ‹_›]
      split at h
      · rw [if_pos ‹_›]
        exact (Except.ok.inj h).symm
      · rw [if_neg ‹_›]
        split at h
        · rw [if_pos ‹_›]
          exact reserved_eq_ok h
        · rw [if_neg ‹_›]
          split at h
          · exact (Except.ok.inj h).symm
          · cases h

end

/-! ### The first pass -/

/-- The labels are those of the lines, each with the address at which its line starts. -/
structure Labeled (lines : List SourceLine) (labels : List (String × Int32)) : Prop where
  lookup : ∀ before l after, lines = before ++ l :: after → l.label ≠ "" →
    labels.lookup l.label = some (Int32.ofNat (l.start (addressAfter before)))
  only : ∀ s x, (s, x) ∈ labels → ∃ before l after, lines = before ++ l :: after
    ∧ l.label = s ∧ x = Int32.ofNat (l.start (addressAfter before))

theorem split_snoc {lines before after : List SourceLine} {l m : SourceLine}
    (h : lines ++ [l] = before ++ m :: after) :
    (before = lines ∧ m = l ∧ after = []) ∨ ∃ rest, lines = before ++ m :: rest := by
  rcases List.eq_nil_or_concat after with rfl | ⟨rest, k, rfl⟩
  · obtain ⟨h1, h2⟩ := List.append_inj' h rfl
    exact .inl ⟨h1.symm, (List.cons.inj h2).1.symm, rfl⟩
  · rw [List.concat_eq_append, ← List.cons_append, ← List.append_assoc] at h
    obtain ⟨h1, -⟩ := List.append_inj' h rfl
    exact .inr ⟨rest, h1⟩

theorem addLabel_cases {l : SourceLine} {addr : Int32} {labels labels' : List (String × Int32)}
    (h : addLabel l addr labels = .ok labels') :
    (l.label = "" ∧ labels' = labels)
      ∨ (l.label ≠ "" ∧ labels.lookup l.label = none ∧ labels' = (l.label, addr) :: labels) := by
  unfold addLabel at h
  simp only [beq_iff_eq] at h
  split at h
  · exact .inl ⟨‹_›, (Except.ok.inj h).symm⟩
  · split at h
    · cases h
    · rename_i hnone
      exact .inr ⟨‹_›, Option.not_isSome_iff_eq_none.1 hnone, (Except.ok.inj h).symm⟩

theorem Labeled.snoc {lines : List SourceLine} {l : SourceLine}
    {labels labels' : List (String × Int32)} (h : Labeled lines labels)
    (hadd : addLabel l (Int32.ofNat (l.start (addressAfter lines))) labels = .ok labels') :
    Labeled (lines ++ [l]) labels' := by
  rcases addLabel_cases hadd with ⟨hempty, rfl⟩ | ⟨hne, hnew, rfl⟩
  · constructor
    · intro before m after hsplit hm
      rcases split_snoc hsplit with ⟨-, rfl, -⟩ | ⟨rest, hrest⟩
      · exact absurd hempty hm
      · exact h.lookup before m rest hrest hm
    · intro s x hx
      obtain ⟨before, m, after, hsplit, hm⟩ := h.only s x hx
      exact ⟨before, m, after ++ [l], by rw [hsplit]; simp, hm⟩
  · constructor
    · intro before m after hsplit hm
      rcases split_snoc hsplit with ⟨rfl, rfl, -⟩ | ⟨rest, hrest⟩
      · rw [List.lookup_cons_self]
      · have hlook := h.lookup before m rest hrest hm
        have hother : (m.label == l.label) = false := by
          rw [beq_eq_false_iff_ne]
          intro he
          rw [he, hnew] at hlook
          cases hlook
        rw [List.lookup_cons, hother]
        exact hlook
    · intro s x hx
      rcases List.mem_cons.1 hx with he | hx
      · obtain ⟨rfl, rfl⟩ := Prod.mk.inj he
        exact ⟨lines, l, [], rfl, rfl, rfl⟩
      · obtain ⟨before, m, after, hsplit, hm⟩ := h.only s x hx
        exact ⟨before, m, after ++ [l], by rw [hsplit]; simp, hm⟩

/-- The first pass comes to every line with the address after the lines before it. -/
theorem exists_collected {lines rest : List SourceLine} {r : List (String × Int32)}
    (h : collectLabels 0 [] (lines ++ rest) = .ok r) (hend : addressAfter lines < 2 ^ 31) :
    ∃ labels, (∀ rest', collectLabels 0 [] (lines ++ rest')
        = collectLabels (Int32.ofNat (addressAfter lines)) labels rest') ∧ Labeled lines labels := by
  induction lines using List.reverseRecOn generalizing rest with
  | nil =>
    refine ⟨[], fun _ => rfl, ?_, ?_⟩
    · intro before l after hsplit
      simp at hsplit
    · intro s x hx
      cases hx
  | append_singleton lines l ih =>
    have hbefore : addressAfter lines < 2 ^ 31 :=
      Nat.lt_of_le_of_lt (addressAfter_le lines [l]) hend
    rw [List.append_assoc] at h
    obtain ⟨labels, hrun, hlabels⟩ := ih h hbefore
    rw [hrun, List.singleton_append, collectLabels] at h
    cases hstart : lineStart l (Int32.ofNat (addressAfter lines)) with
    | error e =>
      rw [hstart] at h
      cases h
    | ok start =>
      rw [hstart] at h
      simp only at h
      cases hadd : addLabel l start labels with
      | error e =>
        rw [hadd] at h
        cases h
      | ok labels' =>
        rw [hadd] at h
        simp only at h
        cases hsize : lineSize l with
        | error e =>
          rw [hsize] at h
          cases h
        | ok size =>
          have hs := lineStart_eq hbefore hstart
          have hn := lineSize_eq hsize
          refine ⟨labels', ?_, hlabels.snoc (by rw [← hs]; exact hadd)⟩
          intro rest'
          rw [List.append_assoc, hrun, List.singleton_append, collectLabels, hstart]
          simp only [hadd, hsize]
          rw [hs, hn, ← Int32.ofNat_add, addressAfter_snoc]
          rfl

/-! ### Bytes -/

theorem poke_data {data : Array UInt8} {x : Nat} {b : UInt8} (hx : x < 2 ^ 31) :
    (poke data (Int32.ofNat x) b).size = max data.size (x + 1)
      ∧ ∀ y, (poke data (Int32.ofNat x) b).getD y 0 = if y = x then b else data.getD y 0 := by
  have hnn : ¬ Int32.ofNat x < 0 := by
    rw [Int32.lt_iff_toInt_lt, Int32.toInt_ofNat_of_lt hx]
    simp
  have hc : (Int32.ofNat x).toNatClampNeg = x := Int32.toNatClampNeg_ofNat_of_lt hx
  simp only [poke, hc]
  rw [if_neg hnn]
  split
  · rename_i hlt
    refine ⟨by simp; omega, ?_⟩
    intro y
    simp only [Array.getD_eq_getD_getElem?, Array.getElem?_setIfInBounds]
    grind
  · rename_i hge
    refine ⟨by simp; omega, ?_⟩
    intro y
    simp only [Array.getD_eq_getD_getElem?, Array.getElem?_push, Array.getElem?_append,
      Array.getElem?_replicate, Array.size_append, Array.size_replicate]
    grind

namespace Pass

def putAll (p : Pass) (bs : List UInt8) : Pass := bs.foldl putByte p

theorem putAll_cons (p : Pass) (b : UInt8) (bs : List UInt8) :
    p.putAll (b :: bs) = (p.putByte b).putAll bs := rfl

theorem putAll_append (p : Pass) (bs cs : List UInt8) :
    p.putAll (bs ++ cs) = (p.putAll bs).putAll cs := List.foldl_append

theorem putWord_eq (p : Pass) (v : Int32) : p.putWord v = p.putAll (wordBytes v) := rfl

theorem putAll_rest (p : Pass) (bs : List UInt8) :
    (p.putAll bs).image.code = p.image.code ∧ (p.putAll bs).image.lines = p.image.lines
      ∧ (p.putAll bs).image.entry = p.image.entry ∧ (p.putAll bs).entrySeen = p.entrySeen := by
  induction bs generalizing p with
  | nil => exact ⟨rfl, rfl, rfl, rfl⟩
  | cons b bs ih => exact ih (p.putByte b)

theorem putAll_address {p : Pass} {a : Nat} (ha : p.address = Int32.ofNat a) (bs : List UInt8) :
    (p.putAll bs).address = Int32.ofNat (a + bs.length) := by
  induction bs generalizing p a with
  | nil => exact ha
  | cons b bs ih =>
    have hnext : (p.putByte b).address = Int32.ofNat (a + 1) := by
      show p.address + 1 = _
      rw [ha, Int32.ofNat_add]
      rfl
    rw [putAll_cons, ih hnext, List.length_cons]
    congr 1
    omega

theorem putAll_data {p : Pass} {a : Nat} (ha : p.address = Int32.ofNat a) {bs : List UInt8}
    (hlt : a + bs.length ≤ 2 ^ 31) :
    (p.putAll bs).image.data.size = (if bs = [] then p.image.data.size
        else max p.image.data.size (a + bs.length))
      ∧ ∀ y, (p.putAll bs).image.data.getD y 0
        = if a ≤ y ∧ y < a + bs.length then bs.getD (y - a) 0 else p.image.data.getD y 0 := by
  induction bs generalizing p a with
  | nil =>
    refine ⟨rfl, ?_⟩
    intro y
    rw [if_neg (by simp)]
    rfl
  | cons b bs ih =>
    have hnext : (p.putByte b).address = Int32.ofNat (a + 1) := by
      show p.address + 1 = _
      rw [ha, Int32.ofNat_add]
      rfl
    have hdata : (p.putByte b).image.data = poke p.image.data (Int32.ofNat a) b := by
      show poke p.image.data p.address b = _
      rw [ha]
    rw [List.length_cons] at hlt
    obtain ⟨hsize, hget⟩ := ih hnext (by omega)
    obtain ⟨hpoke, hpget⟩ := @poke_data p.image.data a b (by omega)
    rw [putAll_cons, List.length_cons]
    constructor
    · rw [hsize, hdata, hpoke, if_neg (List.cons_ne_nil b bs)]
      by_cases hnil : bs = []
      · rw [if_pos hnil, hnil]
        rfl
      · rw [if_neg hnil]
        omega
    · intro y
      rw [hget, hdata, hpget]
      by_cases hy : y = a
      · subst hy
        rw [if_neg (by omega), if_pos rfl, if_pos (by omega), Nat.sub_self]
        rfl
      · by_cases hin : a + 1 ≤ y ∧ y < a + 1 + bs.length
        · have hsub : y - a = y - (a + 1) + 1 := by omega
          rw [if_pos hin, if_pos (by omega), hsub, List.getD_cons_succ]
        · rw [if_neg hin, if_neg hy, if_neg (by omega)]

/-! ### The second pass -/

theorem putWords_eq {names : Names} {n : Nat} {ops : List String} {p p' : Pass}
    (h : putWords names n ops p = .ok p') :
    ∃ vs, List.Forall₂ (fun s v => parseImmediate names n s = .ok v) ops vs
      ∧ p' = p.putAll (vs.flatMap wordBytes) := by
  induction ops generalizing p with
  | nil => exact ⟨[], .nil, (Except.ok.inj h).symm⟩
  | cons s ops ih =>
    rw [putWords] at h
    cases hv : parseImmediate names n s with
    | error e =>
      rw [hv] at h
      cases h
    | ok v =>
      rw [hv] at h
      obtain ⟨vs, hvs, rfl⟩ := ih h
      exact ⟨v :: vs, .cons hv hvs, by rw [List.flatMap_cons, putAll_append, putWord_eq]⟩

theorem putBytes_eq {names : Names} {n : Nat} {ops : List String} {p p' : Pass}
    (h : putBytes names n ops p = .ok p') :
    ∃ vs, List.Forall₂ (fun s v => parseImmediate names n s = .ok v) ops vs
      ∧ p' = p.putAll (vs.map (byteAt · 0)) := by
  induction ops generalizing p with
  | nil => exact ⟨[], .nil, (Except.ok.inj h).symm⟩
  | cons s ops ih =>
    rw [putBytes] at h
    cases hv : parseImmediate names n s with
    | error e =>
      rw [hv] at h
      cases h
    | ok v =>
      rw [hv] at h
      simp only at h
      split at h
      · cases h
      · obtain ⟨vs, hvs, rfl⟩ := ih h
        exact ⟨v :: vs, .cons hv hvs, by rw [List.map_cons, putAll_cons]⟩

/-- All that a line can do to the pass. -/
inductive Step (names : Names) (l : SourceLine) (p : Pass) : Pass → Prop
  | blank : l.mnemonic = "" → Step names l p p
  | entry : l.mnemonic = "entry" → p.entrySeen = false → Step names l p p.withEntry
  | move (addr : Int32) : l.mnemonic = "org" ∨ l.mnemonic = "align" →
    lineStart l p.address = .ok addr → Step names l p { p with address := addr }
  | reserve (n : Int32) : l.mnemonic = "res" → reserved l = .ok n → Step names l p (p.reserve n)
  | bytes (bs : List UInt8) : l.Asks names bs → Step names l p (p.putAll bs)
  | instruction (op : Opcode) (i : MachineInstruction) : Opcode.parse? l.mnemonic = some op →
    parseInstruction names l.number op l.operands = .ok i → p.address % 4 = 0 →
    Step names l p (p.withInstruction l.number i)

theorem step_of_line {names : Names} {l : SourceLine} {p p' : Pass}
    (h : p.line names l = .ok p') : Step names l p p' := by
  unfold line at h
  simp only [beq_iff_eq] at h
  split at h
  · rw [← Except.ok.inj h]
    exact .blank ‹_›
  split at h
  · rename_i hm
    unfold setEntry at h
    split at h
    · cases h
    · rename_i hseen
      rw [← Except.ok.inj h]
      exact .entry hm (by simpa using hseen)
  split at h
  · rename_i hm
    cases ho : origin l p.address with
    | error e =>
      rw [ho] at h
      cases h
    | ok addr =>
      rw [ho] at h
      rw [← Except.ok.inj h]
      exact .move addr (.inl hm) (by simp [lineStart, hm, ho])
  split at h
  · rename_i horg hm
    rw [← Except.ok.inj h]
    exact .move _ (.inr hm) (by simp [lineStart, hm])
  split at h
  · rename_i hm
    cases hr : reserved l with
    | error e =>
      rw [hr] at h
      cases h
    | ok n =>
      rw [hr] at h
      rw [← Except.ok.inj h]
      exact .reserve n hm hr
  split at h
  · rename_i hm
    obtain ⟨vs, hvs, rfl⟩ := putWords_eq h
    exact .bytes _ ⟨vs, hvs, .inl ⟨hm, rfl⟩⟩
  split at h
  · rename_i hm
    obtain ⟨vs, hvs, rfl⟩ := putBytes_eq h
    exact .bytes _ ⟨vs, hvs, .inr ⟨hm, rfl⟩⟩
  split at h
  · cases h
  · rename_i op hop
    split at h
    · cases h
    · rename_i i hi
      unfold putInstruction at h
      split at h
      · cases h
      · rename_i ha
        rw [← Except.ok.inj h]
        exact .instruction op i hop hi (by simpa using ha)

section
variable {names : Names} {l : SourceLine} {p p' : Pass} {a : Nat}

theorem Step.address (h : Step names l p p') (ha : p.address = Int32.ofNat a)
    (hlt : a < 2 ^ 31) : p'.address = Int32.ofNat (l.finish a) := by
  unfold SourceLine.finish
  cases h with
  | blank hm =>
    rw [SourceLine.start_eq a (by rw [hm]; decide), SourceLine.extent, if_pos (by rw [hm]; decide)]
    exact ha
  | entry hm hseen =>
    rw [SourceLine.start_eq a (by rw [hm]; decide), SourceLine.extent, if_pos (by rw [hm]; decide)]
    exact ha
  | move addr hm hstart =>
    rw [ha] at hstart
    have hin : l.mnemonic ∈ ["", "entry", "org", "align"] := by
      rcases hm with hm | hm
      · rw [hm]
        decide
      · rw [hm]
        decide
    rw [SourceLine.extent, if_pos hin]
    exact lineStart_eq hlt hstart
  | reserve n hm hn =>
    have hextent : l.extent = l.amount := by simp [SourceLine.extent, hm]
    rw [SourceLine.start_eq a (by rw [hm]; decide), hextent, Int32.ofNat_add, ← ha,
      ← reserved_eq_ok hn]
    rfl
  | bytes bs hbs => rw [hbs.start_eq, ← hbs.length, putAll_address ha]
  | instruction op i hop hi halign =>
    rw [SourceLine.start_instruction hop, SourceLine.extent_instruction hop, Int32.ofNat_add, ← ha]
    rfl

/-! ### Instructions -/

theorem Step.code_of_none (h : Step names l p p') (hop : Opcode.parse? l.mnemonic = none) :
    p'.image.code = p.image.code ∧ p'.image.lines = p.image.lines := by
  cases h with
  | blank hm => exact ⟨rfl, rfl⟩
  | entry hm hseen => exact ⟨rfl, rfl⟩
  | move addr hm hstart => exact ⟨rfl, rfl⟩
  | reserve n hm hn => exact ⟨rfl, rfl⟩
  | bytes bs hbs => exact ⟨(putAll_rest p bs).1, (putAll_rest p bs).2.1⟩
  | instruction op i hop' hi halign =>
    rw [hop] at hop'
    cases hop'

theorem Step.code_of_some (h : Step names l p p') {op : Opcode}
    (hop : Opcode.parse? l.mnemonic = some op) :
    ∃ i, parseInstruction names l.number op l.operands = .ok i ∧ p.address % 4 = 0
      ∧ p' = p.withInstruction l.number i := by
  have hd := SourceLine.not_directive hop
  simp only [List.mem_cons, List.not_mem_nil, or_false, not_or] at hd
  cases h with
  | blank hm => exact absurd hm hd.1
  | entry hm hseen => exact absurd hm hd.2.1
  | move addr hm hstart => exact absurd hm (by simp [hd])
  | reserve n hm hn => exact absurd hm hd.2.2.2.2.2.2
  | bytes bs hbs =>
    obtain ⟨vs, -, ⟨hm, -⟩ | ⟨hm, -⟩⟩ := hbs
    · exact absurd hm hd.2.2.2.2.1
    · exact absurd hm hd.2.2.2.2.2.1
  | instruction op' i hop' hi halign =>
    rw [hop] at hop'
    cases Option.some.inj hop'
    exact ⟨i, hi, halign, rfl⟩

/-! ### Data -/

theorem Step.data_of_asks (h : Step names l p p') (hm : l.mnemonic = "dw" ∨ l.mnemonic = "db") :
    ∃ bs, l.Asks names bs ∧ p' = p.putAll bs := by
  have hno : l.mnemonic ∉ ["", "entry", "org", "align", "res"] := by
    rcases hm with hm | hm
    · rw [hm]
      decide
    · rw [hm]
      decide
  simp only [List.mem_cons, List.not_mem_nil, or_false, not_or] at hno
  cases h with
  | blank hb => exact absurd hb hno.1
  | entry hb hseen => exact absurd hb hno.2.1
  | move addr hb hstart => exact absurd hb (by simp [hno])
  | reserve n hb hn => exact absurd hb hno.2.2.2.2
  | bytes bs hbs => exact ⟨bs, hbs, rfl⟩
  | instruction op i hop hi halign =>
    have hd := SourceLine.not_directive hop
    simp only [List.mem_cons, List.not_mem_nil, or_false, not_or] at hd
    exact absurd hm (by simp [hd])

/-- A line that asks for no bytes changes none; at most it sets zeros aside. -/
theorem Step.data_of_not (h : Step names l p p') (hm : ¬ (l.mnemonic = "dw" ∨ l.mnemonic = "db"))
    (ha : p.address = Int32.ofNat a) (hend : l.finish a < 2 ^ 31) (hsize : p.image.data.size ≤ a) :
    p.image.data.size ≤ p'.image.data.size ∧ p'.image.data.size ≤ l.finish a
      ∧ ∀ y, p'.image.data.getD y 0 = p.image.data.getD y 0 := by
  have hle : p.image.data.size ≤ l.finish a := by
    have h1 := l.le_start a
    have h2 := l.start_le_finish a
    omega
  cases h with
  | blank hb => exact ⟨Nat.le_refl _, hle, fun _ => rfl⟩
  | entry hb hseen => exact ⟨Nat.le_refl _, hle, fun _ => rfl⟩
  | move addr hb hstart => exact ⟨Nat.le_refl _, hle, fun _ => rfl⟩
  | reserve n hb hn =>
    have hextent : l.extent = l.amount := by simp [SourceLine.extent, hb]
    rw [SourceLine.finish, SourceLine.start_eq a (by rw [hb]; decide), hextent] at hend hle ⊢
    rw [Pass.reserve, reserved_eq_ok hn]
    simp only
    split
    · rename_i hpos
      have hamount : 0 < l.amount := by
        apply Nat.pos_of_ne_zero
        intro hz
        rw [hz] at hpos
        exact absurd hpos (by decide)
      have haddr : p.address + Int32.ofNat l.amount - 1 = Int32.ofNat (a + l.amount - 1) := by
        have he : a + l.amount = (a + l.amount - 1) + 1 := by omega
        rw [ha, ← Int32.ofNat_add, he, Int32.ofNat_add, Nat.add_sub_cancel]
        grind
      obtain ⟨hpoke, hget⟩ := @poke_data p.image.data (a + l.amount - 1) 0 (by omega)
      rw [haddr]
      refine ⟨by omega, by omega, ?_⟩
      intro y
      rw [hget]
      split
      · rename_i hy
        have hout : p.image.data.size ≤ y := by omega
        rw [Array.getD_eq_getD_getElem?, Array.getElem?_eq_none hout]
        rfl
      · rfl
    · exact ⟨Nat.le_refl _, hle, fun _ => rfl⟩
  | bytes bs hbs =>
    obtain ⟨vs, -, ⟨hb, -⟩ | ⟨hb, -⟩⟩ := hbs
    · exact absurd (.inl hb) hm
    · exact absurd (.inr hb) hm
  | instruction op i hop hi halign => exact ⟨Nat.le_refl _, hle, fun _ => rfl⟩

theorem Step.entry_of_ne (h : Step names l p p') (hm : l.mnemonic ≠ "entry") :
    p'.image.entry = p.image.entry ∧ p'.entrySeen = p.entrySeen := by
  cases h with
  | blank hb => exact ⟨rfl, rfl⟩
  | entry hb hseen => exact absurd hb hm
  | move addr hb hstart => exact ⟨rfl, rfl⟩
  | reserve n hb hn => exact ⟨rfl, rfl⟩
  | bytes bs hbs => exact (putAll_rest p bs).2.2
  | instruction op i hop hi halign => exact ⟨rfl, rfl⟩

theorem Step.entry_of_eq (h : Step names l p p') (hm : l.mnemonic = "entry") :
    p.entrySeen = false ∧ p' = p.withEntry := by
  cases h with
  | blank hb => exact absurd hb (by rw [hm]; decide)
  | entry hb hseen => exact ⟨hseen, rfl⟩
  | move addr hb hstart => exact absurd hb (by rw [hm]; decide)
  | reserve n hb hn => exact absurd hb (by rw [hm]; decide)
  | bytes bs hbs =>
    obtain ⟨vs, -, ⟨hb, -⟩ | ⟨hb, -⟩⟩ := hbs
    · exact absurd hb (by rw [hm]; decide)
    · exact absurd hb (by rw [hm]; decide)
  | instruction op i hop hi halign =>
    have hd := SourceLine.not_directive hop
    rw [hm] at hd
    exact absurd (by decide) hd

end

end Pass

end MoonBackend.Assembly
