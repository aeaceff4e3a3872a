import MoonBackend.Proofs.Assembly.Labels

/-!
# The second pass

What one line of readable code does to the pass, and from it, by induction over the lines, what the
image holds in the end: every instruction at its address, zeros where bytes were set aside, and
nothing else. Main results: assembled code stands at address zero of its site, and code whose names
are known and whose labels are different assembles.
-/

namespace MoonBackend

open Text Assembly

namespace Line

def item? : Line → Option Item
  | .blank => none
  | .comment _ => none
  | .plain item => some item
  | .labeled _ item => some item

def Known (names : Names) (l : Line) : Prop :=
  ∀ i, l.item? = some (.instruction i) → (i.encode? names).isSome = true

instance (names : Names) (l : Line) : Decidable (l.Known names) :=
  match h : l.item? with
  | some (.instruction i) => decidable_of_iff ((i.encode? names).isSome = true) (by simp [Known, h])
  | some .entry => isTrue (by simp [Known, h])
  | some (.reserve _) => isTrue (by simp [Known, h])
  | none => isTrue (by simp [Known, h])

end Line

namespace Assembly.Pass

def withInstruction (p : Pass) (line : Nat) (mi : MachineInstruction) : Pass :=
  { p with
    address := p.address + 4
    image := { p.image with
      code := p.image.code.insert p.address mi
      lines := p.image.lines.insert p.address line } }

def withEntry (p : Pass) : Pass :=
  { p with entrySeen := true, image := { p.image with entry := p.address } }

def Takes (names : Names) (n : Nat) (p p' : Pass) : Item → Prop
  | .instruction i =>
    ∃ mi, i.encode? names = some mi ∧ p.address % 4 = 0 ∧ p' = p.withInstruction n mi
  | .entry => p.entrySeen = false ∧ p' = p.withEntry
  | .reserve k => p' = p.reserve (Int32.ofNat (Item.reserve k).size)

theorem instruction_eq_ok {names : Names} {i : Instruction Register Operand}
    (h : (Item.instruction i).Readable) (hr : names.Reads i.k) (n : Nat) (label : String)
    (p p' : Pass) :
    p.line names ⟨n, label, i.op.mnemonic, i.operandTexts⟩ = .ok p' ↔
      p.Takes names n p' (.instruction i) := by
  have hd := Opcode.mnemonic_not_directive i.op h.1
  have hp := Opcode.parse?_mnemonic i.op h.1
  simp only [List.mem_cons, List.not_mem_nil, or_false, not_or] at hd
  have hparse : ∀ mi, parseInstruction names n i.op i.operandTexts = .ok mi ↔ _ :=
    fun mi => parseInstruction_eq_ok hr h.2.1 h.2.2
  simp only [line, beq_iff_eq, hd, if_false, hp, Takes, putInstruction]
  cases hi : parseInstruction names n i.op i.operandTexts with
  | error e =>
    simp only [reduceCtorEq, false_iff]
    rintro ⟨mi, he, -⟩
    rw [(hparse mi).2 he] at hi
    cases hi
  | ok mi =>
    have he := (hparse mi).1 hi
    rw [he]
    by_cases ha : p.address % 4 = 0
    · simp [ha, withInstruction, eq_comm]
    · simp [ha]

theorem item_eq_ok {names : Names} {item : Item} (h : item.Readable) (hn : names.Proper) (n : Nat)
    (label : String) (p p' : Pass) :
    p.line names ⟨n, label, item.mnemonic, item.operandTexts⟩ = .ok p' ↔
      p.Takes names n p' item := by
  cases item with
  | instruction i => exact instruction_eq_ok h (hn.reads h.2.2) n label p p'
  | entry =>
    show p.setEntry n = .ok p' ↔ _
    unfold setEntry Takes withEntry
    cases p.entrySeen with
    | false => simp [eq_comm]
    | true => simp
  | reserve k =>
    show (reserved _).map p.reserve = .ok p' ↔ _
    rw [reserved_eq h rfl]
    simp [Takes, Except.map, eq_comm]

theorem line_eq_ok {names : Names} {l : Line} (h : l.Readable) (hn : names.Proper) (n : Nat)
    (p p' : Pass) :
    p.line names (l.source n) = .ok p' ↔
      match l.item? with
      | none => p' = p
      | some item => p.Takes names n p' item := by
  cases l with
  | blank => simp [Line.source, Line.item?, line, eq_comm]
  | comment s => simp [Line.source, Line.item?, line, eq_comm]
  | plain item => exact item_eq_ok h hn n "" p p'
  | labeled label item => exact item_eq_ok h.2 hn n label p p'

/-- The pass goes over lines of code, of which the first has the given number. -/
def Goes (names : Names) (n : Nat) (c : Code) (p p' : Pass) : Prop :=
  lines names (c.sources n) p = .ok p'

theorem goes_nil {names : Names} {n : Nat} {p p' : Pass} : Goes names n [] p p' ↔ p' = p := by
  simp [Goes, Code.sources, lines, line, eq_comm]

theorem goes_cons {names : Names} {l : Line} {c : Code} {n : Nat} {p p' : Pass}
    (h : l.Readable) (hn : names.Proper) :
    Goes names n (l :: c) p p' ↔
      ∃ p₁, (match l.item? with
        | none => p₁ = p
        | some item => p.Takes names n p₁ item) ∧ Goes names (n + 1) c p₁ p' := by
  simp only [Goes, Code.sources, lines]
  cases hl : p.line names (l.source n) with
  | error e =>
    simp only [reduceCtorEq, false_iff, not_exists, not_and]
    intro p₁ ht
    rw [(line_eq_ok h hn n p p₁).2 ht] at hl
    cases hl
  | ok p₁ =>
    simp only
    constructor
    · intro hrest
      exact ⟨p₁, (line_eq_ok h hn n p p₁).1 hl, hrest⟩
    · rintro ⟨p₂, ht, hrest⟩
      rw [(line_eq_ok h hn n p p₂).2 ht] at hl
      rwa [← Except.ok.inj hl]

theorem goes_append {names : Names} {c d : Code} {n : Nat} {p p' : Pass}
    (h : ∀ l ∈ c, l.Readable) (hn : names.Proper) :
    Goes names n (c ++ d) p p' ↔
      ∃ p₁, Goes names n c p p₁ ∧ Goes names (n + c.length) d p₁ p' := by
  induction c generalizing n p with
  | nil => simp [goes_nil]
  | cons l c ih =>
    have hl := h l List.mem_cons_self
    have hlen : n + (l :: c).length = n + 1 + c.length := by simp; omega
    rw [List.cons_append, goes_cons hl hn, hlen]
    constructor
    · rintro ⟨p₁, ht, hrest⟩
      obtain ⟨p₂, h1, h2⟩ := (ih fun m hm => h m (List.mem_cons_of_mem _ hm)).1 hrest
      exact ⟨p₂, (goes_cons hl hn).2 ⟨p₁, ht, h1⟩, h2⟩
    · rintro ⟨p₂, h1, h2⟩
      obtain ⟨p₁, ht, hrest⟩ := (goes_cons hl hn).1 h1
      exact ⟨p₁, ht, (ih fun m hm => h m (List.mem_cons_of_mem _ hm)).2 ⟨p₂, hrest, h2⟩⟩

/-! ### One item -/

section
variable {names : Names} {n a : Nat} {p p' : Pass} {item : Item}

theorem Takes.address (h : p.Takes names n p' item) (ha : p.address = Int32.ofNat a) :
    p'.address = Int32.ofNat (a + item.size) := by
  cases item with
  | instruction i =>
    obtain ⟨mi, -, -, rfl⟩ := h
    show p.address + 4 = _
    rw [ha, Int32.ofNat_add]
    rfl
  | entry =>
    obtain ⟨-, rfl⟩ := h
    exact ha
  | reserve k =>
    have hp' : p' = _ := h
    rw [hp']
    show p.address + _ = _
    rw [ha, Int32.ofNat_add]

theorem ofNat_inj_of_lt {x y : Nat} (hx : x < 2 ^ 32) (hy : y < 2 ^ 32)
    (h : Int32.ofNat x = Int32.ofNat y) : x = y := by
  have hn := congrArg (fun v : Int32 => v.toBitVec.toNat) h
  simp only [Int32.toBitVec_ofNat', BitVec.toNat_ofNat] at hn
  rwa [Nat.mod_eq_of_lt hx, Nat.mod_eq_of_lt hy] at hn

theorem Takes.code (h : p.Takes names n p' item) (ha : p.address = Int32.ofNat a)
    (hlt : a + item.size ≤ 2 ^ 32) {x : Nat} (hx : x < 2 ^ 32) (hout : x < a ∨ a + item.size ≤ x) :
    p'.image.code[Int32.ofNat x]? = p.image.code[Int32.ofNat x]? := by
  cases item with
  | instruction i =>
    obtain ⟨mi, -, -, rfl⟩ := h
    simp only [Item.size] at hlt hout
    show (p.image.code.insert p.address mi)[Int32.ofNat x]? = _
    rw [Std.TreeMap.getElem?_insert, ha]
    have hne : Int32.ofNat a ≠ Int32.ofNat x := by
      intro he
      have := ofNat_inj_of_lt (by omega) hx he
      omega
    simp [hne]
  | entry =>
    obtain ⟨-, rfl⟩ := h
    rfl
  | reserve k =>
    have hp' : p' = _ := h
    rw [hp']
    rfl

theorem Takes.only (h : p.Takes names n p' item) (ha : p.address = Int32.ofNat a) {x : Int32}
    {mi : MachineInstruction} (hx : p'.image.code[x]? = some mi) :
    p.image.code[x]? = some mi ∨ (x = Int32.ofNat a ∧ item.size = 4) := by
  cases item with
  | instruction i =>
    obtain ⟨mi', -, -, rfl⟩ := h
    have hins : (p.image.code.insert p.address mi')[x]? = some mi := hx
    rw [Std.TreeMap.getElem?_insert, ha] at hins
    by_cases he : Int32.ofNat a = x
    · exact .inr ⟨he.symm, rfl⟩
    · left
      simpa [he] using hins
  | entry =>
    obtain ⟨-, rfl⟩ := h
    exact .inl hx
  | reserve k =>
    have hp' : p' = _ := h
    rw [hp'] at hx
    exact .inl hx

structure Blank (data : Array UInt8) (a : Nat) : Prop where
  size : data.size ≤ a
  zero : ∀ b ∈ data, b = 0

theorem blank_poke {data : Array UInt8} {b : Nat} (h : Blank data b) {x : Nat} (hx : x < b)
    (hb : b ≤ 2 ^ 31) : Blank (poke data (Int32.ofNat x) 0) b := by
  obtain ⟨hs, hz⟩ := h
  have hnn : ¬ Int32.ofNat x < 0 := by
    rw [Int32.lt_iff_toInt_lt, Int32.toInt_ofNat_of_lt (by omega)]
    simp
  have hc : (Int32.ofNat x).toNatClampNeg = x := Int32.toNatClampNeg_ofNat_of_lt (by omega)
  simp only [poke, hc]
  rw [if_neg hnn]
  split
  · refine ⟨by simpa using hs, ?_⟩
    intro y hy
    rcases Array.mem_or_eq_of_mem_setIfInBounds hy with hy | hy
    · exact hz y hy
    · exact hy
  · refine ⟨by simp; omega, ?_⟩
    intro y hy
    simp only [Array.mem_push, Array.mem_append, Array.mem_replicate] at hy
    rcases hy with (hy | hy) | hy
    · exact hz y hy
    · exact hy.2
    · exact hy

theorem Takes.data (h : p.Takes names n p' item) (ha : p.address = Int32.ofNat a)
    (hlt : a + item.size ≤ 2 ^ 31) (hd : Blank p.image.data a) :
    Blank p'.image.data (a + item.size) := by
  have hmono : Blank p.image.data (a + item.size) := ⟨by have := hd.size; omega, hd.zero⟩
  cases item with
  | instruction i =>
    obtain ⟨mi, -, -, rfl⟩ := h
    exact hmono
  | entry =>
    obtain ⟨-, rfl⟩ := h
    exact hmono
  | reserve k =>
    have hp' : p' = p.reserve (Int32.ofNat (Item.reserve k).size) := h
    rw [hp', reserve]
    generalize (Item.reserve k).size = m at hlt hmono
    simp only
    split
    · rename_i hpos
      have hm : 0 < m := by
        refine Nat.pos_of_ne_zero ?_
        rintro rfl
        exact absurd hpos (by decide)
      have hx : p.address + Int32.ofNat m - 1 = Int32.ofNat (a + m - 1) := by
        rw [ha, ← Int32.ofNat_add]
        have he : a + m = (a + m - 1) + 1 := by omega
        rw [he, Int32.ofNat_add, Nat.add_sub_cancel]
        grind
      rw [hx]
      exact blank_poke hmono (by omega) hlt
    · exact hmono

theorem lt_size_poke (data : Array UInt8) {x : Nat} (hx : x < 2 ^ 31) (b : UInt8) :
    x < (poke data (Int32.ofNat x) b).size := by
  have hnn : ¬ Int32.ofNat x < 0 := by
    rw [Int32.lt_iff_toInt_lt, Int32.toInt_ofNat_of_lt hx]
    simp
  have hc : (Int32.ofNat x).toNatClampNeg = x := Int32.toNatClampNeg_ofNat_of_lt hx
  simp only [poke, hc]
  rw [if_neg hnn]
  split
  · simpa using ‹_›
  · simp only [Array.size_push, Array.size_append, Array.size_replicate]
    omega

theorem Takes.size_reserve {k : Int64} (h : p.Takes names n p' (.reserve k))
    (ha : p.address = Int32.ofNat a) (hk : 0 < (Item.reserve k).size)
    (hlt : a + (Item.reserve k).size < 2 ^ 31) :
    a + (Item.reserve k).size ≤ p'.image.data.size := by
  have hp' : p' = p.reserve (Int32.ofNat (Item.reserve k).size) := h
  rw [hp', reserve]
  generalize (Item.reserve k).size = m at hlt hk
  have hpos : 0 < Int32.ofNat m := by
    rw [Int32.lt_iff_toInt_lt, Int32.toInt_ofNat_of_lt (by omega), Int32.toInt_zero]
    omega
  have hx : p.address + Int32.ofNat m - 1 = Int32.ofNat (a + m - 1) := by
    rw [ha, ← Int32.ofNat_add]
    have he : a + m = (a + m - 1) + 1 := by omega
    rw [he, Int32.ofNat_add, Nat.add_sub_cancel]
    grind
  simp only
  rw [if_pos hpos, hx]
  have := lt_size_poke p.image.data (x := a + m - 1) (by omega) 0
  omega

theorem Takes.entry_of_ne (h : p.Takes names n p' item) (hne : item ≠ .entry) :
    p'.image.entry = p.image.entry ∧ p'.entrySeen = p.entrySeen := by
  cases item with
  | instruction i =>
    obtain ⟨mi, -, -, rfl⟩ := h
    exact ⟨rfl, rfl⟩
  | entry => exact absurd rfl hne
  | reserve k =>
    have hp' : p' = _ := h
    rw [hp']
    exact ⟨rfl, rfl⟩

end

/-! ### All lines -/

/-- What lines between two addresses do to the pass. -/
structure Spans (p p' : Pass) (a b : Nat) : Prop where
  address : p'.address = Int32.ofNat b
  code : ∀ x, x < 2 ^ 32 → x < a ∨ b ≤ x →
    p'.image.code[Int32.ofNat x]? = p.image.code[Int32.ofNat x]?
  only : ∀ x mi, p'.image.code[x]? = some mi →
    p.image.code[x]? = some mi ∨ ∃ y, a ≤ y ∧ y + 4 ≤ b ∧ x = Int32.ofNat y
  data : b ≤ 2 ^ 31 → Blank p.image.data a → Blank p'.image.data b

theorem Spans.refl {p : Pass} {a : Nat} (ha : p.address = Int32.ofNat a) : Spans p p a a :=
  ⟨ha, fun _ _ _ => rfl, fun _ _ hx => .inl hx, fun _ hd => hd⟩

theorem Spans.trans {p p₁ p₂ : Pass} {a b c : Nat} (h : Spans p p₁ a b) (h' : Spans p₁ p₂ b c)
    (hab : a ≤ b) (hbc : b ≤ c) : Spans p p₂ a c := by
  constructor
  · exact h'.address
  · intro x hx hout
    rw [h'.code x hx (by omega), h.code x hx (by omega)]
  · intro x mi hx
    rcases h'.only x mi hx with hx | ⟨y, h1, h2, h3⟩
    · rcases h.only x mi hx with hx | ⟨y, h1, h2, h3⟩
      · exact .inl hx
      · exact .inr ⟨y, h1, by omega, h3⟩
    · exact .inr ⟨y, by omega, h2, h3⟩
  · intro hc hd
    exact h'.data hc (h.data (by omega) hd)

theorem Takes.spans {names : Names} {n a : Nat} {p p' : Pass} {item : Item}
    (h : p.Takes names n p' item) (ha : p.address = Int32.ofNat a)
    (hlt : a + item.size ≤ 2 ^ 32) : Spans p p' a (a + item.size) := by
  constructor
  · exact h.address ha
  · intro x hx hout
    exact h.code ha hlt hx hout
  · intro x mi hx
    rcases h.only ha hx with hx | ⟨rfl, hs⟩
    · exact .inl hx
    · exact .inr ⟨a, Nat.le_refl a, by omega, rfl⟩
  · intro hle hd
    exact h.data ha hle hd

theorem Goes.spans {names : Names} {c : Code} (hc : ∀ l ∈ c, l.Readable) (hn : names.Proper)
    {n a : Nat} {p p' : Pass} (h : Goes names n c p p') (ha : p.address = Int32.ofNat a)
    (hlt : a + Code.size c ≤ 2 ^ 32) : Spans p p' a (a + Code.size c) := by
  induction c generalizing n a p with
  | nil =>
    rw [goes_nil.1 h]
    exact .refl ha
  | cons l c ih =>
    have hl := hc l List.mem_cons_self
    obtain ⟨p₁, ht, hrest⟩ := (goes_cons hl hn).1 h
    rw [Code.size_cons] at hlt ⊢
    have hfirst : Spans p p₁ a (a + l.size) := by
      cases l with
      | blank =>
        rw [show p₁ = p from ht]
        exact .refl ha
      | comment s =>
        rw [show p₁ = p from ht]
        exact .refl ha
      | plain item => exact Takes.spans ht ha (by simp only [Line.size] at hlt; omega)
      | labeled label item => exact Takes.spans ht ha (by simp only [Line.size] at hlt; omega)
    have hsecond := ih (fun m hm => hc m (List.mem_cons_of_mem _ hm)) hrest hfirst.address
      (by omega)
    rw [Nat.add_assoc] at hsecond
    exact hfirst.trans hsecond (by omega) (by omega)

theorem Goes.entry {names : Names} {c : Code} (hc : ∀ l ∈ c, l.Readable) (hn : names.Proper)
    {n : Nat} {p p' : Pass} (h : Goes names n c p p')
    (he : ∀ l ∈ c, l.item? ≠ some .entry) : p'.image.entry = p.image.entry := by
  induction c generalizing n p with
  | nil => rw [goes_nil.1 h]
  | cons l c ih =>
    have hl := hc l List.mem_cons_self
    have hle := he l List.mem_cons_self
    obtain ⟨p₁, ht, hrest⟩ := (goes_cons hl hn).1 h
    rw [ih (fun m hm => hc m (List.mem_cons_of_mem _ hm)) hrest
      (fun m hm => he m (List.mem_cons_of_mem _ hm))]
    cases hi : l.item? with
    | none =>
      rw [hi] at ht
      rw [show p₁ = p from ht]
    | some item =>
      rw [hi] at ht hle
      exact (Takes.entry_of_ne ht fun hne => hle (by rw [hne])).1

/-- Code that the pass went over stands in the image that it ends with. -/
theorem Goes.holds {site : Site} {c : Code} (hc : ∀ l ∈ c, l.Readable) (hn : site.names.Proper)
    {n a : Nat} {p p' : Pass} (h : Goes site.names n c p p') (ha : p.address = Int32.ofNat a)
    (hlt : a + Code.size c ≤ 2 ^ 32) (himage : site.image.code = p'.image.code)
    (hroutine : ∀ x, a ≤ x → x < a + Code.size c → site.runtime.routine? (Int32.ofNat x) = none)
    (hlabels : ∀ e ∈ Code.labelsFrom a c, site.names.address? e.1 = some e.2) :
    site.Holds a c := by
  induction c generalizing n a p with
  | nil => trivial
  | cons l c ih =>
    have hl := hc l List.mem_cons_self
    have hrestc : ∀ m ∈ c, m.Readable := fun m hm => hc m (List.mem_cons_of_mem _ hm)
    obtain ⟨p₁, ht, hrest⟩ := (goes_cons hl hn).1 h
    rw [Code.size_cons] at hlt hroutine
    have hitem : ∀ item, l.item? = some item → l.size = item.size →
        p₁.address = Int32.ofNat (a + l.size) ∧ site.HoldsItem a item := by
      intro item hi hs
      rw [hi] at ht
      have ht : p.Takes site.names n p₁ item := ht
      have haddr := ht.address ha
      rw [← hs] at haddr
      refine ⟨haddr, ?_⟩
      cases item with
      | instruction i =>
        obtain ⟨mi, he, -, hp₁⟩ := ht
        have hs4 : l.size = 4 := hs
        refine ⟨hroutine a (Nat.le_refl a) (by omega), mi, he, ?_⟩
        have hspan := hrest.spans hrestc hn haddr (by omega)
        rw [himage, hspan.code a (by omega) (by omega), hp₁]
        show (p.image.code.insert p.address mi)[Int32.ofNat a]? = _
        rw [ha, Std.TreeMap.getElem?_insert_self]
      | entry => trivial
      | reserve k => trivial
    have hlabel : ∀ label, l.label? = some label →
        site.names.address? label = some (Int32.ofNat a) := by
      intro label hlab
      exact hlabels (label, Int32.ofNat a) (by simp [Code.labelsFrom, hlab])
    have hsplit : p₁.address = Int32.ofNat (a + l.size) ∧ site.HoldsLine a l := by
      cases l with
      | blank =>
        rw [show p₁ = p from ht]
        exact ⟨ha, trivial⟩
      | comment s =>
        rw [show p₁ = p from ht]
        exact ⟨ha, trivial⟩
      | plain item => exact hitem item rfl rfl
      | labeled label item =>
        obtain ⟨h1, h2⟩ := hitem item rfl rfl
        exact ⟨h1, hlabel label rfl, h2⟩
    refine ⟨hsplit.2, ih hrestc hrest hsplit.1 (by omega) ?_ ?_⟩
    · intro x hx hxlt
      exact hroutine x (by omega) (by omega)
    · intro e he
      exact hlabels e (by simp [Code.labelsFrom, he])

theorem ofNat_mod_four {a : Nat} (h : a % 4 = 0) : Int32.ofNat a % 4 = 0 := by
  apply Int32.toInt_inj.1
  rw [Int32.toInt_mod, show (4 : Int32).toInt = 4 from rfl, Int32.toInt_zero, Int32.toInt_ofNat']
  apply Int.tmod_eq_zero_of_dvd
  rw [Int.bmod_def, show ((Int32.size : Nat) : Int) = 4294967296 from rfl]
  split
  · omega
  · omega

theorem exists_goes {names : Names} {c : Code} (hc : ∀ l ∈ c, l.Readable) (hn : names.Proper)
    (hcode : ∀ l ∈ c, l.Known names)
    (hword : ∀ l ∈ c, l.size % 4 = 0) {n a : Nat} {p : Pass} (ha : p.address = Int32.ofNat a)
    (h4 : a % 4 = 0) (hone : c.countP (fun l => l.item? == some .entry) ≤ 1)
    (hseen : p.entrySeen = true → c.countP (fun l => l.item? == some .entry) = 0) :
    ∃ p', Goes names n c p p' := by
  induction c generalizing n a p with
  | nil => exact ⟨p, goes_nil.2 rfl⟩
  | cons l c ih =>
    have hl := hc l List.mem_cons_self
    have hw := hword l List.mem_cons_self
    have hcl := hcode l List.mem_cons_self
    rw [List.countP_cons] at hone hseen
    have hnext : ∀ p₁ : Pass, p₁.address = Int32.ofNat (a + l.size) →
        (p₁.entrySeen = true → c.countP (fun l => l.item? == some .entry) = 0) →
        (match l.item? with
          | none => p₁ = p
          | some item => p.Takes names n p₁ item) → ∃ p', Goes names n (l :: c) p p' := by
      intro p₁ haddr hs ht
      obtain ⟨p', hg⟩ := ih (fun m hm => hc m (List.mem_cons_of_mem _ hm))
        (fun m hm => hcode m (List.mem_cons_of_mem _ hm))
        (fun m hm => hword m (List.mem_cons_of_mem _ hm)) haddr (by omega) (by omega) hs
      exact ⟨p', (goes_cons hl hn).2 ⟨p₁, ht, hg⟩⟩
    have hitem : ∀ item, l.item? = some item → l.size = item.size →
        ∃ p', Goes names n (l :: c) p p' := by
      intro item hi hs
      have htake : ∀ p₁ : Pass, p.Takes names n p₁ item →
          (p₁.entrySeen = true → c.countP (fun l => l.item? == some .entry) = 0) →
          ∃ p', Goes names n (l :: c) p p' := by
        intro p₁ ht hsn
        refine hnext p₁ ?_ hsn (by rw [hi]; exact ht)
        rw [hs]
        exact ht.address ha
      cases item with
      | instruction i =>
        obtain ⟨mi, he⟩ := Option.isSome_iff_exists.1 (hcl i hi)
        refine htake (p.withInstruction n mi) ⟨mi, he, ?_, rfl⟩ ?_
        · rw [ha]
          exact ofNat_mod_four h4
        · intro hsn
          have := hseen hsn
          omega
      | entry =>
        simp only [hi, beq_self_eq_true, if_true] at hone hseen
        refine htake p.withEntry ⟨?_, rfl⟩ ?_
        · cases hsn : p.entrySeen with
          | false => rfl
          | true =>
            have := hseen hsn
            omega
        · intro _
          omega
      | reserve k =>
        refine htake (p.reserve (Int32.ofNat (Item.reserve k).size)) rfl ?_
        intro hsn
        have hsn' : p.entrySeen = true := hsn
        have := hseen hsn'
        omega
    cases l with
    | blank => exact hnext p ha (fun hs => by have := hseen hs; omega) rfl
    | comment s => exact hnext p ha (fun hs => by have := hseen hs; omega) rfl
    | plain item => exact hitem item rfl rfl
    | labeled label item => exact hitem item rfl rfl

end Assembly.Pass

/-! ### The image of a text -/

namespace Code

def names (c : Code) (symbols : List (String × Int32)) : Names :=
  ⟨(labelsFrom 0 c).reverse, symbols⟩

theorem isIdentifier_of_mem_labelsFrom {c : Code} (hc : ∀ l ∈ c, l.Readable) {a : Nat}
    {e : String × Int32} (he : e ∈ labelsFrom a c) : isIdentifier e.1.toList = true := by
  induction c generalizing a with
  | nil => cases he
  | cons l c ih =>
    simp only [labelsFrom, List.mem_append] at he
    rcases he with he | he
    · have hl := hc l List.mem_cons_self
      cases l with
      | labeled label item =>
        simp only [Line.label?, Option.map_some, Option.toList_some, List.mem_singleton] at he
        rw [he]
        exact hl.1
      | _ => cases he
    · exact ih (fun m hm => hc m (List.mem_cons_of_mem _ hm)) he

theorem mem_of_lookup {l : List (String × Int32)} {s : String} {k : Int32}
    (h : l.lookup s = some k) : (s, k) ∈ l := by
  induction l with
  | nil => cases h
  | cons p l ih =>
    obtain ⟨t, j⟩ := p
    rw [List.lookup_cons] at h
    by_cases hs : s == t
    · simp only [hs] at h
      rw [eq_of_beq hs, Option.some.inj h]
      exact List.mem_cons_self
    · simp only [hs] at h
      exact List.mem_cons_of_mem _ (ih h)

theorem names_proper {c : Code} (hc : ∀ l ∈ c, l.Readable) {symbols : List (String × Int32)}
    (hs : ∀ e ∈ symbols, isIdentifier e.1.toList = true) : (c.names symbols).Proper := by
  intro s k hk
  simp only [names, Names.address?, Option.or_eq_some_iff] at hk
  rcases hk with hk | ⟨-, hk⟩
  · exact isIdentifier_of_mem_labelsFrom hc (List.mem_reverse.1 (mem_of_lookup hk))
  · exact hs (s, k) (mem_of_lookup hk)

/-- Readable code assembles exactly when its labels are different and the second pass goes over all
of its lines. -/
theorem assemble_text_eq_ok {c : Code} (hc : ∀ l ∈ c, l.Readable)
    {symbols : List (String × Int32)} {image : Image} :
    assemble (text c) symbols = .ok image ↔
      ((labelsFrom 0 c).map Prod.fst).Nodup
        ∧ ∃ p, Pass.Goes (c.names symbols) 1 c {} p
          ∧ image = { p.image with labels := (labelsFrom 0 c).reverse } := by
  have hlab := fun r => collectLabels_sources hc 1 0 [] r
  simp only [assemble, parseLines_text hc, bind_eq_ok, pure, Except.pure, Except.ok.injEq,
    exists_eq_left', show (0 : Int32) = Int32.ofNat 0 from rfl, hlab, List.append_nil]
  constructor
  · rintro ⟨labels, ⟨hd, -, rfl⟩, p, hp, rfl⟩
    exact ⟨hd, p, hp, rfl⟩
  · rintro ⟨hd, p, hp, rfl⟩
    exact ⟨_, ⟨hd, by simp, rfl⟩, p, hp, rfl⟩

theorem holds_of_assemble {c : Code} (hc : ∀ l ∈ c, l.Readable) {rt : Runtime}
    (hs : ∀ e ∈ rt.symbols, isIdentifier e.1.toList = true) {image : Image}
    (h : assemble (text c) rt.symbols = .ok image) (hsize : size c ≤ 2 ^ 32)
    (hroutine : ∀ x, x < size c → rt.routine? (Int32.ofNat x) = none) :
    Site.Holds ⟨image, rt, c.names rt.symbols⟩ 0 c := by
  obtain ⟨hd, p, hp, himage⟩ := (assemble_text_eq_ok hc).1 h
  refine Pass.Goes.holds hc (names_proper hc hs) hp rfl (by omega) (by rw [himage]) ?_ ?_
  · intro x _ hx
    exact hroutine x (by omega)
  · intro e he
    have hd' : ((labelsFrom 0 c).reverse.map Prod.fst).Nodup := by
      rw [List.map_reverse]
      exact List.pairwise_reverse.2 (hd.imp Ne.symm)
    have hl := lookup_of_mem hd' (List.mem_reverse.2 he)
    simp [names, Names.address?, hl]

/-- Code with different labels, known names and whole words assembles. -/
theorem exists_assemble {c : Code} (hc : ∀ l ∈ c, l.Readable) {symbols : List (String × Int32)}
    (hs : ∀ e ∈ symbols, isIdentifier e.1.toList = true)
    (hd : ((labelsFrom 0 c).map Prod.fst).Nodup)
    (hcode : ∀ l ∈ c, l.Known (c.names symbols))
    (hword : ∀ l ∈ c, l.size % 4 = 0)
    (hone : c.countP (fun l => l.item? == some .entry) ≤ 1) :
    ∃ image, assemble (text c) symbols = .ok image := by
  obtain ⟨p, hp⟩ := Pass.exists_goes (n := 1) (a := 0) (p := {}) hc (names_proper hc hs) hcode hword
    rfl rfl hone (fun hf => absurd hf (by decide))
  exact ⟨_, (assemble_text_eq_ok hc).2 ⟨hd, p, hp, rfl⟩⟩

theorem image_of_assemble {c : Code} (hc : ∀ l ∈ c, l.Readable) {symbols : List (String × Int32)}
    (hs : ∀ e ∈ symbols, isIdentifier e.1.toList = true) {image : Image}
    (h : assemble (text c) symbols = .ok image) (hsize : size c ≤ 2 ^ 31) :
    (∀ x mi, image.code[x]? = some mi → ∃ y, y + 4 ≤ size c ∧ x = Int32.ofNat y)
      ∧ Pass.Blank image.data (size c) := by
  obtain ⟨-, p, hp, rfl⟩ := (assemble_text_eq_ok hc).1 h
  have hspan := hp.spans (a := 0) hc (names_proper hc hs) rfl (by omega)
  rw [Nat.zero_add] at hspan
  constructor
  · intro x mi hx
    rcases hspan.only x mi hx with hx | ⟨y, -, hy, he⟩
    · exact absurd hx (by simp)
    · exact ⟨y, hy, he⟩
  · exact hspan.data hsize ⟨Nat.le_refl 0, fun b hb => absurd hb (by simp)⟩

theorem entry_of_assemble {c d : Code} (hc : ∀ l ∈ c ++ .plain .entry :: d, l.Readable)
    {symbols : List (String × Int32)} (hs : ∀ e ∈ symbols, isIdentifier e.1.toList = true)
    {image : Image} (h : assemble (text (c ++ .plain .entry :: d)) symbols = .ok image)
    (hd : ∀ l ∈ d, l.item? ≠ some .entry) (hsize : size c ≤ 2 ^ 32) :
    image.entry = Int32.ofNat (size c) := by
  obtain ⟨-, p, hp, rfl⟩ := (assemble_text_eq_ok hc).1 h
  have hn := names_proper hc hs
  have hc₁ : ∀ l ∈ c, l.Readable := fun l hl => hc l (List.mem_append_left _ hl)
  have hc₂ : ∀ l ∈ Line.plain .entry :: d, l.Readable := fun l hl => hc l (List.mem_append_right _ hl)
  obtain ⟨p₁, h1, h2⟩ := (Pass.goes_append hc₁ hn).1 hp
  obtain ⟨p₂, ht, h3⟩ := (Pass.goes_cons (hc₂ _ List.mem_cons_self) hn).1 h2
  have haddr := (h1.spans (a := 0) hc₁ hn rfl (by omega)).address
  obtain ⟨-, rfl⟩ : p₁.entrySeen = false ∧ p₂ = p₁.withEntry := ht
  have he := h3.entry (fun l hl => hc₂ l (List.mem_cons_of_mem _ hl)) hn hd
  rw [Nat.zero_add] at haddr
  exact he.trans haddr

theorem size_data_of_assemble {c : Code} {s : String} {k : Int64}
    (hc : ∀ l ∈ c ++ [.labeled s (.reserve k)], l.Readable)
    {symbols : List (String × Int32)} (hs : ∀ e ∈ symbols, isIdentifier e.1.toList = true)
    {image : Image} (h : assemble (text (c ++ [.labeled s (.reserve k)])) symbols = .ok image)
    (hk : 0 < (Item.reserve k).size) (hsize : size (c ++ [.labeled s (.reserve k)]) < 2 ^ 31) :
    size (c ++ [.labeled s (.reserve k)]) ≤ image.data.size := by
  obtain ⟨-, p, hp, rfl⟩ := (assemble_text_eq_ok hc).1 h
  have hn := names_proper hc hs
  have hc₁ : ∀ l ∈ c, l.Readable := fun l hl => hc l (List.mem_append_left _ hl)
  have hlast : (Line.labeled s (.reserve k)).Readable := hc _ (by simp)
  simp only [size_append, size_cons, size_nil, Line.size, Nat.add_zero] at hsize ⊢
  obtain ⟨p₁, h1, h2⟩ := (Pass.goes_append hc₁ hn).1 hp
  obtain ⟨p₂, ht, h3⟩ := (Pass.goes_cons hlast hn).1 h2
  have haddr := (h1.spans (a := 0) hc₁ hn rfl (by omega)).address
  rw [Nat.zero_add] at haddr
  rw [Pass.goes_nil.1 h3]
  exact Pass.Takes.size_reserve ht haddr hk hsize

end Code

namespace Image

theorem foldl_size_le {l : List (Int32 × MachineInstruction)} {m : Int32} {n : Int}
    (hm : m.toInt ≤ n) (hl : ∀ e ∈ l, (e.1 + 4).toInt ≤ n) :
    (l.foldl (fun n e => if n < e.1 + 4 then e.1 + 4 else n) m).toInt ≤ n := by
  induction l generalizing m with
  | nil => exact hm
  | cons e l ih =>
    rw [List.foldl_cons]
    refine ih ?_ fun e he => hl e (List.mem_cons_of_mem _ he)
    split
    · exact hl e List.mem_cons_self
    · exact hm

theorem le_foldl_size (l : List (Int32 × MachineInstruction)) (m : Int32) :
    m.toInt ≤ (l.foldl (fun n e => if n < e.1 + 4 then e.1 + 4 else n) m).toInt := by
  induction l generalizing m with
  | nil => exact Int.le_refl _
  | cons e l ih =>
    rw [List.foldl_cons]
    refine Int.le_trans ?_ (ih _)
    split
    · rename_i h
      rw [Int32.lt_iff_toInt_lt] at h
      omega
    · exact Int.le_refl _

theorem le_foldl_size_of_mem {l : List (Int32 × MachineInstruction)} {e : Int32 × MachineInstruction}
    (he : e ∈ l) (m : Int32) :
    (e.1 + 4).toInt ≤ (l.foldl (fun n e => if n < e.1 + 4 then e.1 + 4 else n) m).toInt := by
  induction l generalizing m with
  | nil => cases he
  | cons d l ih =>
    rw [List.foldl_cons]
    rcases List.mem_cons.1 he with rfl | he
    · refine Int.le_trans ?_ (le_foldl_size l _)
      split
      · exact Int.le_refl _
      · rename_i h
        rw [Int32.lt_iff_toInt_lt] at h
        omega
    · exact ih he _

theorem size_congr {p q : Image}
    (hcode : ∀ addr : Int32, p.code[addr]?.isSome = q.code[addr]?.isSome) (hdata : p.data = q.data) :
    p.size = q.size := by
  have hle : ∀ {p q : Image}, (∀ addr : Int32, p.code[addr]?.isSome = q.code[addr]?.isSome) →
      p.data = q.data → p.size.toInt ≤ q.size.toInt := by
    intro p q hcode hdata
    rw [size, size, Std.TreeMap.foldl_eq_foldl_toList, Std.TreeMap.foldl_eq_foldl_toList, hdata]
    refine foldl_size_le (le_foldl_size _ _) fun e he => ?_
    have hsome : q.code[e.1]?.isSome = true := by
      rw [← hcode, Std.TreeMap.mem_toList_iff_getElem?_eq_some.1 he]
      rfl
    obtain ⟨j, hj⟩ := Option.isSome_iff_exists.1 hsome
    exact le_foldl_size_of_mem (e := (e.1, j)) (Std.TreeMap.mem_toList_iff_getElem?_eq_some.2 hj) _
  exact Int32.toInt_inj.1 (Int.le_antisymm (hle hcode hdata)
    (hle (fun addr => (hcode addr).symm) hdata.symm))

theorem size_bounds {p : Image} {n : Nat} (hn : n < 2 ^ 31)
    (hcode : ∀ x mi, p.code[x]? = some mi → ∃ y, y + 4 ≤ n ∧ x = Int32.ofNat y)
    (hdata : p.data.size ≤ n) : (p.data.size : Int) ≤ p.size.toInt ∧ p.size.toInt ≤ n := by
  have hd : (Int32.ofNat p.data.size).toInt = p.data.size :=
    Int32.toInt_ofNat_of_lt (by omega)
  rw [size, Std.TreeMap.foldl_eq_foldl_toList]
  constructor
  · have hle := le_foldl_size p.code.toList (Int32.ofNat p.data.size)
    rw [hd] at hle
    exact hle
  · refine foldl_size_le (by omega) ?_
    intro e he
    obtain ⟨y, hy, hx⟩ := hcode e.1 e.2 (Std.TreeMap.mem_toList_iff_getElem?_eq_some.1 he)
    rw [hx, show (4 : Int32) = Int32.ofNat 4 from rfl, ← Int32.ofNat_add,
      Int32.toInt_ofNat_of_lt (by omega)]
    omega

end Image

end MoonBackend
