import MoonBackend.Proofs.Assembly.Exact

/-!
# Two texts assembled side by side

Lines without label and content are idle: both passes step over them. Two texts whose other lines ask
for the same labels and directives, and for instructions that a relation `I` holds between, are both
refused, or have images that differ in nothing but these instructions and the line numbers.
-/

namespace MoonBackend.Assembly

open Text

inductive Alike {ε α β : Type} (R : α → β → Prop) : Except ε α → Except ε β → Prop
  | ok {x : α} {y : β} : R x y → Alike R (.ok x) (.ok y)
  | error (e e' : ε) : Alike R (.error e) (.error e')

namespace Alike

variable {ε α β γ δ : Type} {R : α → β → Prop} {S : γ → δ → Prop}

theorem bind {x : Except ε α} {y : Except ε β} {f : α → Except ε γ} {g : β → Except ε δ}
    (h : Alike R x y) (hf : ∀ a b, R a b → Alike S (f a) (g b)) : Alike S (x >>= f) (y >>= g) := by
  cases h with
  | ok hr => exact hf _ _ hr
  | error e e' => exact .error e e'

theorem cases {x : Except ε α} {y : Except ε β} (h : Alike R x y) :
    (∃ e e', x = .error e ∧ y = .error e') ∨ ∃ a b, x = .ok a ∧ y = .ok b ∧ R a b := by
  cases h with
  | ok hr => exact .inr ⟨_, _, rfl, rfl, hr⟩
  | error e e' => exact .inl ⟨e, e', rfl, rfl⟩

end Alike

/-! ### Operands -/

theorem parseImmediate_alike (names : Names) (n m : ℕ) (token : String) :
    Alike Eq (parseImmediate names n token) (parseImmediate names m token) := by
  unfold parseImmediate
  split
  · split
    · exact .error _ _
    · exact .ok rfl
  · split
    · exact .ok rfl
    · split
      · exact .error _ _
      · exact .error _ _

theorem parseRegister_alike (n m : ℕ) (token : String) :
    Alike Eq (parseRegister n token) (parseRegister m token) := by
  unfold parseRegister
  split
  · exact .ok rfl
  · exact .error _ _

theorem parseIndexed_alike (names : Names) (n m : ℕ) (token : String) :
    Alike Eq (parseIndexed names n token) (parseIndexed names m token) := by
  unfold parseIndexed
  simp only
  split
  · refine (parseImmediate_alike names n m _).bind fun k _ hk => ?_
    refine (parseRegister_alike n m _).bind fun r _ hr => ?_
    subst hk hr
    exact .ok rfl
  · exact .error _ _

theorem parseInstruction_alike (names : Names) (n m : ℕ) (op : Opcode) (operands : List String) :
    Alike Eq (parseInstruction names n op operands) (parseInstruction names m op operands) := by
  unfold parseInstruction
  split
  · exact .ok rfl
  · refine (parseRegister_alike n m _).bind fun ri _ hi => ?_
    refine (parseIndexed_alike names n m _).bind fun kj _ hkj => ?_
    subst hi hkj
    exact .ok rfl
  · refine (parseIndexed_alike names n m _).bind fun kj _ hkj => ?_
    refine (parseRegister_alike n m _).bind fun ri _ hi => ?_
    subst hi hkj
    exact .ok rfl
  · refine (parseRegister_alike n m _).bind fun ri _ hi => (parseRegister_alike n m _).bind
      fun rj _ hj => (parseRegister_alike n m _).bind fun rk _ hk => ?_
    subst hi hj hk
    exact .ok rfl
  · refine (parseRegister_alike n m _).bind fun ri _ hi => (parseRegister_alike n m _).bind
      fun rj _ hj => ?_
    subst hi hj
    exact .ok rfl
  · refine (parseRegister_alike n m _).bind fun ri _ hi => (parseRegister_alike n m _).bind
      fun rj _ hj => (parseImmediate_alike names n m _).bind fun k _ hk => ?_
    subst hi hj hk
    exact .ok rfl
  · refine (parseRegister_alike n m _).bind fun ri _ hi =>
      (parseImmediate_alike names n m _).bind fun k _ hk => ?_
    subst hi hk
    exact .ok rfl
  · refine (parseRegister_alike n m _).bind fun ri _ hi => ?_
    subst hi
    exact .ok rfl
  · refine (parseImmediate_alike names n m _).bind fun k _ hk => ?_
    subst hk
    exact .ok rfl
  · exact .error _ _

/-! ### Lines -/

variable {I : MachineInstruction → MachineInstruction → Prop}

/-- The line has neither a label nor content. -/
def SourceLine.Idle (l : SourceLine) : Prop := l.label = "" ∧ l.mnemonic = ""

/-- The lines ask for the same, except that their instructions are only related. -/
structure SourceLine.Mirrors (I : MachineInstruction → MachineInstruction → Prop)
    (l m : SourceLine) : Prop where
  label : l.label = m.label
  mnemonic : l.mnemonic = m.mnemonic
  operands : Opcode.parse? l.mnemonic = none → l.operands = m.operands
  instruction : ∀ op, Opcode.parse? l.mnemonic = some op → ∀ names,
    Alike I (parseInstruction names l.number op l.operands)
      (parseInstruction names m.number op m.operands)

/-- The lines mirror each other, apart from idle ones. -/
inductive Mirror (I : MachineInstruction → MachineInstruction → Prop) :
    List SourceLine → List SourceLine → Prop
  | nil : Mirror I [] []
  | cons {l m : SourceLine} {ls ms : List SourceLine} : l.Mirrors I m → Mirror I ls ms →
    Mirror I (l :: ls) (m :: ms)
  | left {l : SourceLine} {ls ms : List SourceLine} : l.Idle → Mirror I ls ms →
    Mirror I (l :: ls) ms
  | right {m : SourceLine} {ls ms : List SourceLine} : m.Idle → Mirror I ls ms →
    Mirror I ls (m :: ms)

theorem Mirror.append {ls ms ls' ms' : List SourceLine} (h : Mirror I ls ms) (h' : Mirror I ls' ms') :
    Mirror I (ls ++ ls') (ms ++ ms') := by
  induction h with
  | nil => exact h'
  | cons hl _ ih => exact .cons hl ih
  | left hl _ ih => exact .left hl ih
  | right hm _ ih => exact .right hm ih

/-! ### The first pass -/

theorem SourceLine.Idle.lineStart {l : SourceLine} (h : l.Idle) (addr : Int32) :
    lineStart l addr = .ok addr := by
  rw [Assembly.lineStart, h.2]
  rfl

theorem SourceLine.Idle.addLabel {l : SourceLine} (h : l.Idle) (addr : Int32)
    (labels : List (String × Int32)) : addLabel l addr labels = .ok labels := by
  rw [Assembly.addLabel, h.1]
  rfl

theorem SourceLine.Idle.lineSize {l : SourceLine} (h : l.Idle) : lineSize l = .ok 0 := by
  rw [Assembly.lineSize, h.2]
  rfl

theorem SourceLine.Idle.collectLabels {l : SourceLine} (h : l.Idle) (addr : Int32)
    (labels : List (String × Int32)) (ls : List SourceLine) :
    collectLabels addr labels (l :: ls) = collectLabels addr labels ls := by
  rw [Assembly.collectLabels, h.lineStart]
  simp only [h.addLabel, h.lineSize, Int32.add_zero]

namespace SourceLine.Mirrors

variable {l m : SourceLine}

theorem origin (h : l.operands = m.operands) (addr : Int32) :
    Alike Eq (origin l addr) (origin m addr) := by
  unfold Assembly.origin
  rw [h]
  split
  · split
    · exact .error _ _
    · split
      · exact .error _ _
      · exact .ok rfl
  · exact .error _ _

theorem reserved (h : l.operands = m.operands) : Alike Eq (reserved l) (reserved m) := by
  unfold Assembly.reserved
  rw [h]
  split
  · split
    · exact .error _ _
    · split
      · exact .error _ _
      · exact .ok rfl
  · exact .error _ _

theorem operands_of_eq (h : l.Mirrors I m) {s : String} (hs : (l.mnemonic == s) = true)
    (hp : Opcode.parse? s = none) : l.operands = m.operands :=
  h.operands (by rw [eq_of_beq hs, hp])

theorem lineStart (h : l.Mirrors I m) (addr : Int32) :
    Alike Eq (lineStart l addr) (lineStart m addr) := by
  unfold Assembly.lineStart
  rw [← h.mnemonic]
  split
  · rename_i horg
    exact origin (h.operands_of_eq horg (by decide)) addr
  · split
    · exact .ok rfl
    · exact .ok rfl

theorem addLabel (h : l.Mirrors I m) (addr : Int32) (labels : List (String × Int32)) :
    Alike Eq (addLabel l addr labels) (addLabel m addr labels) := by
  unfold Assembly.addLabel
  rw [← h.label]
  split
  · exact .ok rfl
  · split
    · exact .error _ _
    · exact .ok rfl

theorem lineSize (h : l.Mirrors I m) : Alike Eq (lineSize l) (lineSize m) := by
  unfold Assembly.lineSize
  rw [← h.mnemonic]
  split
  · exact .ok rfl
  · split
    · rename_i hdw
      rw [h.operands_of_eq hdw (by decide)]
      exact .ok rfl
    · split
      · rename_i hdb
        rw [h.operands_of_eq hdb (by decide)]
        exact .ok rfl
      · split
        · rename_i hres
          exact reserved (h.operands_of_eq hres (by decide))
        · split
          · exact .ok rfl
          · exact .error _ _

end SourceLine.Mirrors

theorem Mirror.collectLabels {ls ms : List SourceLine} (h : Mirror I ls ms) (addr : Int32)
    (labels : List (String × Int32)) :
    Alike Eq (collectLabels addr labels ls) (collectLabels addr labels ms) := by
  induction h generalizing addr labels with
  | nil => exact .ok rfl
  | left hl _ ih =>
    rw [hl.collectLabels]
    exact ih addr labels
  | right hm _ ih =>
    rw [hm.collectLabels]
    exact ih addr labels
  | @cons l m ls ms hl _ ih =>
    unfold Assembly.collectLabels
    rcases (hl.lineStart addr).cases with ⟨e, e', hx, hy⟩ | ⟨start, _, hx, hy, rfl⟩
    · rw [hx, hy]
      exact .error e e'
    rw [hx, hy]
    simp only
    rcases (hl.addLabel start labels).cases with ⟨e, e', hx, hy⟩ | ⟨labels, _, hx, hy, rfl⟩
    · rw [hx, hy]
      exact .error e e'
    rw [hx, hy]
    simp only
    rcases hl.lineSize.cases with ⟨e, e', hx, hy⟩ | ⟨size, _, hx, hy, rfl⟩
    · rw [hx, hy]
      exact .error e e'
    rw [hx, hy]
    exact ih _ _

/-! ### The second pass -/

/-- The images differ in nothing but their instructions, which are related, and the line numbers. -/
structure ImageMirrors (I : MachineInstruction → MachineInstruction → Prop) (x y : Image) : Prop where
  code : ∀ addr : Int32, Option.Rel I x.code[addr]? y.code[addr]?
  data : x.data = y.data
  entry : x.entry = y.entry
  labels : x.labels = y.labels

/-- The passes stand at the same address and have made images that mirror each other. -/
structure Pass.Mirrors (I : MachineInstruction → MachineInstruction → Prop) (p q : Pass) : Prop where
  address : p.address = q.address
  entrySeen : p.entrySeen = q.entrySeen
  image : ImageMirrors I p.image q.image

namespace Pass.Mirrors

variable {p q : Pass}

theorem start : Mirrors I {} {} := by
  refine ⟨rfl, rfl, fun addr => ?_, rfl, rfl, rfl⟩
  simp only [Std.TreeMap.getElem?_emptyc]
  exact .none

theorem moved (h : Mirrors I p q) (addr : Int32) :
    Mirrors I { p with address := addr } { q with address := addr } := ⟨rfl, h.entrySeen, h.image⟩

theorem putByte (h : Mirrors I p q) (b : UInt8) : Mirrors I (p.putByte b) (q.putByte b) := by
  unfold Pass.putByte
  rw [h.address, h.image.data]
  exact ⟨rfl, h.entrySeen, h.image.code, rfl, h.image.entry, h.image.labels⟩

theorem putWord (h : Mirrors I p q) (v : Int32) : Mirrors I (p.putWord v) (q.putWord v) :=
  (((h.putByte _).putByte _).putByte _).putByte _

theorem reserve (h : Mirrors I p q) (n : Int32) : Mirrors I (p.reserve n) (q.reserve n) := by
  unfold Pass.reserve
  rw [h.address, h.image.data]
  exact ⟨rfl, h.entrySeen, h.image.code, rfl, h.image.entry, h.image.labels⟩

theorem putInstruction (h : Mirrors I p q) {i j : MachineInstruction} (hi : I i j) (n m : ℕ) :
    Alike (Mirrors I) (p.putInstruction n i) (q.putInstruction m j) := by
  unfold Pass.putInstruction
  rw [h.address]
  split
  · exact .error _ _
  · refine .ok ⟨rfl, h.entrySeen, fun addr => ?_, h.image.data, h.image.entry, h.image.labels⟩
    simp only [Std.TreeMap.getElem?_insert]
    split
    · exact .some hi
    · exact h.image.code addr

theorem setEntry (h : Mirrors I p q) (n m : ℕ) : Alike (Mirrors I) (p.setEntry n) (q.setEntry m) := by
  unfold Pass.setEntry
  rw [h.entrySeen]
  split
  · exact .error _ _
  · exact .ok ⟨h.address, rfl, h.image.code, h.image.data, h.address, h.image.labels⟩

theorem putWords (h : Mirrors I p q) (names : Names) (n m : ℕ) (operands : List String) :
    Alike (Mirrors I) (Pass.putWords names n operands p) (Pass.putWords names m operands q) := by
  induction operands generalizing p q with
  | nil => exact .ok h
  | cons operand rest ih =>
    unfold Pass.putWords
    rcases (parseImmediate_alike names n m operand).cases with ⟨e, e', hx, hy⟩ | ⟨v, _, hx, hy, rfl⟩
    · rw [hx, hy]
      exact .error e e'
    · rw [hx, hy]
      exact ih (h.putWord v)

theorem putBytes (h : Mirrors I p q) (names : Names) (n m : ℕ) (operands : List String) :
    Alike (Mirrors I) (Pass.putBytes names n operands p) (Pass.putBytes names m operands q) := by
  induction operands generalizing p q with
  | nil => exact .ok h
  | cons operand rest ih =>
    unfold Pass.putBytes
    rcases (parseImmediate_alike names n m operand).cases with ⟨e, e', hx, hy⟩ | ⟨v, _, hx, hy, rfl⟩
    · rw [hx, hy]
      exact .error e e'
    · rw [hx, hy]
      simp only
      split
      · exact .error _ _
      · exact ih (h.putByte _)

theorem line_idle {l : SourceLine} (hl : l.Idle) (names : Names) (p : Pass) : p.line names l = .ok p := by
  rw [Pass.line, hl.2]
  rfl

theorem line {l m : SourceLine} (h : Mirrors I p q) (hl : l.Mirrors I m) (names : Names) :
    Alike (Mirrors I) (p.line names l) (q.line names m) := by
  unfold Pass.line
  rw [← hl.mnemonic]
  split
  · exact .ok h
  split
  · exact h.setEntry _ _
  split
  · rename_i horg
    rw [← h.address]
    rcases (SourceLine.Mirrors.origin (hl.operands_of_eq horg (by decide)) p.address).cases with
      ⟨e, e', hx, hy⟩ | ⟨target, _, hx, hy, rfl⟩
    · rw [hx, hy]
      exact .error e e'
    · rw [hx, hy]
      exact .ok (h.moved target)
  split
  · rw [h.address]
    exact .ok (h.moved _)
  split
  · rename_i hres
    rcases (SourceLine.Mirrors.reserved (hl.operands_of_eq hres (by decide))).cases with
      ⟨e, e', hx, hy⟩ | ⟨n, _, hx, hy, rfl⟩
    · rw [hx, hy]
      exact .error e e'
    · rw [hx, hy]
      exact .ok (h.reserve n)
  split
  · rename_i hdw
    rw [hl.operands_of_eq hdw (by decide)]
    exact h.putWords _ _ _ _
  split
  · rename_i hdb
    rw [hl.operands_of_eq hdb (by decide)]
    exact h.putBytes _ _ _ _
  cases hop : Opcode.parse? l.mnemonic with
  | none => exact .error _ _
  | some op =>
    simp only
    rcases (hl.instruction op hop names).cases with ⟨e, e', hx, hy⟩ | ⟨i, j, hx, hy, hi⟩
    · rw [hx, hy]
      exact .error e e'
    · rw [hx, hy]
      exact h.putInstruction hi _ _

end Pass.Mirrors

theorem Mirror.lines {ls ms : List SourceLine} (h : Mirror I ls ms) (names : Names) {p q : Pass}
    (hpq : p.Mirrors I q) : Alike (Pass.Mirrors I) (Pass.lines names ls p) (Pass.lines names ms q) := by
  induction h generalizing p q with
  | nil => exact .ok hpq
  | left hl _ ih =>
    rw [Pass.lines, Pass.Mirrors.line_idle hl]
    exact ih hpq
  | right hm _ ih =>
    rw [Pass.lines, Pass.Mirrors.line_idle hm]
    exact ih hpq
  | cons hl _ ih =>
    unfold Pass.lines
    rcases (hpq.line hl names).cases with ⟨e, e', hx, hy⟩ | ⟨p', q', hx, hy, hpq'⟩
    · rw [hx, hy]
      exact .error e e'
    · rw [hx, hy]
      exact ih hpq'

/-! ### Texts -/

def IdleText (raw : List Char) : Prop := ∀ n, parseLine n raw = .ok { number := n }

/-- Both lines are refused, or they are read as lines that mirror each other. -/
def MirrorText (I : MachineInstruction → MachineInstruction → Prop) (x y : List Char) : Prop :=
  ∀ n m, Alike (SourceLine.Mirrors I) (parseLine n x) (parseLine m y)

inductive MirrorTexts (I : MachineInstruction → MachineInstruction → Prop) :
    List (List Char) → List (List Char) → Prop
  | nil : MirrorTexts I [] []
  | cons {x y : List Char} {xs ys : List (List Char)} : MirrorText I x y → MirrorTexts I xs ys →
    MirrorTexts I (x :: xs) (y :: ys)
  | left {x : List Char} {xs ys : List (List Char)} : IdleText x → MirrorTexts I xs ys →
    MirrorTexts I (x :: xs) ys
  | right {y : List Char} {xs ys : List (List Char)} : IdleText y → MirrorTexts I xs ys →
    MirrorTexts I xs (y :: ys)

theorem parseOperands_alike (n m : ℕ) (rest : List Char) :
    Alike Eq (parseOperands n rest) (parseOperands m rest) := by
  unfold parseOperands
  split
  · exact .ok rfl
  · simp only
    split
    · exact .error _ _
    · exact .ok rfl

theorem MirrorText.refl (x : List Char) : MirrorText Eq x x := by
  intro n m
  have hitem : ∀ label ws, Alike (SourceLine.Mirrors Eq) (parseItem n label ws) (parseItem m label ws) := by
    rintro label (_ | ⟨name, rest⟩)
    · exact .ok ⟨rfl, rfl, fun _ => rfl, fun _ _ _ => parseInstruction_alike _ _ _ _ _⟩
    · refine (parseOperands_alike n m _).bind fun operands _ h => ?_
      subst h
      exact .ok ⟨rfl, rfl, fun _ => rfl, fun _ _ _ => parseInstruction_alike _ _ _ _ _⟩
  unfold parseLine
  simp only
  split
  · split
    · exact hitem _ _
    · split
      · exact hitem _ _
      · exact .error _ _
  · exact .ok ⟨rfl, rfl, fun _ => rfl, fun _ _ _ => parseInstruction_alike _ _ _ _ _⟩

theorem MirrorTexts.refl (xs : List (List Char)) : MirrorTexts Eq xs xs := by
  induction xs with
  | nil => exact .nil
  | cons x xs ih => exact .cons (.refl x) ih

theorem MirrorTexts.append {xs ys xs' ys' : List (List Char)} (h : MirrorTexts I xs ys)
    (h' : MirrorTexts I xs' ys') : MirrorTexts I (xs ++ xs') (ys ++ ys') := by
  induction h with
  | nil => exact h'
  | cons hx _ ih => exact .cons hx ih
  | left hx _ ih => exact .left hx ih
  | right hy _ ih => exact .right hy ih

theorem MirrorTexts.parseLinesFrom {xs ys : List (List Char)} (h : MirrorTexts I xs ys) (n m : ℕ)
    {done done' : List SourceLine} (hd : Mirror I done.reverse done'.reverse) :
    Alike (Mirror I) (parseLinesFrom n done xs) (parseLinesFrom m done' ys) := by
  induction h generalizing n m done done' with
  | nil => exact .ok hd
  | left hx _ ih =>
    rw [Assembly.parseLinesFrom, hx]
    refine ih _ _ ?_
    rw [List.reverse_cons, ← List.append_nil done'.reverse]
    exact hd.append (.left ⟨rfl, rfl⟩ .nil)
  | right hy _ ih =>
    rw [Assembly.parseLinesFrom, hy]
    refine ih _ _ ?_
    rw [List.reverse_cons, ← List.append_nil done.reverse]
    exact hd.append (.right ⟨rfl, rfl⟩ .nil)
  | cons hx _ ih =>
    unfold Assembly.parseLinesFrom
    rcases (hx n m).cases with ⟨e, e', hx, hy⟩ | ⟨l, l', hx, hy, hl⟩
    · rw [hx, hy]
      exact .error e e'
    · rw [hx, hy]
      refine ih _ _ ?_
      rw [List.reverse_cons, List.reverse_cons]
      exact hd.append (.cons hl .nil)

/-- Texts whose lines mirror each other are both refused, or have images that mirror each other. -/
theorem assemble_mirrors {t u : String} (h : MirrorTexts I (lines t.toList) (lines u.toList))
    (symbols : List (String × Int32)) :
    Alike (ImageMirrors I) (assemble t symbols) (assemble u symbols) := by
  refine (h.parseLinesFrom 1 1 (by exact .nil)).bind fun source source' hsource => ?_
  refine (hsource.collectLabels 0 []).bind fun labels _ hlabels => ?_
  subst hlabels
  refine (hsource.lines ⟨labels, symbols⟩ .start).bind fun p q hpq => .ok ?_
  exact ⟨hpq.image.code, hpq.image.data, hpq.image.entry, rfl⟩

end MoonBackend.Assembly
