import MoonBackend.Proofs.Assembly.Acceptable

/-!
# Where instructions go on

The instructions of an image are those of the lines that it was made from, each at the address of
its line, however long the text is. Where every instruction that goes on is followed by another one
in the text, the next address of the image has an instruction too.
-/

namespace MoonBackend

open Text Assembly

namespace Code

/-- The first line that holds something holds an instruction. -/
def Starts : Code → Prop
  | [] => False
  | l :: c =>
    match l.item? with
    | none => Starts c
    | some (.instruction _) => True
    | some _ => False

/-- Every instruction that goes on to the next one is followed by an instruction. -/
def Flows : Code → Prop
  | [] => True
  | l :: c => (∀ i, l.item? = some (.instruction i) → i.op ∉ [Opcode.hlt, .j, .jr] → Starts c)
    ∧ Flows c

def Instructions (c : Code) : Prop :=
  ∀ l ∈ c, ∀ item, l.item? = some item → ∃ i, item = .instruction i

theorem starts_instruction {l : Line} {i : Instruction Register Operand} {c : Code}
    (h : l.item? = some (.instruction i)) : Starts (l :: c) := by
  simp [Starts, h]

theorem starts_skip {l : Line} {c : Code} (h : l.item? = none) : Starts (l :: c) ↔ Starts c := by
  simp [Starts, h]

theorem flows_skip {l : Line} {c : Code} (h : l.item? = none) : Flows (l :: c) ↔ Flows c := by
  simp [Flows, h]

theorem Instructions.flows {c d : Code} (hc : Instructions c) (hd : Flows d) (hs : Starts d) :
    Flows (c ++ d) ∧ Starts (c ++ d) := by
  induction c with
  | nil => exact ⟨hd, hs⟩
  | cons l c ih =>
    obtain ⟨hflows, hstarts⟩ := ih fun m hm => hc m (List.mem_cons_of_mem _ hm)
    rw [List.cons_append]
    cases hl : l.item? with
    | none => exact ⟨(flows_skip hl).2 hflows, (starts_skip hl).2 hstarts⟩
    | some item =>
      obtain ⟨i, rfl⟩ := hc l List.mem_cons_self item hl
      exact ⟨⟨fun _ _ _ => hstarts, hflows⟩, starts_instruction hl⟩

theorem Starts.exists_instruction {c : Code} (h : Starts c) :
    ∃ gap l i after, c = gap ++ l :: after ∧ size gap = 0 ∧ l.item? = some (.instruction i) := by
  induction c with
  | nil => exact h.elim
  | cons l c ih =>
    cases hl : l.item? with
    | none =>
      obtain ⟨gap, l', i, after, rfl, hsize, hi⟩ := ih ((starts_skip hl).1 h)
      refine ⟨l :: gap, l', i, after, rfl, ?_, hi⟩
      rw [size_cons, hsize]
      cases l <;> first | rfl | cases hl
    | some item =>
      cases item with
      | instruction i => exact ⟨[], l, i, c, rfl, rfl, hl⟩
      | entry => simp [Starts, hl] at h
      | reserve n => simp [Starts, hl] at h

theorem Flows.starts {before after : Code} {l : Line} {i : Instruction Register Operand}
    (h : Flows (before ++ l :: after)) (hl : l.item? = some (.instruction i))
    (hop : i.op ∉ [Opcode.hlt, .j, .jr]) : Starts after := by
  induction before with
  | nil => exact h.1 i hl hop
  | cons m before ih => exact ih h.2

theorem size_of_instruction {l : Line} {i : Instruction Register Operand}
    (h : l.item? = some (.instruction i)) : l.size = 4 := by
  cases l with
  | blank => cases h
  | comment => cases h
  | plain item | labeled _ item =>
    rw [Option.some.inj h]
    rfl

/-- The instructions of code from an address onwards, with their addresses. -/
def instructionsFrom (a : Nat) : Code → List (Nat × Instruction Register Operand)
  | [] => []
  | l :: c =>
    match l.item? with
    | some (.instruction i) => (a, i) :: instructionsFrom (a + l.size) c
    | _ => instructionsFrom (a + l.size) c

theorem mem_instructionsFrom {a y : Nat} {i : Instruction Register Operand} {c : Code} :
    (y, i) ∈ instructionsFrom a c ↔ ∃ before l after, c = before ++ l :: after
      ∧ l.item? = some (.instruction i) ∧ y = a + size before := by
  induction c generalizing a with
  | nil => simp [instructionsFrom]
  | cons l c ih =>
    have hsplit : (∃ before m after, l :: c = before ++ m :: after
          ∧ m.item? = some (.instruction i) ∧ y = a + size before)
        ↔ (l.item? = some (.instruction i) ∧ y = a) ∨ ∃ before m after, c = before ++ m :: after
          ∧ m.item? = some (.instruction i) ∧ y = a + l.size + size before := by
      constructor
      · rintro ⟨before, m, after, hc, hm, rfl⟩
        cases before with
        | nil =>
          obtain ⟨rfl, -⟩ := List.cons.inj hc
          exact .inl ⟨hm, rfl⟩
        | cons b before =>
          obtain ⟨rfl, rfl⟩ := List.cons.inj hc
          exact .inr ⟨before, m, after, rfl, hm, by rw [size_cons]; omega⟩
      · rintro (⟨hl, rfl⟩ | ⟨before, m, after, rfl, hm, rfl⟩)
        · exact ⟨[], l, c, rfl, hl, rfl⟩
        · exact ⟨l :: before, m, after, rfl, hm, by rw [size_cons]; omega⟩
    rw [hsplit, ← ih, instructionsFrom]
    split
    · rename_i j hl
      simp [hl, eq_comm, and_comm]
    · rename_i hl
      exact (or_iff_right fun h => hl i h.1).symm

end Code

namespace Assembly.Pass

/-- The instructions of the pass are those of the lines from an address onwards and those that it had
before. -/
structure Carries (names : Names) (a : Nat) (c : Code) (p p' : Pass) : Prop where
  line : ∀ e ∈ Code.instructionsFrom a c, (e.2.encode? names).isSome = true
    ∧ Int32.ofNat e.1 ∈ p'.image.code
  only : ∀ x mi, p'.image.code[x]? = some mi → p.image.code[x]? = some mi
    ∨ ∃ e ∈ Code.instructionsFrom a c, e.2.encode? names = some mi ∧ x = Int32.ofNat e.1
  kept : ∀ x ∈ p.image.code, x ∈ p'.image.code

theorem Goes.carries {names : Names} {c : Code} (hc : ∀ l ∈ c, l.Readable) (hn : names.Proper)
    {n a : Nat} {p p' : Pass} (h : Goes names n c p p') (ha : p.address = Int32.ofNat a) :
    Carries names a c p p' := by
  induction c generalizing n a p with
  | nil =>
    rw [goes_nil.1 h]
    exact ⟨by simp [Code.instructionsFrom], fun _ _ hx => .inl hx, fun _ hx => hx⟩
  | cons l c ih =>
    have hl := hc l List.mem_cons_self
    obtain ⟨p₁, ht, hrest⟩ := (goes_cons hl hn).1 h
    have htail : p₁.address = Int32.ofNat (a + l.size) → Carries names (a + l.size) c p₁ p' :=
      ih (fun m hm => hc m (List.mem_cons_of_mem _ hm)) hrest
    -- a line without an instruction leaves the instructions alone
    have hskip : (∀ i, l.item? ≠ some (.instruction i)) → p₁.image.code = p.image.code →
        p₁.address = Int32.ofNat (a + l.size) → Carries names a (l :: c) p p' := by
      intro hno hcode haddr
      obtain ⟨hline, honly, hkept⟩ := htail haddr
      have hfrom : Code.instructionsFrom a (l :: c) = Code.instructionsFrom (a + l.size) c := by
        rw [Code.instructionsFrom]
        split
        · exact absurd ‹_› (hno _)
        · rfl
      rw [hcode] at honly hkept
      exact ⟨hfrom ▸ hline, hfrom ▸ honly, hkept⟩
    cases hi : l.item? with
    | none =>
      rw [hi] at ht
      have hsize : l.size = 0 := by cases l <;> first | rfl | cases hi
      obtain rfl : p₁ = p := ht
      exact hskip (by simp [hi]) rfl (by rw [hsize]; exact ha)
    | some item =>
      rw [hi] at ht
      have hsize : l.size = item.size := by
        cases l <;> first | cases hi; rfl | cases hi
      have haddr := Takes.address ht ha
      rw [← hsize] at haddr
      cases item with
      | entry =>
        obtain ⟨-, rfl⟩ := ht
        exact hskip (by simp [hi]) rfl haddr
      | reserve k =>
        have hp : p₁ = _ := ht
        exact hskip (by simp [hi]) (by rw [hp]; rfl) haddr
      | instruction i =>
        obtain ⟨mi, hmi, -, rfl⟩ := ht
        obtain ⟨hline, honly, hkept⟩ := htail haddr
        have hfrom : Code.instructionsFrom a (l :: c)
            = (a, i) :: Code.instructionsFrom (a + l.size) c := by
          rw [Code.instructionsFrom, hi]
        have hget : ∀ x, (p.withInstruction n mi).image.code[x]?
            = if Int32.ofNat a = x then some mi else p.image.code[x]? := by
          intro x
          show (p.image.code.insert p.address mi)[x]? = _
          rw [Std.TreeMap.getElem?_insert, ha]
          simp
        refine ⟨?_, fun x mi' hx => ?_, fun x hx => hkept x ?_⟩
        · rw [hfrom]
          refine List.forall_mem_cons.2 ⟨⟨by rw [hmi]; rfl, hkept _ ?_⟩, hline⟩
          exact Std.TreeMap.mem_insert.2 (.inl (by rw [ha]; simp))
        · rw [hfrom]
          rcases honly x mi' hx with hx | ⟨e, he, hx⟩
          · rw [hget] at hx
            split at hx
            · exact .inr ⟨(a, i), List.mem_cons_self, by rw [hmi, Option.some.inj hx], (‹_› : _ = x).symm⟩
            · exact .inl hx
          · exact .inr ⟨e, List.mem_cons_of_mem _ he, hx⟩
        · exact Std.TreeMap.mem_insert.2 (.inr hx)

end Assembly.Pass

namespace Code

variable {c : Code} {symbols : List (String × Int32)} {image : Image}

/-- The instructions of an image are those of the lines. -/
theorem carries_of_assemble (hc : ∀ l ∈ c, l.Readable)
    (hs : ∀ e ∈ symbols, isIdentifier e.1.toList = true)
    (h : assemble (text c) symbols = .ok image) :
    (∀ before l after i, c = before ++ l :: after → l.item? = some (.instruction i) →
        (i.encode? (c.names symbols)).isSome = true ∧ Int32.ofNat (size before) ∈ image.code)
      ∧ ∀ x mi, image.code[x]? = some mi → ∃ before l after i, c = before ++ l :: after
        ∧ l.item? = some (.instruction i) ∧ i.encode? (c.names symbols) = some mi
        ∧ x = Int32.ofNat (size before) := by
  obtain ⟨-, p, hp, rfl⟩ := (assemble_text_eq_ok hc).1 h
  obtain ⟨hline, honly, -⟩ := hp.carries (a := 0) hc (names_proper hc hs) rfl
  refine ⟨fun before l after i he hl => ?_, fun x mi hx => ?_⟩
  · have := hline _ ((mem_instructionsFrom (a := 0)).2 ⟨before, l, after, he, hl, rfl⟩)
    rwa [Nat.zero_add] at this
  · rcases honly x mi hx with hx | ⟨⟨y, i⟩, he, hmi, rfl⟩
    · exact absurd hx (by simp)
    · obtain ⟨before, l, after, hc, hl, rfl⟩ := mem_instructionsFrom.1 he
      exact ⟨before, l, after, i, hc, hl, hmi, by rw [Nat.zero_add]⟩

/-- Behind every instruction that goes on the image has another one. -/
theorem next_of_assemble (hc : ∀ l ∈ c, l.Readable)
    (hs : ∀ e ∈ symbols, isIdentifier e.1.toList = true)
    (h : assemble (text c) symbols = .ok image) (hf : Flows c) {x : Int32} {mi : MachineInstruction}
    (hx : image.code[x]? = some mi) (hop : mi.op ∉ [Opcode.hlt, .j, .jr]) :
    x + 4 ∈ image.code := by
  obtain ⟨hline, honly⟩ := carries_of_assemble hc hs h
  obtain ⟨before, l, after, i, he, hl, hmi, rfl⟩ := honly x mi hx
  rw [(Instruction.encode?_eq_some hmi).1] at hop
  obtain ⟨gap, l', i', rest, rfl, hgap, hl'⟩ := ((he ▸ hf).starts hl hop).exists_instruction
  have hnext := (hline (before ++ l :: gap) l' rest i' (by rw [he]; simp) hl').2
  rw [size_append, size_cons, size_of_instruction hl, hgap, Int32.ofNat_add] at hnext
  exact hnext

theorem address?_of_label (hd : (labelNames c).Nodup) {before after : Code} {l : Line} {s : String}
    (hc : c = before ++ l :: after) (hl : l.label? = some s) :
    (c.names symbols).address? s = some (Int32.ofNat (size before)) := by
  have hmem : ∀ (d : Code) (a : Nat), (s, Int32.ofNat (a + size d)) ∈ labelsFrom a (d ++ l :: after) := by
    intro d
    induction d with
    | nil => simp [labelsFrom, hl]
    | cons m d ih =>
      intro a
      have := ih (a + m.size)
      rw [Nat.add_assoc] at this
      exact List.mem_append_right _ (by simpa using this)
  have hmem := hmem before 0
  rw [← hc, Nat.zero_add] at hmem
  have hnodup : ((labelsFrom 0 c).reverse.map Prod.fst).Nodup := by
    rw [List.map_reverse, map_fst_labelsFrom]
    exact List.pairwise_reverse.2 (hd.imp Ne.symm)
  simp [names, Names.address?, lookup_of_mem hnodup (List.mem_reverse.2 hmem)]

end Code

end MoonBackend
