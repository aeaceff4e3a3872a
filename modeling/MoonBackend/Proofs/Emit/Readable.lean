import MoonBackend.Proofs.Emit.Routines

/-!
# Emitted text is read back

When the names of functions and classes are words and no name has a line feed, every line of a
compiled program is read back as it was written, and its labels are identifiers that no entry of the
library shares.
-/

namespace MoonBackend.Emit

open Text Code Assembly

/-- Letters, digits and underscores. -/
def IsWord (s : String) : Prop := ∀ c ∈ s.toList, isNameChar c = true

instance (s : String) : Decidable (IsWord s) :=
  List.decidableBAll (fun c => isNameChar c = true) s.toList

/-! ### Labels -/

theorem isIdentifier_cons {c : Char} {cs : List Char} (hc : isLetter c = true)
    (hcs : ∀ x ∈ cs, isNameChar x = true) : isIdentifier (c :: cs) = true := by
  simp only [isIdentifier, hc, Bool.true_or, Bool.true_and, List.all_eq_true]
  exact hcs

theorem isNameChar_tagNames {f : Signature} (hn : IsWord f.name) (hc : IsWord f.className) :
    IsWord (tagNames f) := by
  unfold tagNames
  split
  · intro x hx
    simp only [String.toList_append, List.mem_append] at hx
    rcases hx with (hx | hx) | hx
    · exact hc x hx
    · have : x = '_' := by simpa using hx
      rw [this]
      decide
    · exact hn x hx
  · exact hn

theorem isNameChar_toDigits {n : ℕ} : ∀ c ∈ Nat.toDigits 10 n, isNameChar c = true := fun c hc =>
  isNameChar_of_isDigit (isDigit_of_mem_toDigits c hc)

theorem isNameChar_ordinal {n : ℕ} : ∀ c ∈ ordinal n, isNameChar c = true := by
  unfold ordinal
  split
  · simp
  · exact List.forall_mem_cons.2 ⟨by decide, isNameChar_toDigits⟩

theorem isIdentifier_tagOf {f : Signature} (hn : IsWord f.name) (hc : IsWord f.className) (n : ℕ) :
    isIdentifier (tagOf f n).toList = true := by
  rw [toList_tagOf]
  refine isIdentifier_cons (by decide) fun x hx => ?_
  rcases List.mem_append.1 hx with hx | hx
  · have hall : "n_".toList.all isNameChar = true := by decide
    exact List.all_eq_true.1 hall x hx
  · rcases List.mem_append.1 hx with hx | hx
    · exact isNameChar_tagNames hn hc x hx
    · exact isNameChar_ordinal x hx

theorem isIdentifier_numbered : ∀ stem ∈ bodyStems, ∀ n,
    isIdentifier (numbered stem n).toList = true := by
  have hstems : ∀ stem ∈ bodyStems, isIdentifier stem.toList = true := by decide
  intro stem hs n
  have h := hstems stem hs
  rw [toList_numbered]
  cases hl : stem.toList with
  | nil =>
    rw [hl] at h
    cases h
  | cons c cs =>
    rw [hl] at h
    simp only [isIdentifier, Bool.and_eq_true, List.all_eq_true, List.cons_append] at h ⊢
    refine ⟨h.1, fun x hx => ?_⟩
    rcases List.mem_append.1 hx with hx | hx
    · exact h.2 x hx
    · exact isNameChar_toDigits x hx

section

variable {layout : Layout} {i : ℕ} {f : MoonBackend.Function}

theorem tag_eq (hf : layout.table.program.functions[i]? = some f) :
    ∃ n, (tags layout.table.program).getD i "" = tagOf f.toSignature n := by
  rw [List.getD_eq_getElem?_getD, tags_getElem?, hf]
  exact ⟨_, rfl⟩

inductive IsLabel (layout : Layout) : String → Prop
  | tag {i : ℕ} {f : MoonBackend.Function} : layout.table.program.functions[i]? = some f →
    IsLabel layout ((tags layout.table.program).getD i "")
  | exit {i : ℕ} {f : MoonBackend.Function} (n : ℕ) :
    layout.table.program.functions[i]? = some f →
    IsLabel layout (exitAt (tags layout.table.program) i n)
  | body {stem : String} (n : ℕ) : stem ∈ bodyStems → IsLabel layout (numbered stem n)
  | buffer : IsLabel layout "buf"

theorem IsLabel.isIdentifier {s : String} (h : IsLabel layout s)
    (hw : ∀ f ∈ layout.table.program.functions, IsWord f.name ∧ IsWord f.className) :
    isIdentifier s.toList = true := by
  cases h with
  | tag hf =>
    obtain ⟨n, hn⟩ := tag_eq hf
    obtain ⟨hname, hclass⟩ := hw _ (List.mem_of_getElem? hf)
    rw [hn]
    exact isIdentifier_tagOf hname hclass n
  | exit n hf =>
    obtain ⟨hname, hclass⟩ := hw _ (List.mem_of_getElem? hf)
    rw [toList_exitAt hf]
    refine isIdentifier_cons (by decide) fun x hx => ?_
    rcases List.mem_append.1 hx with hx | hx
    · have hall : "nd_".toList.all isNameChar = true := by decide
      exact List.all_eq_true.1 hall x hx
    · rcases List.mem_append.1 hx with hx | hx
      · rcases List.mem_append.1 hx with hx | hx
        · exact isNameChar_tagNames hname hclass x hx
        · exact isNameChar_ordinal x hx
      · exact isNameChar_toDigits x hx
  | body n hs => exact isIdentifier_numbered _ hs n
  | buffer => decide

theorem IsLabel.not_mem_entries {s : String} (h : IsLabel layout s) :
    s ∉ Runtime.entries {} := by
  have hstart : ∀ s ∈ Runtime.entries {}, s.toList.head? ≠ some 'f' ∧ s.toList.head? ≠ some 'e' := by
    decide
  have hdigits : ∀ s ∈ Runtime.entries {}, s.toList.any Char.isDigit = false := by decide
  intro hs
  cases h with
  | tag hf =>
    obtain ⟨rest, hrest⟩ := mem_tags hf
    exact (hstart _ hs).1 (by rw [hrest]; rfl)
  | exit n hf => exact (hstart _ hs).2 (by rw [toList_exitAt hf]; rfl)
  | @body stem n hstem =>
    obtain ⟨c, cs, hc, hd⟩ := toDigits_head_isDigit n
    have hmem : c ∈ (numbered stem n).toList := by
      rw [toList_numbered, hc]
      simp
    exact List.any_eq_false.1 (hdigits _ hs) c hmem hd
  | buffer => exact absurd hs (by decide)

end

section

variable {p : Program} {c : Compiled}

theorem isLabel_of_mem (h : (compile {} p).1 = .ok c) {s : String} (hs : s ∈ labelNames c.code) :
    IsLabel c.layout s := by
  obtain ⟨t, log, hb, hr, he⟩ := compile_eq_ok.1 h
  obtain ⟨k, hrun⟩ := run_eq_ok.1 (congrArg Prod.fst he)
  obtain ⟨labels, hlabels, hcode⟩ :=
    labeled_program (fun i hi => (exists_function h hi).2) hrun
  rw [hcode, List.mem_append, List.mem_singleton] at hs
  rcases hs with hs | rfl
  · obtain ⟨numbers, body, -, -, -, hbody, hc⟩ := hlabels.parts
    have hthere : ∀ i ∈ entryPositions {} c.layout ++ otherPositions {} c.layout,
        ∃ f, c.layout.table.program.functions[i]? = some f := by
      intro i hi
      refine (exists_function h ?_).2
      rcases List.mem_append.1 hi with hi | hi
      · exact List.mem_range.1 (List.mem_filter.1 hi).1
      · exact List.mem_range.1 (List.mem_filter.1 hi).1
    have hmem := List.count_pos_iff.2 hs
    rw [hc, ← List.count_append, ← List.count_append, List.count_pos_iff] at hmem
    rcases List.mem_append.1 hmem with hmem | hexit
    · rcases List.mem_append.1 hmem with htag | hbod
      · obtain ⟨i, hi, hs⟩ := List.mem_flatMap.1 htag
        obtain ⟨f, hf⟩ := hthere i hi
        unfold tagged at hs
        split at hs
        · cases hs
        · rw [List.mem_singleton.1 hs]
          exact .tag hf
      · obtain ⟨stem, hstem, n, rfl, -⟩ := hbody.label s hbod
        exact .body n hstem
    · obtain ⟨a, ha, rfl⟩ := List.mem_iff_getElem.1 hexit
      rw [List.length_zipWith] at ha
      rw [List.getElem_zipWith]
      obtain ⟨f, hf⟩ := hthere _ (List.getElem_mem (Nat.lt_of_lt_of_le ha (Nat.min_le_left _ _)))
      exact .exit _ hf
  · exact .buffer

theorem exists_source (h : (compile {} p).1 = .ok c) {f : MoonBackend.Function}
    (hf : f ∈ c.layout.table.program.functions) : ∃ f₀ ∈ p.functions,
      f.toSignature = f₀.toSignature ∧ Stmt.namesOf f.body = Stmt.namesOf f₀.body := by
  obtain ⟨t, log, hb, hr, he⟩ := compile_eq_ok.1 h
  obtain ⟨hlater, -⟩ := Layout.of_resolve (Table.fresh_of_build hb) hr
  rw [hlater.program] at hf
  exact Table.names_of_build hb hf

theorem words_of_compile (h : (compile {} p).1 = .ok c)
    (hw : ∀ f ∈ p.functions, IsWord f.name ∧ IsWord f.className) :
    ∀ f ∈ c.layout.table.program.functions, IsWord f.name ∧ IsWord f.className := by
  intro f hf
  obtain ⟨f₀, hf₀, hsig, -⟩ := exists_source h hf
  rw [hsig]
  exact hw f₀ hf₀

theorem oneLiners_of_compile (h : (compile {} p).1 = .ok c) (hn : OneLiners p.names) :
    ∀ f ∈ c.layout.table.program.functions,
      OneLiners (f.toSignature.names ++ Stmt.namesOf f.body) := by
  intro f hf
  obtain ⟨f₀, hf₀, hsig, hbody⟩ := exists_source h hf
  rw [hsig, hbody]
  rw [Program.names, oneLiners_append] at hn
  exact fun s hs => hn.2 s (List.mem_flatMap.2 ⟨f₀, hf₀, hs⟩)

/-! ### Lines -/

theorem ownTags (layout : Layout) (i : ℕ) (f : MoonBackend.Function) (scope : Scope)
    (exit : String) : OwnTags (contextAt {} layout (tags layout.table.program) i f scope exit) :=
  fun _ hk => (IsLabel.tag (List.getElem?_eq_getElem hk)).not_mem_entries

theorem Routine.regular {i : ℕ} {f : MoonBackend.Function} {code : Code}
    (hr : Routine c.layout i f code) (h : (compile {} p).1 = .ok c) (hn : OneLiners p.names) :
    ∃ scope exit, Regular (contextAt {} c.layout (tags c.layout.table.program) i f scope exit)
      (labelNames code) (Stmt.calleesOf f.body) code := by
  obtain ⟨scope, exit, -, hshape⟩ := hr.shape
  refine ⟨scope, exit, hshape.regular (ownTags _ _ _ _ _) ?_ (List.Subset.refl _)⟩
  exact oneLiners_of_compile h hn f (List.mem_of_getElem? hr.found)

theorem readable_of_steady {labels : List String} {item : Item} (h : item.Steady "buf" labels)
    (hl : ∀ s ∈ labels, isIdentifier s.toList = true) : item.Readable := by
  cases h with
  | straight h =>
    cases item with
    | instruction i =>
      obtain ⟨hop, hcan, -, hk⟩ := h
      exact ⟨hop, hcan, fun s hs => (hk s hs).2 ▸ (by decide)⟩
    | _ => exact h.elim
  | bz hs =>
    exact ⟨(by decide : Opcode.bz ∈ Opcode.all), ⟨rfl, rfl⟩, fun s he => Operand.name.inj he ▸ hl _ hs⟩
  | bnz hs =>
    exact ⟨(by decide : Opcode.bnz ∈ Opcode.all), ⟨rfl, rfl⟩,
      fun s he => Operand.name.inj he ▸ hl _ hs⟩
  | j hs =>
    exact ⟨(by decide : Opcode.j ∈ Opcode.all), ⟨rfl, rfl, rfl⟩,
      fun s he => Operand.name.inj he ▸ hl _ hs⟩

theorem readable_jl {r : Register} {s : String} (hs : isIdentifier s.toList = true) :
    (Item.jl r s).Readable :=
  ⟨(by decide : Opcode.jl ∈ Opcode.all), ⟨rfl, rfl⟩, fun _ he => Operand.name.inj he ▸ hs⟩

theorem Regular.readable {i : ℕ} {f : MoonBackend.Function} {scope : Scope} {exit : String}
    {layout : Layout} {targets : List ℕ} {code : Code}
    (h : Regular (contextAt {} layout (tags layout.table.program) i f scope exit) (labelNames code)
      targets code)
    (hw : ∀ f ∈ layout.table.program.functions, IsWord f.name ∧ IsWord f.className)
    (hl : ∀ s ∈ labelNames code, isIdentifier s.toList = true) : ∀ l ∈ code, l.Readable := by
  intro l hmem
  have hitem : ∀ item, l.item? = some item →
      item.Steady "buf" (labelNames code) ∨ (∃ r tag, item = .jl r tag) → item.Readable := by
    rintro item hl' (hst | ⟨r, tag, rfl⟩)
    · exact readable_of_steady hst hl
    · refine readable_jl ?_
      have hlink : tag ∈ Code.links code := List.mem_filterMap.2 ⟨l, hmem, by rw [hl']; rfl⟩
      rcases h.link_cases hlink with hentry | ⟨k, hk, rfl⟩
      · exact (by decide : ∀ s ∈ Runtime.entries {}, isIdentifier s.toList = true) _ hentry
      · exact (IsLabel.tag (List.getElem?_eq_getElem (h.known k hk))).isIdentifier hw
  have hline := h.lines l hmem
  cases l with
  | blank => trivial
  | comment s => exact hline
  | plain item => exact hitem item rfl hline
  | labeled label item =>
    exact ⟨hl _ (List.mem_filterMap.2 ⟨_, hmem, rfl⟩), hitem item rfl hline⟩


theorem labelNames_part {entries others : List (ℕ × Code)} {part : ℕ × Code}
    (hp : part ∈ entries ++ others) : labelNames part.2 ⊆ labelNames (assembled entries others) := by
  intro s hs
  obtain ⟨l, hl, hls⟩ := List.mem_filterMap.1 hs
  refine List.mem_filterMap.2 ⟨l, ?_, hls⟩
  rw [← flatten_blocks]
  exact List.mem_flatten_of_mem (part_mem_blocks hp) hl

/-- Every line is read back as it was written. -/
theorem readable_of_compile (h : (compile {} p).1 = .ok c)
    (hw : ∀ f ∈ p.functions, IsWord f.name ∧ IsWord f.className) (hn : OneLiners p.names) :
    ∀ l ∈ c.code, l.Readable := by
  obtain ⟨entries, others, hparts, hcode⟩ := parts_of_compile h
  have hw' := words_of_compile h hw
  have hlabels : ∀ s ∈ labelNames c.code, isIdentifier s.toList = true := fun s hs =>
    (isLabel_of_mem h hs).isIdentifier hw'
  rw [hcode] at hlabels ⊢
  intro l hl
  rcases mem_assembled hl with hl | ⟨part, hp, hl⟩
  · exact (by decide : ∀ l ∈ frameLines, l.Readable) l hl
  · obtain ⟨f, hf⟩ := hparts.routine part hp
    obtain ⟨scope, exit, hreg⟩ := hf.regular h hn
    exact hreg.readable hw' (fun s hs => hlabels s (labelNames_part hp hs)) l hl

end

end MoonBackend.Emit
