import MoonBackend.Proofs.Compiled
import MoonBackend.Proofs.Emit.Regular
import MoonBackend.Proofs.Emit.Shaped
import MoonBackend.Proofs.Emit.Tags

/-!
# The code of a program, function by function

The code of a compiled program is that of its entry functions, a halt and the code of the other
functions, with the buffer at the end. Every function has code of its shape, and what its lines name
stands in the program.
-/

namespace MoonBackend.Emit

open Text Code

/-- The code of the function at a position: what emission answered for it, and its shape. -/
structure Routine (layout : Layout) (i : ℕ) (f : MoonBackend.Function) (code : Code) : Prop where
  emitted : ∃ k k', (functionAt {} layout (tags layout.table.program) i).run k = (.ok code, k')
  found : layout.table.program.functions[i]? = some f
  shape : ∃ scope exit, layout.table.functions[i]? = some scope
    ∧ Function (contextAt {} layout (tags layout.table.program) i f scope exit)
        ((tags layout.table.program).getD i "") f code

section

variable {layout : Layout} {i : ℕ} {k k' : Counts} {code : Code}

def stock : List Register := (Registers.general {}).map Register.mk

theorem routine_functionAt {scope : Scope} {f : MoonBackend.Function}
    (hs : layout.table.functions[i]? = some scope)
    (hf : layout.table.program.functions[i]? = some f) (hk : Holds stock [] k)
    (h : (functionAt {} layout (tags layout.table.program) i).run k = (.ok code, k')) :
    Routine layout i f code ∧ Holds stock [] k' := by
  have hrun := h
  rw [run_functionAt hs hf] at hrun
  have hemits := emits_function
    (c := contextAt {} layout (tags layout.table.program) i f scope
      (exitLabel (tags layout.table.program) i k))
    ((tags layout.table.program).getD i "") f (afterLabel k) (hk.congr rfl)
  obtain ⟨hshape, hk'⟩ := hemits.answer hrun
  exact ⟨⟨⟨k, k', h⟩, hf, scope, _, hs, hshape⟩, hk'⟩

theorem routines_functionsAt (before : Code) (is : List ℕ)
    (his : ∀ i ∈ is, (∃ scope, layout.table.functions[i]? = some scope)
      ∧ ∃ f, layout.table.program.functions[i]? = some f) (hk : Holds stock [] k)
    (h : (functionsAt {} layout (tags layout.table.program) before is).run k = (.ok code, k')) :
    ∃ parts : List (ℕ × Code), parts.map Prod.fst = is
      ∧ (∀ part ∈ parts, ∃ f, Routine layout part.1 f part.2)
      ∧ code = parts.flatMap (fun part => before ++ part.2) ∧ Holds stock [] k' := by
  induction is generalizing k code with
  | nil =>
    cases h
    exact ⟨[], rfl, fun _ h => (List.not_mem_nil h).elim, rfl, hk⟩
  | cons i is ih =>
    obtain ⟨⟨scope, hs⟩, f, hf⟩ := his i List.mem_cons_self
    rcases h1 : (functionAt {} layout (tags layout.table.program) i).run k with ⟨_ | first, k₁⟩
    · rw [functionsAt, run_bind, h1] at h
      cases h
    · rw [run_functionsAt_cons h1] at h
      obtain ⟨hfirst, hk₁⟩ := routine_functionAt hs hf hk h1
      rcases h2 : (functionsAt {} layout (tags layout.table.program) before is).run k₁ with
        ⟨_ | rest, k₂⟩
      · rw [h2] at h
        cases h
      · rw [h2] at h
        cases h
        obtain ⟨parts, hpos, hparts, rfl, hk₂⟩ :=
          ih (fun j hj => his j (List.mem_cons_of_mem _ hj)) hk₁ h2
        refine ⟨(i, first) :: parts, by rw [List.map_cons, hpos], ?_, rfl, hk₂⟩
        exact List.forall_mem_cons.2 ⟨⟨f, hfirst⟩, hparts⟩

/-- The functions of a program with their codes, the entry functions first. -/
structure Parts (layout : Layout) (entries others : List (ℕ × Code)) : Prop where
  first : entries.map Prod.fst = entryPositions {} layout
  later : others.map Prod.fst = otherPositions {} layout
  routine : ∀ part ∈ entries ++ others, ∃ f, Routine layout part.1 f part.2

def assembled (entries others : List (ℕ × Code)) : Code :=
  wrapped {} (entries.flatMap Prod.snd) (others.flatMap fun part => .blank :: part.2)

end

section

variable {p : Program} {c : Compiled}

theorem functions_length (h : (compile {} p).1 = .ok c) :
    c.layout.table.program.functions.length = c.layout.table.functions.length := by
  obtain ⟨t, log, hb, hr, -⟩ := compile_eq_ok.1 h
  obtain ⟨hcount, hheads⟩ := functions_of_resolve hb hr
  have hlen := congrArg List.length hheads
  rw [List.length_map, List.length_map] at hlen
  rw [hlen, hcount]

theorem exists_function (h : (compile {} p).1 = .ok c) {i : ℕ}
    (hi : i < c.layout.table.functions.length) :
    (∃ scope, c.layout.table.functions[i]? = some scope)
      ∧ ∃ f, c.layout.table.program.functions[i]? = some f :=
  ⟨⟨_, List.getElem?_eq_getElem hi⟩, _, List.getElem?_eq_getElem (functions_length h ▸ hi)⟩

theorem parts_of_compile (h : (compile {} p).1 = .ok c) : ∃ entries others,
    Parts c.layout entries others ∧ c.code = assembled entries others := by
  obtain ⟨t, log, hb, hr, he⟩ := compile_eq_ok.1 h
  obtain ⟨k, hrun⟩ := run_eq_ok.1 (congrArg Prod.fst he)
  have hstart : Holds stock [] (startCounts {}) := @holds_startCounts {} (by decide)
  have hthere : ∀ (q : ℕ → Bool),
      ∀ i ∈ (List.range c.layout.table.functions.length).filter q,
      (∃ scope, c.layout.table.functions[i]? = some scope)
        ∧ ∃ f, c.layout.table.program.functions[i]? = some f := fun q i hi =>
    exists_function h (List.mem_range.1 (List.mem_filter.1 hi).1)
  rw [run_program] at hrun
  rcases h1 : (functionsAt {} c.layout (tags c.layout.table.program) []
      (entryPositions {} c.layout)).run (startCounts {}) with ⟨_ | entryCode, k₁⟩
  · rw [h1] at hrun
    cases hrun
  · rw [h1] at hrun
    simp only at hrun
    rcases h2 : (functionsAt {} c.layout (tags c.layout.table.program) [.blank]
        (otherPositions {} c.layout)).run k₁ with ⟨_ | otherCode, k₂⟩
    · rw [h2] at hrun
      cases hrun
    · rw [h2] at hrun
      obtain ⟨entries, hentries, hfst, rfl, hk₁⟩ := routines_functionsAt [] _ (hthere _)
        hstart h1
      obtain ⟨others, hothers, hsnd, rfl, -⟩ := routines_functionsAt [.blank] _ (hthere _) hk₁ h2
      refine ⟨entries, others, ⟨hentries, hothers, List.forall_mem_append.2 ⟨hfst, hsnd⟩⟩, ?_⟩
      exact (Except.ok.inj (congrArg Prod.fst hrun)).symm

end

/-! ### Lines and functions -/

section

variable {entries others : List (ℕ × Code)}

theorem assembled_eq (entries others : List (ℕ × Code)) : assembled entries others
    = (.comment "generated by moonc" :: plain [.entry, .named .addi ⟨14⟩ ⟨0⟩ "topaddr"])
      ++ (entries.flatMap Prod.snd ++ (plain [.bare .hlt]
        ++ (others.flatMap (fun part => .blank :: part.2)
          ++ [.blank, .comment "data", .labeled "buf" (.reserve 20)]))) := by
  simp [assembled, wrapped]

/-- The code of a program cut into the code of its functions and what stands between. -/
def blocks (entries others : List (ℕ × Code)) : List Code :=
  [.comment "generated by moonc" :: plain [.entry, .named .addi ⟨14⟩ ⟨0⟩ "topaddr"]]
    ++ entries.map Prod.snd ++ [plain [.bare .hlt]]
    ++ others.flatMap (fun part => [[.blank], part.2])
    ++ [[.blank, .comment "data", .labeled "buf" (.reserve 20)]]

theorem flatten_blocks (entries others : List (ℕ × Code)) :
    (blocks entries others).flatten = assembled entries others := by
  have hothers : (others.flatMap fun part => [[Line.blank], part.2]).flatten
      = others.flatMap fun part => .blank :: part.2 := by
    induction others with
    | nil => rfl
    | cons part others ih => simp [ih]
  have hentries : (entries.map Prod.snd).flatten = entries.flatMap Prod.snd := rfl
  rw [assembled_eq, blocks]
  simp only [List.flatten_append, hothers, hentries, List.flatten_singleton, List.append_assoc]

theorem exists_around {B : List Code} {block : Code} (hb : block ∈ B) :
    ∃ start after, B.flatten = start ++ (block ++ after) := by
  obtain ⟨front, back, rfl⟩ := List.append_of_mem hb
  exact ⟨front.flatten, back.flatten, by simp⟩

theorem exists_block {B : List Code} {before after : Code} {l : Line}
    (h : B.flatten = before ++ l :: after) : ∃ block ∈ B, ∃ start upto rest after',
      before = start ++ upto ∧ block = upto ++ l :: rest
        ∧ B.flatten = start ++ (block ++ after') := by
  induction B generalizing before with
  | nil => cases before <;> cases h
  | cons block B ih =>
    rw [List.flatten_cons] at h ⊢
    rcases List.append_eq_append_iff.1 h with ⟨u, rfl, hu⟩ | ⟨u, hblock, hu⟩
    · obtain ⟨block', hb, start, upto, rest, after', rfl, rfl, hB⟩ := ih hu
      exact ⟨_, List.mem_cons_of_mem _ hb, block ++ start, upto, rest, after',
        (List.append_assoc _ _ _).symm, rfl, by rw [hB, List.append_assoc block]⟩
    · cases u with
      | nil =>
        rw [List.append_nil] at hblock
        subst hblock
        obtain ⟨block', hb, start, upto, rest, after', hstart, rfl, hB⟩ := @ih [] hu.symm
        exact ⟨_, List.mem_cons_of_mem _ hb, block ++ start, upto, rest, after',
          by rw [List.append_assoc, ← hstart, List.append_nil], rfl, by rw [hB, List.append_assoc block]⟩
      | cons m u =>
        obtain ⟨rfl, rfl⟩ := List.cons.inj hu
        exact ⟨block, List.mem_cons_self, [], before, u, B.flatten, rfl, hblock, rfl⟩

/-- The lines of a program that stand in no function. -/
def frameLines : Code :=
  [.comment "generated by moonc", .plain .entry, .plain (.named .addi ⟨14⟩ ⟨0⟩ "topaddr"),
    .plain (.bare .hlt), .blank, .comment "data", .labeled "buf" (.reserve 20)]

theorem mem_blocks {block : Code} (hb : block ∈ blocks entries others) :
    (∀ l ∈ block, l ∈ frameLines) ∨ ∃ part ∈ entries ++ others, block = part.2 := by
  simp only [blocks, List.mem_append, List.mem_map, List.mem_flatMap, List.mem_cons,
    List.not_mem_nil, or_false] at hb
  rcases hb with (((rfl | ⟨part, hp, rfl⟩) | rfl) | ⟨part, hp, rfl | rfl⟩) | rfl
  · exact .inl (by decide)
  · exact .inr ⟨part, List.mem_append_left _ hp, rfl⟩
  · exact .inl (by decide)
  · exact .inl (by decide)
  · exact .inr ⟨part, List.mem_append_right _ hp, rfl⟩
  · exact .inl (by decide)

theorem part_mem_blocks {part : ℕ × Code} (hp : part ∈ entries ++ others) :
    part.2 ∈ blocks entries others := by
  simp only [blocks, List.mem_append, List.mem_map, List.mem_flatMap]
  rcases List.mem_append.1 hp with hp | hp
  · exact .inl (.inl (.inl (.inr ⟨part, hp, rfl⟩)))
  · exact .inl (.inr ⟨part, hp, by simp⟩)


/-- A line of a program is one of those around its functions or stands in a function. -/
theorem mem_assembled {l : Line} (hl : l ∈ assembled entries others) :
    l ∈ frameLines ∨ ∃ part ∈ entries ++ others, l ∈ part.2 := by
  rw [← flatten_blocks] at hl
  obtain ⟨block, hb, hl⟩ := List.mem_flatten.1 hl
  rcases mem_blocks hb with hframe | ⟨part, hp, rfl⟩
  · exact .inl (hframe l hl)
  · exact .inr ⟨part, hp, hl⟩

end

end MoonBackend.Emit
