import MoonBackend.Proofs.Emit.Closed
import MoonBackend.Proofs.Emit.Declared
import MoonBackend.Proofs.Emit.Fitting
import MoonBackend.Proofs.Integer.Assembled

/-!
# Small programs assemble

A program that compiles and whose frames and objects are small is taken by the assembler: its lines
can be read, its operands fit, and every name that it uses stands for an address.
-/

namespace MoonBackend.Emit

open Layout Text Code Assembly

variable {p : Program} {c : Compiled}

/-- No object and no frame is recorded with more than 16384 bytes, and no dimension that the program
declares is more than 32767. -/
structure Compiled.Small (p : Program) (c : Compiled) : Prop where
  classes : ∀ s ∈ c.layout.table.classes, bytesOf s.size ≤ 16384
  frames : ∀ s ∈ c.layout.table.functions, bytesOf s.size ≤ 16384
  dimensions : ∀ t ∈ p.declaredTypes, ∀ d ∈ t.dims, d.toInt ≤ 32767

/-! ### Sizes -/

theorem Compiled.Small.class_le (hsmall : Compiled.Small p c) (name : String) :
    bytesOf (c.layout.table.classSize name) ≤ 16384 := by
  cases hsize : c.layout.table.classSize name with
  | none => exact (by decide : (-1 : Int64).toInt ≤ 16384)
  | some n =>
    obtain ⟨s, hs, hn⟩ := Option.bind_eq_some_iff.1 hsize
    have hle := hsmall.classes s (List.mem_of_find?_eq_some hs)
    rwa [hn] at hle

section

variable (h : (compile {} p).1 = .ok c)

include h

theorem laidOut_of_compile : LaidOut p {} c.layout.table := by
  obtain ⟨t, log, hb, hr, -⟩ := compile_eq_ok.1 h
  exact laidOut_of_resolve hb (Config.proper_of_validate rfl) hr

/-- Sizes that can be computed at some depth and are small are counted. -/
theorem fits_of_depth {n : ℕ}
    (hclasses : ∀ d ∈ p.classes, (p.classBytes {} n d.name).any (· ≤ 16384) = true)
    (hframes : ∀ s ∈ c.layout.table.functions,
      (s.bytes {} (p.classBytes {} n)).any (· ≤ 16384) = true) : Fits p {} c.layout.table := by
  have hclass : ∀ d name n, p.classBytes {} d name = some n → n ≤ 16384 := fun _ _ _ hn =>
    of_decide_eq_true (Program.check_of_classes hclasses hn)
  have hframe : ∀ d, ∀ s ∈ c.layout.table.functions, ∀ n,
      s.bytes {} (p.classBytes {} d) = some n → n ≤ 16384 := fun _ s hs _ hn =>
    of_decide_eq_true (Program.check_of_any (f := fun classes (s : Scope) => s.bytes {} classes)
      (fun _ _ h _ _ hn => total_refines (fun e _ => Entry.bytes_refines h e) hn) (hframes s hs) hn)
  refine ⟨fun d name n hn => ?_, fun d s hs e he n hn => ?_, fun d s hs n hn => ?_⟩
  · have := hclass d name n hn
    omega
  · have := (laidOut_of_compile h).entry_le hclass hframe d s hs e he n hn
    omega
  · have := hframe d s hs n hn
    omega

variable (hsmall : Compiled.Small p c) (hfits : Fits p {} c.layout.table)

include hsmall hfits

theorem roomy_of_compile {i : ℕ} {scope : Scope} {f : MoonBackend.Function}
    (hs : c.layout.table.functions[i]? = some scope)
    (hf : c.layout.table.program.functions[i]? = some f) (exit : String) :
    Roomy p (contextAt {} c.layout (tags c.layout.table.program) i f scope exit) := by
  obtain ⟨t, log, hb, hr, -⟩ := compile_eq_ok.1 h
  obtain ⟨hlater, -⟩ := of_resolve (Table.fresh_of_build hb) hr
  refine ⟨⟨standing_of_resolve hb rfl hr hs hf _ exit, rfl, hfits⟩, hsmall.frames,
    hsmall.class_le, fun s hs e he hk => ?_, fun f hf => ?_⟩
  · refine hsmall.dimensions _ ?_
    rcases List.mem_append.1 hs with hs | hs
    · refine (laidOut_of_compile h).declares.type_mem hs he ?_
      simp only [List.mem_cons, List.not_mem_nil, or_false] at hk
      rcases hk with hk | hk | hk <;> rw [hk] <;> rfl
    · exact type_mem_of_later hb hlater hs he hk
  · obtain ⟨f₀, hf₀, hsig, -⟩ := exists_source h hf
    refine hsmall.dimensions _ (mem_declaredTypes_of_function hf₀ ?_)
    rw [hsig]
    exact List.mem_cons_self

end

/-! ### Names -/

section

variable {entries others : List (ℕ × Code)}

/-- An instruction is encoded if its operands fit and what it names has an address. -/
theorem isSome_encode?_of_encodable {i : Instruction Register Operand}
    (h : (Item.instruction i).Encodable) {names : Names} (hk : ∀ s, i.k = .name s →
      (names.address? s).isSome = true) : (i.encode? names).isSome = true := by
  obtain ⟨hi, hj, hk', hn⟩ := h
  refine Instruction.isSome_encode?_iff.2 ⟨hi, hj, hk', ?_⟩
  cases hop : i.k with
  | number n =>
    obtain ⟨h0, h1⟩ := hn n hop
    exact value?_number h0 h1
  | name s => exact hk s hop

theorem frameLines_encodable : Encodable frameLines := by
  intro l hl item hi
  simp only [frameLines, List.mem_cons, List.not_mem_nil, or_false] at hl
  rcases hl with rfl | rfl | rfl | rfl | rfl | rfl | rfl <;> cases hi
  · trivial
  · exact Item.encodable_named.2 ⟨rfl, rfl⟩
  · exact Item.encodable_bare
  · trivial

theorem frameLines_names : ∀ l ∈ frameLines, ∀ i, l.item? = some (.instruction i) →
    ∀ s, i.k = .name s → s = "topaddr" := by
  simp [frameLines, Line.item?, Item.named, Item.bare]

theorem tag_mem_labelNames (h : (compile {} p).1 = .ok c) (hparts : Parts c.layout entries others)
    {i : ℕ} (hi : i < c.layout.table.program.functions.length)
    (he : isEntryAt {} c.layout i = false) :
    (tags c.layout.table.program).getD i "" ∈ labelNames (assembled entries others) := by
  have hpos : i ∈ others.map Prod.fst := by
    rw [hparts.later]
    refine List.mem_filter.2 ⟨List.mem_range.2 ?_, by simpa using he⟩
    rwa [← functions_length h]
  obtain ⟨part, hp, rfl⟩ := List.mem_map.1 hpos
  obtain ⟨f, r, ins, body, note, -, -, hpart⟩ := hparts.routine_of_mem hp
  refine labelNames_part (List.mem_append_right _ hp) ?_
  rw [hpart]
  simp

theorem named_of_regular (h : (compile {} p).1 = .ok c) (hmain : Compiled.NoEntryCalls c)
    (hparts : Parts c.layout entries others) {part : ℕ × Code} (hp : part ∈ entries ++ others)
    {f : MoonBackend.Function} (hr : Routine c.layout part.1 f part.2) {context : Context}
    (hconfig : context.config = {}) (htags : context.tags = tags c.layout.table.program)
    (hlayout : context.layout = c.layout)
    (hreg : Regular context (labelNames part.2) (Stmt.calleesOf f.body) part.2) {l : Line}
    (hl : l ∈ part.2) {i : Instruction Register Operand} (hi : l.item? = some (.instruction i))
    {s : String} (hs : i.k = .name s) :
    s ∈ labelNames (assembled entries others) ∨ s ∈ (Runtime.symbols {}).map Prod.fst := by
  rcases hreg.item hl hi with hst | ⟨r, tag, hjl⟩
  · left
    generalize hitem : Item.instruction i = item at hst
    cases hst with
    | straight hst =>
      subst hitem
      obtain ⟨-, -, -, hbuffer⟩ := hst
      obtain ⟨-, rfl⟩ := hbuffer s hs
      rw [hconfig, ← flatten_blocks]
      refine List.mem_filterMap.2 ⟨.labeled "buf" (.reserve 20), ?_, rfl⟩
      refine List.mem_flatten_of_mem (l := [.blank, .comment "data", .labeled "buf" (.reserve 20)]) ?_ (by simp)
      simp [blocks]
    | bz hlabel | bnz hlabel | j hlabel =>
      cases hitem
      cases hs
      exact labelNames_part hp hlabel
  · cases hjl
    obtain rfl : tag = s := Operand.name.inj hs
    have hlink : tag ∈ Code.links part.2 := List.mem_filterMap.2 ⟨l, hl, by rw [hi]; rfl⟩
    rcases hreg.link_cases hlink with hentry | ⟨k, hk, rfl⟩
    · right
      rw [hconfig] at hentry
      exact (by decide : ∀ s ∈ Runtime.entries {}, s ∈ (Runtime.symbols {}).map Prod.fst) _ hentry
    · left
      have hlt := hreg.known k hk
      rw [hlayout] at hlt
      rw [htags]
      exact tag_mem_labelNames h hparts hlt (hmain f (List.mem_of_getElem? hr.found) k hk)

end

theorem known_of_compile (h : (compile {} p).1 = .ok c) (hbare : p.isBare = true)
    (hn : OneLiners p.names) (hmain : Compiled.NoEntryCalls c) (hsmall : Compiled.Small p c)
    (hfits : Fits p {} c.layout.table) : ∀ l ∈ c.code, l.Known (c.code.names (Runtime.symbols {})) := by
  obtain ⟨t, log, hb, hr, -⟩ := compile_eq_ok.1 h
  obtain ⟨entries, others, hparts, hcode⟩ := parts_of_compile h
  intro l hl i hi
  rw [hcode] at hl
  rcases mem_assembled hl with hl | ⟨part, hp, hl⟩
  · refine isSome_encode?_of_encodable (frameLines_encodable l hl _ hi) fun s hs => address?_isSome ?_
    obtain rfl : s = "topaddr" := frameLines_names l hl i hi s hs
    exact .inr (by decide)
  · obtain ⟨f, hroutine⟩ := hparts.routine part hp
    obtain ⟨scope, exit, hscope, hshape⟩ := hroutine.shape
    have hroomy := roomy_of_compile h hsmall hfits hscope hroutine.found exit
    have hready := ready_of_resolve hb hbare rfl hr hscope hroutine.found
      (tags c.layout.table.program) exit
    have hreg := hshape.regular (ownTags _ _ _ _ _)
      (oneLiners_of_compile h hn f (List.mem_of_getElem? hroutine.found)) (List.Subset.refl _)
    refine isSome_encode?_of_encodable (hshape.encodable hroomy hready l hl _ hi) fun s hs =>
      address?_isSome ?_
    rw [hcode]
    exact named_of_regular h hmain hparts hp hroutine rfl rfl rfl hreg hl hi hs

theorem size_of_compile (h : (compile {} p).1 = .ok c) (hn : OneLiners p.names) :
    ∀ l ∈ c.code, l.size % 4 = 0 := by
  obtain ⟨entries, others, hparts, hcode⟩ := parts_of_compile h
  intro l hl
  rw [hcode] at hl
  rcases mem_assembled hl with hl | ⟨part, hp, hl⟩
  · exact (by decide : ∀ l ∈ frameLines, l.size % 4 = 0) l hl
  · obtain ⟨f, hr⟩ := hparts.routine part hp
    obtain ⟨scope, exit, hreg⟩ := hr.regular h hn
    cases l with
    | blank | comment => rfl
    | plain item | labeled _ item =>
      obtain ⟨i, rfl⟩ := hreg.instructions _ hl item rfl
      exact (by decide : 4 % 4 = 0)

theorem entries_of_compile (h : (compile {} p).1 = .ok c) (hn : OneLiners p.names) :
    c.code.countP (fun l => l.item? == some .entry) ≤ 1 := by
  obtain ⟨entries, others, hparts, hcode⟩ := parts_of_compile h
  obtain ⟨rest, hrest, hone⟩ := hparts.exists_rest h hn
  have hnone : rest.countP (fun l => l.item? == some .entry) = 0 :=
    List.countP_eq_zero.2 fun l hl he => hone l hl (eq_of_beq he)
  rw [hcode, hrest]
  simp only [List.countP_append, List.countP_cons, hnone]
  decide

/-- A program with different labels whose calls mean no entry function assembles, if its frames,
objects and dimensions are small and its sizes are counted. -/
theorem assembles_of_compile (h : (compile {} p).1 = .ok c) (hbare : p.isBare = true)
    (hw : ∀ f ∈ p.functions, IsWord f.name ∧ IsWord f.className) (hn : OneLiners p.names)
    (hlabels : (labelNames c.code).Nodup) (hmain : Compiled.NoEntryCalls c)
    (hsmall : Compiled.Small p c) (hfits : Fits p {} c.layout.table) :
    ∃ image, assembleFor {} c.assembly = .ok image := by
  have hread := readable_of_compile h hw hn
  have hnodup : ((labelsFrom 0 c.code).map Prod.fst).Nodup := by
    rw [map_fst_labelsFrom]
    exact hlabels
  obtain ⟨image, himage⟩ := exists_assemble hread isIdentifier_symbols hnodup
    (known_of_compile h hbare hn hmain hsmall hfits) (size_of_compile h hn)
    (entries_of_compile h hn)
  refine ⟨image, ?_⟩
  rw [assembleFor, Compiled.assembly, show (Config.runtime {}).symbols = Runtime.symbols {} from rfl,
    himage]
  rfl

/-! ### Checks of a compiled program -/

/-- What can be checked of a layout and its code: the calls, the recorded sizes, the labels and the
size of the code. -/
def smallChecks (layout : Layout) (code : Code) : Bool :=
  (layout.table.program.functions.all fun f =>
      (Stmt.calleesOf f.body).all fun k => !isEntryAt {} layout k)
    && (layout.table.classes.all fun s => bytesOf s.size ≤ 16384)
    && (layout.table.functions.all fun s => bytesOf s.size ≤ 16384)
    && decide (labelNames code).Nodup && decide (Code.size code ≤ 65536)

theorem of_smallChecks (hcheck : smallChecks c.layout c.code = true)
    (hdims : p.declaredTypes.all (fun t => t.dims.all (·.toInt ≤ 32767)) = true) :
    Compiled.NoEntryCalls c ∧ Compiled.Small p c ∧ (labelNames c.code).Nodup
      ∧ Code.size c.code ≤ 65536 := by
  simp only [smallChecks, Bool.and_eq_true, List.all_eq_true, decide_eq_true_eq,
    Bool.not_eq_true'] at hcheck
  obtain ⟨⟨⟨⟨hcalls, hclasses⟩, hframes⟩, hlabels⟩, hsize⟩ := hcheck
  refine ⟨hcalls, ⟨hclasses, hframes, fun t ht d hd => ?_⟩, hlabels, hsize⟩
  exact of_decide_eq_true (List.all_eq_true.1 (List.all_eq_true.1 hdims t ht) d hd)

def frameChecks (p : Program) (depth : ℕ) (layout : Layout) : Bool :=
  layout.table.functions.all fun s => (s.bytes {} (p.classBytes {} depth)).any (· ≤ 16384)

/-- A method that takes a cell from the array of its receiver, which is constructed before. -/
def ledger : Program :=
  ⟨[⟨"Row", [], [⟨"cells", ⟨.integer, [4]⟩⟩]⟩],
    [{ name := "cell", className := "Row", isConstructor := false, params := [⟨"i", .integer⟩],
       returns := .integer, body := [.ret (.index (.var "cells" .void) [.var "i" .void] .void)] },
     { name := "Row", className := "Row", isConstructor := true, params := [⟨"n", .integer⟩],
       returns := .void,
       body := [.assign (.index (.var "cells" .void) [.int 0] .void) (.var "n" .void)] },
     { name := "main", className := "", isConstructor := false, params := [], returns := .void,
       body := [.declare ⟨"r", .object "Row"⟩
           (.call .missing "Row" [.int 3] true (.object "Row") none),
         .assign (.index (.dot (.var "r" .void) "cells" .void) [.int 1] .void) (.int 7),
         .write (.call (.var "r" .void) "cell" [.int 1] false .void none)] }]⟩

set_option maxRecDepth 2000 in
theorem assembles_ledger : ∃ c, (compile {} ledger).1 = .ok c
    ∧ ∃ image, assembleFor {} c.assembly = .ok image := by
  obtain ⟨c, hc, hcheck⟩ := compile_of_layout? {} ledger
    (fun layout code => smallChecks layout code && frameChecks ledger 1 layout) (by cbv)
  obtain ⟨hsmall, hframes⟩ := Bool.and_eq_true_iff.1 hcheck
  obtain ⟨hmain, hsmall, hlabels, -⟩ := of_smallChecks (p := ledger) hsmall (by decide)
  exact ⟨c, hc, assembles_of_compile hc (by decide) (by decide) (by decide) hlabels hmain hsmall
    (fits_of_depth hc (by decide) (List.all_eq_true.1 hframes))⟩

/-- The arrays of the second function have 2^64 bytes together, so that its frame is recorded as empty,
while an array lies 2^62 bytes below its start. -/
def boundless : Program :=
  let vast : Ty := ⟨.integer, [16384, 16384, 16384, 16384, 16]⟩
  ⟨[], [{ name := "main", className := "", isConstructor := false, params := [], returns := .void,
          body := [.write (.int 7)] },
        { name := "f", className := "", isConstructor := false, params := [], returns := .void,
          body := [.declare ⟨"a", vast⟩ .missing, .declare ⟨"b", vast⟩ .missing,
            .declare ⟨"c", vast⟩ .missing, .declare ⟨"d", vast⟩ .missing,
            .assign (.index (.var "b" .void) [.int 0, .int 0, .int 0, .int 0, .int 0] .void)
              (.int 1)] }]⟩

theorem boundless_not_assembled : ∃ c, (compile {} boundless).1 = .ok c ∧ boundless.isBare = true
    ∧ (∀ f ∈ boundless.functions, IsWord f.name ∧ IsWord f.className) ∧ OneLiners boundless.names
    ∧ (labelNames c.code).Nodup ∧ Compiled.NoEntryCalls c ∧ Compiled.Small boundless c
    ∧ ∀ image, assembleFor {} c.assembly ≠ .ok image := by
  obtain ⟨c, hc, hcheck⟩ := compile_of_layout? {} boundless (fun layout code =>
    smallChecks layout code
      && code.contains (.plain (.sw (-4611686018427387904) ⟨1⟩ ⟨2⟩))) (by cbv)
  rw [Bool.and_eq_true, List.contains_iff_mem] at hcheck
  obtain ⟨hsmall, hstore⟩ := hcheck
  obtain ⟨hmain, hsmall, hlabels, hsize⟩ := of_smallChecks (p := boundless) hsmall (by decide)
  have hw : ∀ f ∈ boundless.functions, IsWord f.name ∧ IsWord f.className := by decide
  refine ⟨c, hc, rfl, hw, by decide, hlabels, hmain, hsmall, fun image himage => ?_⟩
  have hholds := holds_of_assemble (readable_of_compile hc hw (by decide)) isIdentifier_symbols
    (assemble_of_assembleFor himage) (by omega) fun x hx => Integer.routine?_eq_none (by omega)
  obtain ⟨a, hline⟩ := hholds.exists_line hstore
  exact absurd (Machine.operand_fits hline rfl).1 (by decide)

end MoonBackend.Emit
