import MoonBackend.Proofs.Assembly.Flow
import MoonBackend.Proofs.Emit.Readable

/-!
# The control flow of an assembled program

Every instruction of an assembled program goes on to an instruction: the next one, the target of a
branch or jump, the first one of a called function or an entry of the library. Calls of entry
functions are left out: these have no tag, and the tag that they would have may be that of another
function.
-/

namespace MoonBackend.Emit

open Text Code Assembly

/-- The code that emission answered for the function at a position stands behind the lines
`before`. -/
def Placed (c : Compiled) (i : ℕ) (before code : Code) : Prop :=
  (∃ k k', (functionAt {} c.layout (tags c.layout.table.program) i).run k = (.ok code, k'))
    ∧ ∃ after, c.code = before ++ (code ++ after)

def ownLinks (code : Code) : List String := (Code.links code).filter (· ∉ Runtime.entries {})

/-- The line behind `before` is for a call of the function at position `k`: as many calls come before
it in the code of its function as come before the call in the body. -/
def CallOf (c : Compiled) (before : Code) (k : ℕ) : Prop :=
  ∃ i f start upto rest, Placed c i start (upto ++ rest) ∧ before = start ++ upto
    ∧ c.layout.table.program.functions[i]? = some f
    ∧ (Stmt.calleesOf f.body)[(ownLinks upto).length]? = some k

/-- Every instruction of the image goes on to an instruction or to the library. -/
structure Closed (c : Compiled) (image : Image) : Prop where
  entry : image.entry ∈ image.code
  next : ∀ (x : Int32) (i : MachineInstruction), image.code[x]? = some i →
    i.op ∉ [Opcode.hlt, .j, .jr] → x + 4 ∈ image.code
  jump : ∀ (x : Int32) (i : MachineInstruction), image.code[x]? = some i →
    i.op ∈ [Opcode.bz, .bnz, .j] → i.k ∈ image.code
  call : ∀ (x : Int32) (i : MachineInstruction), image.code[x]? = some i → i.op = .jl →
    (∃ s ∈ Runtime.entries {}, (Runtime.symbols {}).lookup s = some i.k)
      ∨ ∃ before k start code, x = Int32.ofNat (size before) ∧ CallOf c before k
        ∧ Placed c k start code ∧ i.k = Int32.ofNat (size start) ∧ i.k ∈ image.code

/-! ### Lines of functions -/

theorem Item.Steady.exists_instruction {buffer : String} {labels : List String} {item : Item}
    (h : item.Steady buffer labels) : ∃ i, item = .instruction i := by
  cases h with
  | straight h =>
    cases item with
    | instruction i => exact ⟨i, rfl⟩
    | _ => exact h.elim
  | bz | bnz | j => exact ⟨_, rfl⟩

section

variable {c : Context} {labels : List String} {targets : List ℕ} {code : Code} {l : Line}

theorem Regular.item (h : Regular c labels targets code) (hl : l ∈ code) {item : Item}
    (hi : l.item? = some item) :
    item.Steady c.config.runtime.bufferLabel labels ∨ ∃ r tag, item = .jl r tag := by
  have hline := h.lines l hl
  cases l with
  | blank | comment => cases hi
  | plain | labeled => exact Option.some.inj hi ▸ hline

theorem Regular.instructions (h : Regular c labels targets code) : Instructions code := by
  intro l hl item hi
  rcases h.item hl hi with hst | ⟨r, tag, rfl⟩
  · exact Item.Steady.exists_instruction hst
  · exact ⟨_, rfl⟩

theorem Item.Steady.ne_jl {buffer : String} {i : Instruction Register Operand}
    (h : (Item.instruction i).Steady buffer labels) : i.op ≠ .jl := by
  intro hop
  generalize hitem : Item.instruction i = item at h
  cases h with
  | straight h =>
    subst hitem
    obtain ⟨-, -, hjump, -⟩ := h
    rw [hop] at hjump
    cases hjump
  | bz | bnz | j =>
    cases hitem
    cases hop

theorem Item.Steady.target {buffer : String} {i : Instruction Register Operand}
    (h : (Item.instruction i).Steady buffer labels) (hop : i.op ∈ [Opcode.bz, .bnz, .j]) :
    ∃ s ∈ labels, i.k = .name s := by
  generalize hitem : Item.instruction i = item at h
  cases h with
  | straight h =>
    subst hitem
    obtain ⟨-, -, hjump, -⟩ := h
    revert hjump
    simp only [List.mem_cons, List.not_mem_nil, or_false] at hop
    rcases hop with hop | hop | hop <;> rw [hop] <;> intro hjump <;> cases hjump
  | bz hs | bnz hs | j hs =>
    cases hitem
    exact ⟨_, hs, rfl⟩

end

/-! ### The code of a program -/

/-- A routine starts at its tag and ends with the way back to its caller. -/
theorem Function.exists_parts {c : Context} {tag : String} {f : MoonBackend.Function} {code : Code}
    (h : Function c tag f code) (hf : f.isFree c.config.emit.entryFunction = false) :
    ∃ i body, code = c.note f.toSignature.text ++ .labeled tag (.instruction i) :: body
        ++ [.plain (.reg1 .jr c.link)] := by
  cases h with
  | entry he => exact absurd (he.symm.trans hf) (by decide)
  | @routine off body result _ _ _ _ =>
    exact ⟨_, body ++ [mark c.exit] ++ result ++ plain [.lw c.link off c.sp], by simp [plain]; rfl⟩

theorem size_note (c : Context) (text : String) : size (c.note text) = 0 := by
  unfold Context.note
  split <;> rfl

section

variable {p : Program} {c : Compiled} {entries others : List (ℕ × Code)}

theorem Parts.routine_of_mem (hparts : Parts c.layout entries others) {part : ℕ × Code}
    (hp : part ∈ others) : ∃ f r i body note, Routine c.layout part.1 f part.2 ∧ size note = 0
      ∧ part.2 = note ++ .labeled ((tags c.layout.table.program).getD part.1 "") (.instruction i)
          :: body ++ [.plain (.reg1 .jr r)] := by
  obtain ⟨f, hr⟩ := hparts.routine part (List.mem_append_right _ hp)
  have hpos : part.1 ∈ otherPositions {} c.layout := by
    rw [← hparts.later]
    exact List.mem_map_of_mem hp
  have hentry : isEntryAt {} c.layout part.1 = false := by
    simpa using (List.mem_filter.1 hpos).2
  obtain ⟨scope, exit, -, hshape⟩ := hr.shape
  have hfree : f.isFree "main" = false := by simpa [isEntryAt, hr.found] using hentry
  obtain ⟨i, body, hcode⟩ := hshape.exists_parts hfree
  exact ⟨f, _, i, body, _, hr, size_note _ _, hcode⟩

/-- A function that ends with the way back needs nothing behind it. -/
theorem flows_routines {parts : List (ℕ × Code)} {d : Code}
    (hparts : ∀ part ∈ parts, Instructions part.2 ∧ ∃ body r, part.2 = body ++ [.plain (.reg1 .jr r)])
    (hd : Flows d) : Flows (parts.flatMap (fun part => .blank :: part.2) ++ d) := by
  induction parts with
  | nil => exact hd
  | cons part parts ih =>
    obtain ⟨hinstr, body, r, hcode⟩ := hparts part List.mem_cons_self
    have hrest := ih fun q hq => hparts q (List.mem_cons_of_mem _ hq)
    have hbody : Instructions body := fun l hl => hinstr l (by rw [hcode]; exact List.mem_append_left _ hl)
    have hback : Flows (.plain (.reg1 .jr r) :: (parts.flatMap (fun part => .blank :: part.2) ++ d)) := by
      refine ⟨fun i hi hop => ?_, hrest⟩
      cases hi
      exact absurd (by simp) hop
    have hflows := (hbody.flows hback (starts_instruction rfl)).1
    rw [List.flatMap_cons, hcode]
    simpa using (flows_skip (l := .blank) rfl).2 hflows

theorem flows_of_compile (h : (compile {} p).1 = .ok c) (hn : OneLiners p.names)
    (hparts : Parts c.layout entries others) : Flows (assembled entries others) := by
  have hinstr : ∀ part ∈ entries ++ others, Instructions part.2 := by
    intro part hp
    obtain ⟨f, hr⟩ := hparts.routine part hp
    obtain ⟨scope, exit, hreg⟩ := hr.regular h hn
    exact hreg.instructions
  have htail : Flows (others.flatMap (fun part => .blank :: part.2)
      ++ [.blank, .comment "data", .labeled "buf" (.reserve 20)]) := by
    refine flows_routines (fun part hp => ?_) ((flows_skip rfl).2 ((flows_skip rfl).2 ?_))
    · obtain ⟨f, r, i, body, note, -, -, hcode⟩ := hparts.routine_of_mem hp
      exact ⟨hinstr part (List.mem_append_right _ hp), _, r, hcode⟩
    · exact ⟨fun i hi => (by cases hi), trivial⟩
  have hhalt : Flows (plain [.bare .hlt] ++ (others.flatMap (fun part => .blank :: part.2)
      ++ [.blank, .comment "data", .labeled "buf" (.reserve 20)])) := by
    refine ⟨fun i hi hop => ?_, htail⟩
    cases hi
    exact absurd List.mem_cons_self hop
  have hentries : Instructions (entries.flatMap Prod.snd) := by
    intro l hl
    obtain ⟨part, hp, hl⟩ := List.mem_flatMap.1 hl
    exact hinstr part (List.mem_append_left _ hp) l hl
  obtain ⟨hflows, hstarts⟩ := hentries.flows hhalt (starts_instruction rfl)
  rw [assembled_eq]
  refine (flows_skip rfl).2 ⟨fun i hi => ?_, fun _ _ _ => hstarts, hflows⟩
  cases hi

theorem Parts.exists_rest (hparts : Parts c.layout entries others) (h : (compile {} p).1 = .ok c)
    (hn : OneLiners p.names) : ∃ rest, assembled entries others = [.comment "generated by moonc"]
      ++ .plain .entry :: .plain (.named .addi ⟨14⟩ ⟨0⟩ "topaddr") :: rest
      ∧ ∀ l ∈ rest, l.item? ≠ some .entry := by
  have hinstr : ∀ part ∈ entries ++ others, ∀ l ∈ part.2, l.item? ≠ some .entry := by
    intro part hp l hl he
    obtain ⟨f, hr⟩ := hparts.routine part hp
    obtain ⟨scope, exit, hreg⟩ := hr.regular h hn
    obtain ⟨i, hi⟩ := hreg.instructions l hl _ he
    cases hi
  refine ⟨entries.flatMap Prod.snd ++ (plain [.bare .hlt]
    ++ (others.flatMap (fun part => Line.blank :: part.2)
      ++ [Line.blank, .comment "data", .labeled "buf" (.reserve 20)])),
    assembled_eq entries others, fun l hl => ?_⟩
  simp only [List.mem_append, List.mem_flatMap, List.mem_cons, List.not_mem_nil, or_false, plain,
    List.map_cons, List.map_nil] at hl
  rcases hl with ⟨part, hp, hl⟩ | rfl | ⟨part, hp, rfl | hl⟩ | rfl | rfl | rfl
  · exact hinstr part (List.mem_append_left _ hp) l hl
  · simp [Line.item?, Item.bare]
  · simp [Line.item?]
  · exact hinstr part (List.mem_append_right _ hp) l hl
  · simp [Line.item?]
  · simp [Line.item?]
  · simp [Line.item?]

/-! ### Targets -/

/-- No call means an entry function. -/
def Compiled.NoEntryCalls (c : Compiled) : Prop :=
  ∀ f ∈ c.layout.table.program.functions, ∀ k ∈ Stmt.calleesOf f.body,
    isEntryAt {} c.layout k = false

theorem assemble_of_assembleFor {text : String} {image : Image}
    (h : assembleFor {} text = .ok image) : assemble text (Runtime.symbols {}) = .ok image := by
  unfold assembleFor at h
  cases ha : assemble text (Runtime.symbols {}) with
  | error e =>
    rw [ha] at h
    cases h
  | ok image' =>
    rw [ha] at h
    cases h
    rfl

theorem isIdentifier_symbols : ∀ e ∈ Runtime.symbols {}, isIdentifier e.1.toList = true := by
  decide

section

variable {image : Image} (h : (compile {} p).1 = .ok c)
  (hw : ∀ f ∈ p.functions, IsWord f.name ∧ IsWord f.className) (hn : OneLiners p.names)
  (ha : assembleFor {} c.assembly = .ok image)

include h hw hn ha

theorem labelNames_nodup_of_assembled : (labelNames c.code).Nodup := by
  have := ((assemble_text_eq_ok (readable_of_compile h hw hn)).1 (assemble_of_assembleFor ha)).1
  rwa [map_fst_labelsFrom] at this

theorem target_mem_code (hparts : Parts c.layout entries others)
    (hcode : c.code = assembled entries others) {part : ℕ × Code} (hp : part ∈ entries ++ others)
    {s : String} (hs : s ∈ labelNames part.2) {k : Int32}
    (hk : (c.code.names (Runtime.symbols {})).address? s = some k) : k ∈ image.code := by
  obtain ⟨f, hr⟩ := hparts.routine part hp
  obtain ⟨scope, exit, hreg⟩ := hr.regular h hn
  obtain ⟨l, hl, hls⟩ := List.mem_filterMap.1 hs
  obtain ⟨upto, rest, hpart⟩ := List.append_of_mem hl
  obtain ⟨start, after, haround⟩ := exists_around (part_mem_blocks hp)
  have hc : c.code = (start ++ upto) ++ l :: (rest ++ after) := by
    rw [hcode, ← flatten_blocks, haround, hpart]
    simp
  have hitem : ∃ i, l.item? = some (.instruction i) := by
    cases l with
    | labeled label item =>
      obtain ⟨i, rfl⟩ := hreg.instructions _ hl item rfl
      exact ⟨i, rfl⟩
    | _ => cases hls
  obtain ⟨i, hi⟩ := hitem
  rw [address?_of_label (labelNames_nodup_of_assembled h hw hn ha) hc hls] at hk
  rw [← Option.some.inj hk]
  exact ((carries_of_assemble (readable_of_compile h hw hn) isIdentifier_symbols
    (assemble_of_assembleFor ha)).1 _ _ _ _ hc hi).2

theorem placed_of_tag (hparts : Parts c.layout entries others)
    (hcode : c.code = assembled entries others) {i : ℕ}
    (hi : i < c.layout.table.program.functions.length) (he : isEntryAt {} c.layout i = false)
    {k : Int32} (hk : (c.code.names (Runtime.symbols {})).address?
      ((tags c.layout.table.program).getD i "") = some k) :
    ∃ start code, Placed c i start code ∧ k = Int32.ofNat (size start) ∧ k ∈ image.code := by
  have hpos : i ∈ others.map Prod.fst := by
    rw [hparts.later]
    refine List.mem_filter.2 ⟨List.mem_range.2 ?_, by simpa using he⟩
    rwa [← functions_length h]
  obtain ⟨part, hp, rfl⟩ := List.mem_map.1 hpos
  have hmem := List.mem_append_right entries hp
  obtain ⟨f, r, ins, body, note, hr, hnote, hpart⟩ := hparts.routine_of_mem hp
  obtain ⟨start, after, haround⟩ := exists_around (part_mem_blocks hmem)
  rw [flatten_blocks, ← hcode] at haround
  have hlabel : (tags c.layout.table.program).getD part.1 "" ∈ labelNames part.2 := by
    rw [hpart]
    simp
  have hc : c.code = (start ++ note) ++ .labeled ((tags c.layout.table.program).getD part.1 "")
      (.instruction ins) :: (body ++ [.plain (.reg1 .jr r)] ++ after) := by
    rw [haround, hpart]
    simp
  have hk' := hk
  rw [address?_of_label (labelNames_nodup_of_assembled h hw hn ha) hc rfl, size_append, hnote,
    Nat.add_zero] at hk'
  exact ⟨start, part.2, ⟨hr.emitted, after, haround⟩, (Option.some.inj hk').symm,
    target_mem_code h hw hn ha hparts hcode hmem hlabel hk⟩

theorem entry_mem_code (hparts : Parts c.layout entries others)
    (hcode : c.code = assembled entries others) : image.entry ∈ image.code := by
  have hread := readable_of_compile h hw hn
  have hassemble := assemble_of_assembleFor ha
  obtain ⟨rest, hrest, hone⟩ := hparts.exists_rest h hn
  rw [← hcode] at hrest
  have hentry : image.entry = 0 := by
    rw [Compiled.assembly, hrest] at hassemble
    rw [hrest] at hread
    refine (entry_of_assemble hread isIdentifier_symbols hassemble ?_ (by decide)).trans rfl
    exact List.forall_mem_cons.2 ⟨by simp [Line.item?, Item.named], hone⟩
  rw [hentry]
  exact ((carries_of_assemble hread isIdentifier_symbols hassemble).1
    [.comment "generated by moonc", .plain .entry] _ rest _ hrest rfl).2

/-- Where an instruction of the image stands in the program: around the functions, or in one. -/
theorem exists_line (hcode : c.code = assembled entries others) {x : Int32} {mi : MachineInstruction}
    (hx : image.code[x]? = some mi) (hop : mi.op ∉ [Opcode.addi, .hlt]) :
    ∃ part ∈ entries ++ others, ∃ start upto l rest after i, c.code = start ++ (part.2 ++ after)
      ∧ part.2 = upto ++ l :: rest ∧ l.item? = some (.instruction i)
      ∧ i.encode? (c.code.names (Runtime.symbols {})) = some mi
      ∧ x = Int32.ofNat (size (start ++ upto)) := by
  obtain ⟨before, l, after, i, hc, hl, hmi, hx⟩ := (carries_of_assemble (readable_of_compile h hw hn)
    isIdentifier_symbols (assemble_of_assembleFor ha)).2 x mi hx
  have hflat := hc
  rw [hcode, ← flatten_blocks] at hflat
  obtain ⟨block, hb, start, upto, rest, after', rfl, hblock, haround⟩ := exists_block hflat
  rcases mem_blocks hb with hframe | ⟨part, hp, rfl⟩
  · have hframe := hframe l (by rw [hblock]; simp)
    have hops : ∀ l ∈ frameLines, ∀ i, l.item? = some (.instruction i) →
        i.op ∈ [Opcode.addi, .hlt] := by
      simp [frameLines, Line.item?, Item.named, Item.bare]
    exact absurd ((Instruction.encode?_eq_some hmi).1 ▸ hops l hframe i hl) hop
  · refine ⟨part, hp, start, upto, l, rest, after', i, ?_, hblock, hl, hmi, hx⟩
    rw [hcode, ← flatten_blocks, haround]

end

/-- The control flow of an assembled program is closed, if no call means an entry function. -/
theorem closed_of_compile {image : Image} (h : (compile {} p).1 = .ok c)
    (hw : ∀ f ∈ p.functions, IsWord f.name ∧ IsWord f.className) (hn : OneLiners p.names)
    (ha : assembleFor {} c.assembly = .ok image) (hmain : Compiled.NoEntryCalls c) :
    Closed c image := by
  obtain ⟨entries, others, hparts, hcode⟩ := parts_of_compile h
  have hread := readable_of_compile h hw hn
  have hassemble := assemble_of_assembleFor ha
  refine ⟨?_, ?_, ?_, ?_⟩
  · exact entry_mem_code h hw hn ha hparts hcode
  · exact fun x i hx hop => next_of_assemble hread isIdentifier_symbols hassemble
      (hcode ▸ flows_of_compile h hn hparts) hx hop
  · intro x mi hx hop
    obtain ⟨part, hp, start, upto, l, rest, after, i, -, hpart, hl, hmi, -⟩ :=
      exists_line h hw hn ha hcode hx fun he => by
        simp only [List.mem_cons, List.not_mem_nil, or_false] at he
        rcases he with he | he <;> rw [he] at hop <;> exact absurd hop (by decide)
    obtain ⟨f, hr⟩ := hparts.routine part hp
    obtain ⟨scope, exit, hreg⟩ := hr.regular h hn
    obtain ⟨hop', -, -, -, hk⟩ := Instruction.encode?_eq_some hmi
    rw [hop'] at hop
    rcases hreg.item (by rw [hpart]; simp) hl with hst | ⟨r, tag, hjl⟩
    · obtain ⟨s, hs, hname⟩ := Item.Steady.target hst hop
      rw [hname] at hk
      exact target_mem_code h hw hn ha hparts hcode hp hs hk
    · cases hjl
      exact absurd hop (by simp)
  · intro x mi hx hop
    obtain ⟨part, hp, start, upto, l, rest, after, i, haround, hpart, hl, hmi, rfl⟩ :=
      exists_line h hw hn ha hcode hx (by rw [hop]; decide)
    obtain ⟨f, hr⟩ := hparts.routine part hp
    obtain ⟨scope, exit, hreg⟩ := hr.regular h hn
    obtain ⟨hop', -, -, -, hk⟩ := Instruction.encode?_eq_some hmi
    rw [hop'] at hop
    obtain ⟨r, tag, hjl⟩ := (hreg.item (by rw [hpart]; simp) hl).resolve_left
      fun hst => Item.Steady.ne_jl hst hop
    cases hjl
    have hk : (c.code.names (Runtime.symbols {})).address? tag = some mi.k := hk
    by_cases hentry : tag ∈ Runtime.entries {}
    · refine .inl ⟨tag, hentry, ?_⟩
      rwa [address?_of_not_mem fun hmem => (isLabel_of_mem h hmem).not_mem_entries hentry] at hk
    · have hown : ownLinks part.2 = ownLinks upto ++ tag :: ownLinks rest := by
        have hlink : Code.links (l :: rest) = tag :: Code.links rest := by
          simp [Code.links, hl, Item.link?]
        rw [hpart, ownLinks, Code.links_append, hlink, List.filter_append,
          List.filter_cons_of_pos (by simpa using hentry)]
        rfl
      have hat := congrArg (fun L => L[(ownLinks upto).length]?) (hown.symm.trans hreg.links)
      simp only [List.getElem?_append_right (Nat.le_refl _), Nat.sub_self, List.getElem?_cons_zero,
        List.getElem?_map] at hat
      obtain ⟨k, hcallee, rfl⟩ := Option.map_eq_some_iff.1 hat.symm
      have hmem := List.mem_of_getElem? hcallee
      obtain ⟨start', code, hplaced, hstart, hin⟩ := placed_of_tag h hw hn ha hparts hcode
        (hreg.known k hmem) (hmain f (List.mem_of_getElem? hr.found) k hmem) hk
      refine .inr ⟨start ++ upto, k, start', code, rfl, ?_, hplaced, hstart, hin⟩
      exact ⟨part.1, f, start, upto, l :: rest, ⟨hpart ▸ hr.emitted, after, hpart ▸ haround⟩, rfl,
        hr.found, hcallee⟩

end

def guarded : Program :=
  ⟨[], [named "tick" "" [] [],
    named "main" "" [] [.when (.int 1) [.call (.call .missing "tick" [] false .void none)]]]⟩

def guardedCode : Code :=
  [.comment "generated by moonc", .plain .entry, .plain (.named .addi ⟨14⟩ ⟨0⟩ "topaddr"),
    .comment "function main() => void", .comment "frame 0", .comment "if 1",
    .plain (.imm .addi ⟨1⟩ ⟨0⟩ 1), .plain (.bz ⟨1⟩ "else2"), .comment "call tick()",
    .plain (.imm .addi ⟨14⟩ ⟨14⟩ 0), .plain (.jl ⟨15⟩ "fn_tick"), .plain (.imm .addi ⟨14⟩ ⟨14⟩ 0),
    .plain (.j "endif3"), .labeled "else2" (.bare .nop), .labeled "endif3" (.bare .nop),
    .labeled "end_main1" (.bare .nop), .plain (.bare .hlt), .blank,
    .comment "function tick() => void", .labeled "fn_tick" (.sw 0 ⟨14⟩ ⟨15⟩),
    .labeled "end_tick4" (.bare .nop), .plain (.lw ⟨15⟩ 0 ⟨14⟩), .plain (.reg1 .jr ⟨15⟩), .blank,
    .comment "data", .labeled "buf" (.reserve 20)]

theorem closed_guarded : ∃ c image, (compile {} guarded).1 = .ok c
    ∧ assembleFor {} c.assembly = .ok image ∧ Closed c image := by
  obtain ⟨c, hc, hcheck⟩ := compile_of_layout? {} guarded (fun layout code =>
    (layout.table.program.functions.all fun f =>
      (Stmt.calleesOf f.body).all fun k => !isEntryAt {} layout k) && code == guardedCode) (by cbv)
  simp only [Bool.and_eq_true, beq_iff_eq] at hcheck
  obtain ⟨hcalls, hcode⟩ := hcheck
  obtain ⟨image, himage⟩ : ∃ image, assemble (text guardedCode) (Runtime.symbols {}) = .ok image :=
    exists_assemble (by decide) isIdentifier_symbols (by decide) (by decide)
      (by decide) (by decide)
  have ha : assembleFor {} c.assembly = .ok image := by
    rw [assembleFor, Compiled.assembly, hcode]
    rw [show (Config.runtime {}).symbols = Runtime.symbols {} from rfl, himage]
    rfl
  refine ⟨c, image, hc, ha, closed_of_compile hc (by decide) (by decide) ha ?_⟩
  intro f hf k hk
  have := List.all_eq_true.1 (List.all_eq_true.1 hcalls f hf) k hk
  simpa using this

theorem Placed.head {c : Compiled} {i : ℕ} {before code : Code} (h : Placed c i before code)
    {scope : Scope} {f : MoonBackend.Function} (hs : c.layout.table.functions[i]? = some scope)
    (hf : c.layout.table.program.functions[i]? = some f) :
    ∃ rest, code = .comment f.toSignature.text :: rest := by
  obtain ⟨⟨k, k', hrun⟩, -⟩ := h
  rw [run_functionAt hs hf] at hrun
  have hany : ∀ {α : Type} (x : Emit α) (c : Context) (s : Counts),
      Triple (fun _ => True) c s x fun _ _ => True := fun x c s => by
    unfold Triple
    split <;> trivial
  refine Triple.answer (F := fun _ => True) (Q := fun code _ => ∃ rest, code = _ :: rest) ?_ hrun
  rw [function_eq]
  refine .look (eval_read _ _) <| .look (eval_stackPointer _ _) <| .look (eval_link _ _) <|
    .look (eval_comment _ _ _) ?_
  refine (hany _ _ _).bind fun _ _ _ => (hany _ _ _).bind fun _ _ _ => (hany _ _ _).bind fun _ _ _ =>
    (hany _ _ _).bind fun _ _ _ => (hany _ _ _).bind fun _ _ _ => .pure ⟨_, rfl⟩

/-- A call of the second `main`. The tag that it jumps to is that of `main_2`. -/
def misdirected : Program :=
  ⟨[], [named "main" "" [] [.call (.call .missing "main" [.int 5] false .void none)],
    named "main" "" [⟨"x", .integer⟩] [], named "main_2" "" [] [.write (.int 7)]]⟩

def misdirectedCode : Code :=
  [.comment "generated by moonc", .plain .entry, .plain (.named .addi ⟨14⟩ ⟨0⟩ "topaddr"),
    .comment "function main() => void", .comment "frame 0", .comment "call main(5)",
    .plain (.imm .addi ⟨1⟩ ⟨0⟩ 5), .plain (.sw 0 ⟨14⟩ ⟨1⟩), .plain (.imm .addi ⟨14⟩ ⟨14⟩ 0),
    .plain (.jl ⟨15⟩ "fn_main_2"), .plain (.imm .addi ⟨14⟩ ⟨14⟩ 0),
    .labeled "end_main1" (.bare .nop), .comment "function main(x: integer) => void",
    .comment "frame 4", .labeled "end_main_22" (.bare .nop), .plain (.bare .hlt), .blank,
    .comment "function main_2() => void", .labeled "fn_main_2" (.sw 0 ⟨14⟩ ⟨15⟩),
    .comment "write(7)", .plain (.imm .addi ⟨1⟩ ⟨0⟩ 7), .plain (.imm .addi ⟨14⟩ ⟨14⟩ (-4)),
    .plain (.sw (-8) ⟨14⟩ ⟨1⟩), .plain (.named .addi ⟨1⟩ ⟨0⟩ "buf"), .plain (.sw (-12) ⟨14⟩ ⟨1⟩),
    .plain (.jl ⟨15⟩ "intstr"), .plain (.sw (-8) ⟨14⟩ ⟨13⟩), .plain (.jl ⟨15⟩ "putstr"),
    .plain (.imm .addi ⟨14⟩ ⟨14⟩ 4), .plain (.imm .addi ⟨1⟩ ⟨0⟩ 10), .plain (.reg1 .putc ⟨1⟩),
    .labeled "end_main_23" (.bare .nop), .plain (.lw ⟨15⟩ 0 ⟨14⟩), .plain (.reg1 .jr ⟨15⟩), .blank,
    .comment "data", .labeled "buf" (.reserve 20)]

theorem misdirected_not_closed : ∃ c image, (compile {} misdirected).1 = .ok c
    ∧ (∀ f ∈ misdirected.functions, IsWord f.name ∧ IsWord f.className)
    ∧ OneLiners misdirected.names ∧ assembleFor {} c.assembly = .ok image ∧ ¬ Closed c image := by
  obtain ⟨c, hc, hcheck⟩ := compile_of_layout? {} misdirected (fun layout code =>
    (layout.table.program.functions.all fun f => (Stmt.calleesOf f.body).all fun k => k == 1)
      && layout.table.program.functions[1]?.any
        (fun f => f.toSignature.text == "function main(x: integer) => void")
      && code == misdirectedCode) (by cbv)
  simp only [Bool.and_eq_true, beq_iff_eq] at hcheck
  obtain ⟨⟨hcalls, htext⟩, hcode⟩ := hcheck
  have hread : ∀ l ∈ misdirectedCode, l.Readable := by decide
  obtain ⟨image, himage⟩ :
      ∃ image, assemble (text misdirectedCode) (Runtime.symbols {}) = .ok image :=
    exists_assemble hread isIdentifier_symbols (by decide) (by decide)
      (by decide) (by decide)
  have ha : assembleFor {} c.assembly = .ok image := by
    rw [assembleFor, Compiled.assembly, hcode,
      show (Config.runtime {}).symbols = Runtime.symbols {} from rfl, himage]
    rfl
  refine ⟨c, image, hc, by decide, by decide, ha, fun hclosed => ?_⟩
  -- the call stands at address 16 and jumps to address 36
  have hjl : image.code[(16 : Int32)]? = some ⟨.jl, 15, 0, 0, 36⟩ := by
    have hholds : Site.Holds ⟨image, {}, names misdirectedCode (Runtime.symbols {})⟩ 0
        (misdirectedCode.take 9 ++ .plain (.jl ⟨15⟩ "fn_main_2") :: misdirectedCode.drop 10) :=
      holds_of_assemble hread isIdentifier_symbols himage (by decide) (by decide)
    rw [Site.holds_append, Site.holds_plain] at hholds
    obtain ⟨-, ⟨-, mi, hmi, hat⟩, -⟩ := hholds
    have hcoded : Instruction.encode? (names misdirectedCode (Runtime.symbols {}))
        ⟨.jl, ⟨15⟩, Item.unused, Item.unused, .name "fn_main_2"⟩ = some ⟨.jl, 15, 0, 0, 36⟩ := by
      decide
    exact hat.trans (hmi.symm.trans hcoded)
  rcases hclosed.call 16 _ hjl rfl with ⟨s, hs, hlookup⟩ | ⟨before, k, start, code, -, hcall, hplaced, hk, -⟩
  · exact absurd hlookup ((by decide : ∀ s ∈ Runtime.entries {},
      (Runtime.symbols {}).lookup s ≠ some 36) s hs)
  · obtain ⟨i, f, start', upto, rest', -, rfl, hf, hcallee⟩ := hcall
    have hone := List.all_eq_true.1 (List.all_eq_true.1 hcalls f (List.mem_of_getElem? hf)) k
      (List.mem_of_getElem? hcallee)
    obtain rfl : k = 1 := by simpa using hone
    obtain ⟨g, hg, hgtext⟩ := (Option.any_eq_true _ _).1 htext
    obtain ⟨hscope, -⟩ := exists_function hc (functions_length hc ▸ (List.getElem?_eq_some_iff.1 hg).1)
    obtain ⟨scope, hscope⟩ := hscope
    obtain ⟨rest, rfl⟩ := hplaced.head hscope hg
    obtain ⟨-, after, hcut⟩ := hplaced
    rw [eq_of_beq hgtext, hcode] at hcut
    have hat : misdirectedCode[start.length]? = some (.comment "function main(x: integer) => void") := by
      rw [hcut]
      simp
    have htake : start = misdirectedCode.take start.length := by
      rw [hcut]
      simp
    have hlen : start.length < misdirectedCode.length := (List.getElem?_eq_some_iff.1 hat).1
    have hsize : ∀ n < misdirectedCode.length,
        misdirectedCode[n]? = some (.comment "function main(x: integer) => void") →
        Int32.ofNat (size (misdirectedCode.take n)) ≠ 36 := by decide
    exact hsize _ hlen hat (by rw [← htake, ← hk])

end MoonBackend.Emit
