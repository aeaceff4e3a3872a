import MoonBackend.Proofs.Emit.CallSites
import MoonBackend.Proofs.Emit.Loaded
import MoonBackend.Proofs.Emit.Returning

/-!
# The calling protocol

Every call in a program has its calling sequence in the image. From any state at its start the called
function is entered with its arguments and its receiver in their slots, and from the end of the called
function's body control comes back behind the sequence, with the result in the slot of the call.
-/

namespace MoonBackend

open Layout Machine Code Assembly

namespace Emit

variable {p : Program} {c c' : Context} {site : Site} {path : Path} {start : ℕ}

/-! ### Calls that keep the protocol -/

/-- From the start of a calling sequence the called function is entered, in whatever frame the caller
runs and wherever the receiver lies. -/
def Enters (c : Context) (site : Site) (path : Path) (e recv : Expr) (isNew : Bool) (k : ℕ)
    (callee : Signature) (scope : Scope) (places : List Place) (start ra : ℕ) : Prop :=
  ∀ m x v, m.On site start → m.get c.nought = 0 → m.get c.sp = Int32.ofInt x →
    FrameIn m.memory x (c.frameBytes + bytesOf scope.size) →
    (recv.isMissing = false → Lies c m.memory x (0 :: path) recv v) →
    ∃ m', Entered c site x path e recv isNew k callee scope places ra m m'

/-- A called function saves the return address at its tag. From the end of its body control comes back,
if the stack pointer and the saved address are as they were then. -/
structure Returns (c c' : Context) (site : Site) (path : Path) (e : Expr) (isNew : Bool) (k : ℕ)
    (callee : Signature) (ra after : ℕ) : Prop where
  saves : ∃ b, site.names.address? (c.tags.getD k "") = some (Int32.ofNat b)
    ∧ ∀ m y, m.On site b → m.get c.sp = Int32.ofInt y → FrameIn m.memory y c'.frameBytes →
      ∃ off m', Finds c' (ownSlot .returnAddress) off
        ∧ Reaches site [] m (b + 4) (m.memory.setWord (y + off.toInt) (m.get c.link)) m'
  resumes : ∃ b, site.names.address? c'.exit = some (Int32.ofNat b)
    ∧ ∀ m x, m.On site b → m.get c.nought = 0 → m.get c.sp = Int32.ofInt (x - c.frameBytes) →
      FrameIn m.memory x (c.frameBytes + c'.frameBytes) →
      (∀ off, Finds c' (ownSlot .returnAddress) off →
        m.memory.word (x - c.frameBytes + off.toInt) = Int32.ofNat ra) →
      ∃ m', Resumed c site x path e isNew k callee c'.scope after m m'

/-- A call whose calling sequence, from `start` on, is cut at its jump and keeps the protocol. -/
inductive Obeys (c : Context) (site : Site) (path : Path) (start : ℕ) : Expr → Code → Prop
  | intro {recv : Expr} {name : String} {args : List Expr} {isNew : Bool} {type : Ty} {k : ℕ}
    {scope : Scope} {callee : MoonBackend.Function} {places : List Place} {upto rest : Code} :
    c.layout.table.functions[k]? = some scope →
    c.layout.table.program.functions[k]? = some callee → Places c path 1 args places →
    (recv.isMissing = false → recv.all Expr.indexesIntegers = true → ∀ mem x,
      FrameIn mem x c.frameBytes → ∃ v, Lies c mem x (0 :: path) recv v) →
    (args.map Expr.type = callee.params.map VarDecl.type →
      Enters c site path (.call recv name args isNew type (some k)) recv isNew k
        callee.toSignature scope places start (start + Code.size upto + 4)) →
    (callee.isFree c.config.emit.entryFunction = false → ∃ exit,
      Returns c (contextAt c.config c.layout c.tags k callee scope exit) site path
        (.call recv name args isNew type (some k)) isNew k callee.toSignature
        (start + Code.size upto + 4)
        (start + Code.size (upto ++ .plain (.jl c.link (c.tags.getD k "")) :: rest))) →
    Obeys c site path start (.call recv name args isNew type (some k))
      (upto ++ .plain (.jl c.link (c.tags.getD k "")) :: rest)

/-! ### Calling sequences -/

section

variable {use : Use} {recv : Expr} {name : String} {args : List Expr} {isNew : Bool} {type : Ty} {k : ℕ}
  {scope : Scope} {callee : MoonBackend.Function} {places : List Place} {size : Int64} {text : String}
  {saved passed receiver fetch : Code}

theorem Fitted.types_of_params (h : Fitted p c) (hscope : c.layout.table.functions[k]? = some scope)
    (hk : c.layout.table.program.functions[k]? = some callee) :
    scope.params.map Entry.type = callee.params.map VarDecl.type := by
  have hout := congrArg (List.map fun o => o.2.2) (h.framedAt hscope hk).params
  simpa [Entry.outline, Function.comp_def] using hout

theorem Ready.type_of_call (he : Ready c use path (.call recv name args isNew type (some k)))
    (hk : c.layout.table.program.functions[k]? = some callee) (hnew : isNew = false) :
    type = callee.returns := by
  obtain ⟨-, -, k', f, heq, hf, -, -, htype⟩ := he.completed
  cases heq
  rw [Table.signature?, hk] at hf
  cases hf
  rwa [hnew] at htype

theorem SavesReceiver.exists_lies (hs : SavesReceiver c (0 :: path) recv saved) (h : Fitted p c)
    (he : Ready c use path (.call recv name args isNew type (Option.some k))) (hm : recv.isMissing = false)
    (hint : recv.all Expr.indexesIntegers = true) {mem : Memory} {x : ℤ}
    (hin : FrameIn mem x c.frameBytes) : ∃ v, Lies c mem x (0 :: path) recv v := by
  cases hs with
  | none hm' => exact absurd (hm'.symm.trans hm) (by decide)
  | some _ _ hloc _ => exact hloc.exists_lies h (he.receiver_of_call (by rw [hm]; decide)) hint hin

theorem BeforeJump.obeys {e : Expr}
    (hb : BeforeJump c path e recv isNew k callee.toSignature scope places size saved passed receiver)
    (he : Ready c use path (.call recv name args isNew type (some k))) (h : Fitted p c)
    (hplaces : Places c path 1 args places) (hscope : c.layout.table.functions[k]? = some scope)
    (htypes : scope.params.map Entry.type = args.map Expr.type)
    (hcode : site.Holds start (c.note text ++ saved ++ passed ++ receiver ++ jumpCode c size k)) :
    Enters c site path e recv isNew k callee.toSignature scope places start
      (start + Code.size (c.note text ++ saved ++ passed ++ receiver) + 8) :=
  fun m x v hon hzero hstack hin hv =>
    hb.enters h (hplaces.passable h he.args_of_call hscope htypes) hscope
      (fun hm => he.completed.1.resolve_left (by rw [hm]; decide)) he.reference_of_call
      ⟨hcode, hon, hzero, hstack⟩ hin hv

def Stand (p : Program) (c : Context) (site : Site) : Prop :=
  ∀ k scope callee, c.layout.table.functions[k]? = some scope →
    c.layout.table.program.functions[k]? = some callee →
    callee.isFree c.config.emit.entryFunction = false → ∃ exit a code, site.Holds a code
      ∧ Fitted p (contextAt c.config c.layout c.tags k callee scope exit)
      ∧ Function (contextAt c.config c.layout c.tags k callee scope exit) (c.tags.getD k "") callee code

theorem FetchesResult.obeys {ra : ℕ}
    (hf : FetchesResult c path (.call recv name args isNew type (Option.some k)) isNew callee.toSignature fetch)
    (hsize : size.toInt = c.frameBytes)
    (he : Ready c use path (.call recv name args isNew type (Option.some k))) (h : Fitted p c)
    (hscope : c.layout.table.functions[k]? = Option.some scope)
    (hk : c.layout.table.program.functions[k]? = Option.some callee)
    (hcode : site.Holds ra (plain [.imm .addi c.sp c.sp size] ++ fetch)) (hstand : Stand p c site)
    (hfree : callee.isFree c.config.emit.entryFunction = false) : ∃ exit,
      Returns c (contextAt c.config c.layout c.tags k callee scope exit) site path
        (.call recv name args isNew type (Option.some k)) isNew k callee.toSignature ra
        (ra + Code.size (plain [.imm .addi c.sp c.sp size] ++ fetch)) := by
  obtain ⟨exit, a, code, hholds, hfitted, hfunction⟩ := hstand k scope callee hscope hk hfree
  obtain ⟨htag, stop, hexit, hroutine⟩ := hfunction.routineAt hfree hholds
  refine ⟨exit, ⟨a, htag, fun m y hon hstack hin => hroutine.exec_entry hfitted hon hstack hin⟩,
    stop, hexit, fun m x hon hzero hstack hin hra => ?_⟩
  exact hroutine.resumes h hfitted rfl rfl hsize hf
    (fun hnew hv => he.slot_of_call (.inr (by rwa [he.type_of_call hk hnew])))
    (he.type_of_call hk) hcode hon hzero hstack hin hra

end

theorem Sequence.obeys {e : Expr} {code : Code} (hs : Sequence c path e code) (h : Fitted p c)
    (hstand : Stand p c site) (hcode : site.Holds start code) : Obeys c site path start e code := by
  obtain @⟨use, recv, name, args, isNew, type, k, places, code, he, hplaces, hcalls⟩ := hs
  obtain @⟨scope, callee, size, saved, passed, receiver, fetch, hscope, hk, hsize, hlen, hsaves,
    hpasses, hreceives, hfetches⟩ := hcalls
  generalize htext : "call " ++ (Expr.call recv name args isNew type (some k)).text = text at hcode ⊢
  -- the jump divides the sequence
  have hcut : c.note text ++ saved ++ passed ++ receiver ++ jumpCode c size k ++ fetch
      = (c.note text ++ saved ++ passed ++ receiver ++ plain [.imm .addi c.sp c.sp (-size)])
        ++ .plain (.jl c.link (c.tags.getD k "")) :: (plain [.imm .addi c.sp c.sp size] ++ fetch) := by
    simp [jumpCode, plain]
  have hra : start + Code.size (c.note text ++ saved ++ passed ++ receiver
        ++ plain [.imm .addi c.sp c.sp (-size)]) + 4
      = start + Code.size (c.note text ++ saved ++ passed ++ receiver) + 8 := by
    rw [Code.size_append _ (plain _)]
    rfl
  have hbefore := ((site.holds_append _ _ _).1 hcode).1
  rw [hcut, site.holds_append, site.holds_plain] at hcode
  obtain ⟨-, -, hback⟩ := hcode
  rw [hcut]
  refine .intro hscope hk hplaces (fun hm hint mem x hin => hsaves.exists_lies h he hm hint hin)
    (fun htypes => ?_) fun hfree => ?_
  · rw [hra]
    exact BeforeJump.obeys ⟨hsize, hlen, hsaves, hpasses, hreceives⟩ he h hplaces hscope
      ((h.types_of_params hscope hk).trans htypes.symm) hbefore
  · rw [Code.size_append _ (_ :: _), Code.size_cons, ← Nat.add_assoc, ← Nat.add_assoc]
    exact hfetches.obeys (Fitted.frameSize_eq hsize) he h hscope hk hback hstand hfree

/-! ### Programs -/

/-- Every call in the functions of a program has its calling sequence in the code of its function, and
keeps the protocol there. -/
def KeepsProtocol (c : Compiled) (image : Image) : Prop :=
  ∀ i scope f, c.layout.table.functions[i]? = some scope →
    c.layout.table.program.functions[i]? = some f →
    ∃ exit before code, Placed c i before code ∧ ∀ q ∈ Stmt.callsAmong [] 0 f.body,
      ∃ upto sequence rest, code = upto ++ sequence ++ rest
        ∧ Obeys (contextAt {} c.layout (tags c.layout.table.program) i f scope exit)
          ⟨image, {}, c.code.names (Runtime.symbols {})⟩ q.1 (Code.size (before ++ upto)) q.2 sequence

theorem Parts.exists_part {layout : Layout} {entries others : List (ℕ × Code)}
    (hparts : Parts layout entries others) {i : ℕ} (hi : i < layout.table.functions.length) :
    ∃ part ∈ entries ++ others, part.1 = i := by
  have hmem : i ∈ (entries ++ others).map Prod.fst := by
    rw [List.map_append, hparts.first, hparts.later, entryPositions, otherPositions]
    cases h : isEntryAt {} layout i
    · exact List.mem_append_right _ (List.mem_filter.2 ⟨List.mem_range.2 hi, by simp [h]⟩)
    · exact List.mem_append_left _ (List.mem_filter.2 ⟨List.mem_range.2 hi, h⟩)
  exact List.mem_map.1 hmem

/-- A part of the code stands in the image where the code before it ends. -/
theorem exists_holds {c : Compiled} {entries others : List (ℕ × Code)} {part : ℕ × Code}
    (hp : part ∈ entries ++ others) (hcode : c.code = assembled entries others)
    (hholds : site.Holds 0 c.code) : ∃ before after, c.code = before ++ (part.2 ++ after)
      ∧ site.Holds (Code.size before) part.2 := by
  obtain ⟨before, after, haround⟩ := exists_around (part_mem_blocks hp)
  rw [flatten_blocks, ← hcode] at haround
  rw [haround, site.holds_append, site.holds_append, Nat.zero_add] at hholds
  exact ⟨before, after, haround, hholds.2.1⟩

/-- The calls of a program without type annotations that is assembled and taken by the machine keep
the protocol, if its sizes are counted. -/
theorem keepsProtocol_of_compile {c : Compiled} {image : Image} {input : List UInt8} {m : Machine}
    (h : (compile {} p).1 = .ok c) (hbare : p.isBare = true)
    (hw : ∀ f ∈ p.functions, IsWord f.name ∧ IsWord f.className) (hn : OneLiners p.names)
    (ha : assembleFor {} c.assembly = .ok image) (hm : Machine.ofImage image {} input = .ok m)
    (hfits : Fits p {} c.layout.table) : KeepsProtocol c image := by
  obtain ⟨t, log, hb, hr, -⟩ := compile_eq_ok.1 h
  obtain ⟨entries, others, hparts, hcode⟩ := parts_of_compile h
  have hholds := holds_of_loaded h hw hn ha hm
  have hfitted : ∀ {i scope f}, c.layout.table.functions[i]? = some scope →
      c.layout.table.program.functions[i]? = some f → ∀ exit,
      Fitted p (contextAt {} c.layout (tags c.layout.table.program) i f scope exit) :=
    fun hs hf exit => ⟨standing_of_resolve hb rfl hr hs hf _ exit, rfl, hfits⟩
  intro i scope f hs hf
  obtain ⟨part, hp, rfl⟩ := hparts.exists_part (List.getElem?_eq_some_iff.1 hs).1
  obtain ⟨g, hroutine⟩ := hparts.routine part hp
  obtain ⟨scope', exit, hs', hshape⟩ := hroutine.shape
  cases hf.symm.trans hroutine.found
  cases hs.symm.trans hs'
  obtain ⟨before, after, haround, hpart⟩ := exists_holds hp hcode hholds
  refine ⟨exit, before, part.2, ⟨hroutine.emitted, after, haround⟩, fun q hq => ?_⟩
  obtain ⟨sequence, ⟨upto, rest, hin⟩, hseq⟩ :=
    hshape.hasCalls (ready_of_resolve hb hbare rfl hr hs hf _ exit) q hq
  refine ⟨upto, sequence, rest, hin.symm, hseq.obeys (hfitted hs hf exit) ?_ ?_⟩
  · -- the called functions stand in the image as well
    intro k calleeScope callee hks hkf hfree
    obtain ⟨part', hp', rfl⟩ := hparts.exists_part (List.getElem?_eq_some_iff.1 hks).1
    obtain ⟨g', hroutine'⟩ := hparts.routine part' hp'
    obtain ⟨scope', exit', hs', hshape'⟩ := hroutine'.shape
    cases hkf.symm.trans hroutine'.found
    cases hks.symm.trans hs'
    obtain ⟨start, -, -, hcallee⟩ := exists_holds hp' hcode hholds
    exact ⟨exit', _, part'.2, hcallee, hfitted hks hkf exit', hshape'⟩
  · rw [← hin, Site.holds_append, Site.holds_append] at hpart
    rw [Code.size_append]
    exact hpart.1.2

/-- A method with an integer and a float, called on a part of an object that was constructed. -/
def savings : Program :=
  ⟨[⟨"Account", [], [⟨"cents", .integer⟩, ⟨"rate", .float⟩]⟩,
    ⟨"Client", [], [⟨"id", .integer⟩, ⟨"account", .object "Account"⟩]⟩],
    [{ name := "deposit", className := "Account", isConstructor := false,
       params := [⟨"n", .integer⟩, ⟨"r", .float⟩], returns := .float,
       body := [.assign (.var "cents" .void) (.var "n" .void),
         .assign (.var "rate" .void) (.var "r" .void), .ret (.var "rate" .void)] },
     { name := "Client", className := "Client", isConstructor := true, params := [⟨"n", .integer⟩],
       returns := .void, body := [.assign (.var "id" .void) (.var "n" .void)] },
     { name := "main", className := "", isConstructor := false, params := [], returns := .void,
       body := [.declare ⟨"client", .object "Client"⟩
           (.call .missing "Client" [.int 1] true (.object "Client") none),
         .declare ⟨"r", .float⟩ .missing,
         .write (.call (.dot (.var "client" .void) "account" .void) "deposit" [.int 5, .var "r" .void]
           false .void none)] }]⟩

set_option maxRecDepth 4000 in
theorem keepsProtocol_savings : ∃ c image m, (compile {} savings).1 = .ok c
    ∧ assembleFor {} c.assembly = .ok image ∧ Machine.ofImage image {} [] = .ok m
    ∧ KeepsProtocol c image := by
  obtain ⟨c, hc, hcheck⟩ := compile_of_layout? {} savings
    (fun layout code => smallChecks layout code && frameChecks savings 2 layout) (by cbv)
  obtain ⟨hsmall, hframes⟩ := Bool.and_eq_true_iff.1 hcheck
  obtain ⟨hmain, hsmall, hlabels, hsize⟩ := of_smallChecks (p := savings) hsmall (by decide)
  have hfits := fits_of_depth hc (n := 2) (by decide) (List.all_eq_true.1 hframes)
  obtain ⟨image, m, ha, hm⟩ := exists_loaded hc (by decide) (by decide) hlabels
    (known_of_compile hc rfl (by decide) hmain hsmall hfits) hsize []
  exact ⟨c, image, m, hc, ha, hm, keepsProtocol_of_compile hc rfl (by decide) (by decide) ha hm hfits⟩

/-! ### Sizes that are not counted -/

/-- The arrays of the method have 2^64 - 8 bytes, counted as -8, so that the slots for its receiver and
for its parameter come to lie in one place. -/
def crowded : Program :=
  ⟨[⟨"Box", [], [⟨"v", .integer⟩]⟩],
    [{ name := "show", className := "Box", isConstructor := false, params := [⟨"x", .integer⟩],
       returns := .void,
       body := [.declare ⟨"a", ⟨.boolean, [9223372036854775807]⟩⟩ .missing,
         .declare ⟨"b", ⟨.boolean, [9223372036854775801]⟩⟩ .missing, .write (.var "x" .void)] },
     { name := "main", className := "", isConstructor := false, params := [], returns := .void,
       body := [.declare ⟨"box", .object "Box"⟩ .missing,
         .call (.call (.var "box" .void) "show" [.int 7] false .void none)] }]⟩

def passesSeven : List (Path × Expr) → Bool
  | [(_, .call (.var name type) _ [.int v] isNew _ (some k))] =>
    name == "box" && type == .object "Box" && v == 7 && !isNew && k == 0
  | _ => false

def crowdedChecks (layout : Layout) : Bool :=
  (layout.table.program.functions[1]?.any fun f => passesSeven (Stmt.callsAmong [] 0 f.body))
    && (layout.table.program.functions[0]?.any fun f =>
      f.className == "Box" && f.params.map VarDecl.type == [.integer])
    && ((layout.table.resolveName 1 "box").any fun l => !l.2 && l.1.entry.offset == some 0)
    && (layout.table.functions[0]?.any fun s => s.size == some 4 && s.params.length == 1
      && s.entries.all fun x => x.offset == some 0
        || x.kind != .parameter && x.kind != .reference)
    && (layout.table.functions[1]?.any fun s => s.size == some 8)
    && (layout.table.baseOffset "Box" "Box").toOption.any (· == 0)

theorem exists_of_passesSeven {calls : List (Path × Expr)} (h : passesSeven calls = true) :
    ∃ path name type, (path, Expr.call (.var "box" (.object "Box")) name [.int 7] false type (some 0))
      ∈ calls := by
  unfold passesSeven at h
  split at h
  · simp only [Bool.and_eq_true, beq_iff_eq, Bool.not_eq_true'] at h
    obtain ⟨⟨⟨⟨rfl, rfl⟩, rfl⟩, rfl⟩, rfl⟩ := h
    exact ⟨_, _, _, List.mem_singleton_self _⟩
  · cases h

/-- A function that has its only parameter where it has its receiver is entered with the argument as
receiver. -/
theorem Entered.receives_immediate {c : Context} {site : Site} {x : ℤ} {path : Path} {e recv : Expr}
    {isNew : Bool} {k ra : ℕ} {callee : Signature} {scope : Scope} {v : Int64} {m m' : Machine}
    (h : Entered c site x path e recv isNew k callee scope [.immediate v] ra m m')
    (hmember : callee.isMember = true) (hlen : scope.params.length = 1)
    (hzero : ∀ y ∈ scope.entries, y.kind = .parameter ∨ y.kind = .reference → y.offset = some 0) :
    Receives c m.memory x path e recv callee isNew v.toInt32 := by
  obtain ⟨slot, hslot, hreceives⟩ := h.receiver hmember
  obtain ⟨param, hparam⟩ := List.length_eq_one_iff.1 hlen
  obtain ⟨hmem, hkind⟩ := List.mem_filter.1 (hparam ▸ List.mem_singleton_self param)
  have hkind : param.kind = .parameter := by simpa using hkind
  have hparams := h.params (param, .immediate v) (by simp [hparam])
  rw [hzero slot (Fitted.mem_of_requireSlot hslot) (.inr (kind_of_requireSlot hslot))] at hreceives
  rw [Entry.wordsIn, hzero param hmem (.inl hkind), placeWords] at hparams
  -- the argument is one word, at the place of the receiver
  have hone := congrArg List.length hparams
  simp only [Memory.length_wordsAt, List.length_singleton] at hone
  rw [hone, Memory.wordsAt_one, List.singleton_inj] at hparams
  rwa [← hparams]

def atCall (image : Image) (start : ℕ) : Machine :=
  { regs := Machine.stackAt 65532, pc := Int32.ofNat start,
    memory := .ofData #[] 65536, image := image, runtime := {} }

set_option maxRecDepth 4000 in
theorem crowded_breaks_protocol : ∃ c image m, (compile {} crowded).1 = .ok c
    ∧ crowded.isBare = true ∧ (∀ f ∈ crowded.functions, IsWord f.name ∧ IsWord f.className)
    ∧ OneLiners crowded.names ∧ assembleFor {} c.assembly = .ok image
    ∧ Machine.ofImage image {} [] = .ok m ∧ ¬ KeepsProtocol c image := by
  obtain ⟨c, hc, hcheck⟩ := compile_of_layout? {} crowded (fun layout code =>
    crowdedChecks layout && decide (labelNames code).Nodup && decide (Code.size code ≤ 65536)
      && code.all fun l => decide (l.Known (code.names (Runtime.symbols {})))) (by cbv)
  simp only [crowdedChecks, Bool.and_eq_true, List.all_eq_true, decide_eq_true_eq, Option.any_eq_true,
    beq_iff_eq, Bool.not_eq_true'] at hcheck
  obtain ⟨⟨⟨⟨⟨⟨⟨⟨⟨main, hmain, hcall⟩, f, hf, hclass, htypes⟩, ⟨l, isMember⟩, hbox, rfl, hboxOff⟩,
    s, hs, ⟨hsize, hparams⟩, hslots⟩, scope, hscope, hscopeSize⟩, shift, hshift, rfl⟩, hlabels⟩,
    hcodeSize⟩, hknown⟩ := hcheck
  obtain ⟨path, name, type, hmem⟩ := exists_of_passesSeven hcall
  obtain ⟨image, m, ha, hm⟩ := exists_loaded hc (by decide) (by decide) hlabels hknown hcodeSize []
  refine ⟨c, image, m, hc, rfl, by decide, by decide, ha, hm, fun hkeeps => ?_⟩
  obtain ⟨exit, before, code, -, hcalls⟩ := hkeeps 1 scope main hscope hmain
  obtain ⟨upto, sequence, rest, -, hobeys⟩ := hcalls _ hmem
  cases hobeys with
  | @intro _ _ _ _ _ _ s' callee places upto' rest' hs' hcallee hplaces _ henters _ =>
    cases hs.symm.trans hs'
    cases hf.symm.trans hcallee
    have hoff : l.entry.getOffset = .ok 0 := by rw [Entry.getOffset, hboxOff]
    have hframe : (contextAt {} c.layout (tags c.layout.table.program) 1 main scope exit).frameBytes = 8 := by
      rw [Context.frameBytes, contextAt, hscopeSize]
      rfl
    -- the method is entered from a machine whose frame lies at the top of the memory
    obtain ⟨m', hentered⟩ := henters htypes.symm (atCall image (Code.size (before ++ upto))) 65532 _
      ⟨rfl, rfl, rfl, rfl⟩ rfl rfl ⟨by rw [hframe, hsize]; decide, by simp [atCall], by simp [atCall]⟩
      fun _ => .variable hbox hoff
    cases hplaces with
    | cons hplace hnone =>
      cases hnone
      obtain rfl := hplace.unique (b := .immediate 7) fun _ => rfl
      have hreceives := hentered.receives_immediate
        (by rw [show f.toSignature.isMember = (f.className != "") from rfl, hclass]; rfl) hparams
        fun y hy hk => by
          have := hslots y hy
          rcases hk with hk | hk <;> simpa [hk] using this
      generalize hseven : Int64.toInt32 7 = seven at hreceives
      cases hreceives with
      | own hmissing _ _ => cases hmissing
      | @on v shift _ hlies hbase => 
        have hbase : c.layout.table.baseOffset "Box" f.className = .ok shift := hbase
        rw [hclass] at hbase
        rw [hbase] at hshift
        obtain rfl : shift = 0 := Option.some.inj hshift
        cases hlies with
        | member hbox' _ _ => cases hbox.symm.trans hbox'
        | value hvar _ _ _ => exact hvar _ _ rfl
        | @«variable» _ _ _ l' off hbox' hoff' =>
          cases hbox.symm.trans hbox'
          cases hoff.symm.trans hoff'
          revert hseven
          decide

end Emit

end MoonBackend
