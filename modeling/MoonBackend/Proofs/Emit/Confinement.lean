import MoonBackend.Proofs.Emit.Assembling
import MoonBackend.Proofs.Emit.Confined

/-!
# Programs are confined

Every load and store of a program without indexed expressions whose types agree stays in its area,
as long as no size of its layout reaches the limit of the words that count bytes: each piece of code
is confined, code put together from such pieces is, and so is every function.
-/

namespace MoonBackend

open Layout Code

/-! ### Local variables of statements -/

def Stmt.declaresIn (vars : List VarDecl) : Stmt → Bool
  | .declare d _ => vars.contains d
  | _ => true

section

variable {q : Expr → Bool} {t : Stmt → Bool} {vars : List VarDecl}

mutual

theorem Stmt.all_declaresIn : ∀ st : Stmt, st.all q t = true → st.locals ⊆ vars →
    st.all q (fun st => t st && st.declaresIn vars) = true
  | .declare d init, h, hl => by
    rw [Stmt.all, Bool.and_eq_true] at h ⊢
    exact ⟨by simpa [h.1, Stmt.declaresIn] using hl List.mem_cons_self, h.2⟩
  | .assign _ _, h, _ => by simpa [Stmt.all, Stmt.declaresIn] using h
  | .write _, h, _ => by simpa [Stmt.all, Stmt.declaresIn] using h
  | .read _, h, _ => by simpa [Stmt.all, Stmt.declaresIn] using h
  | .ret _, h, _ => by simpa [Stmt.all, Stmt.declaresIn] using h
  | .call _, h, _ => by simpa [Stmt.all, Stmt.declaresIn] using h
  | .when _ body, h, hl => by
    rw [Stmt.all, Bool.and_eq_true] at h
    rw [Stmt.all, Stmt.allOf_declaresIn body h.2 hl]
    simpa [Stmt.declaresIn] using h.1
  | .loop _ body, h, hl => by
    rw [Stmt.all, Bool.and_eq_true] at h
    rw [Stmt.all, Stmt.allOf_declaresIn body h.2 hl]
    simpa [Stmt.declaresIn] using h.1
  | .branch _ yes no, h, hl => by
    rw [Stmt.all, Bool.and_eq_true, Bool.and_eq_true] at h
    rw [Stmt.locals, List.append_subset] at hl
    rw [Stmt.all, Stmt.allOf_declaresIn yes h.1.2 hl.1, Stmt.allOf_declaresIn no h.2 hl.2]
    simpa [Stmt.declaresIn] using h.1.1

theorem Stmt.allOf_declaresIn : ∀ sts : List Stmt, Stmt.allOf q t sts = true →
    Stmt.localsOf sts ⊆ vars → Stmt.allOf q (fun st => t st && st.declaresIn vars) sts = true
  | [], _, _ => rfl
  | st :: sts, h, hl => by
    rw [Stmt.allOf, Bool.and_eq_true] at h
    rw [Stmt.localsOf, List.append_subset] at hl
    rw [Stmt.allOf, Stmt.all_declaresIn st h.1 hl.1, Stmt.allOf_declaresIn sts h.2 hl.2]
    rfl

end

end

namespace Emit

variable {p : Program} {c : Context} {path : Path} {e : Expr} {off : Int64} {r : Register}
  {code : Code} {place : Place}

/-! ### Input and output -/

theorem confined_printCode {size : Int64} (hs : c.scope.frameSize = .ok size) :
    Confined c (printCode c size r) := by
  have hlent : Touches (Lent c) (plain [.sw c.config.runtime.valueParam c.sp r,
      .named .addi r c.nought c.config.runtime.bufferLabel,
      .sw c.config.runtime.bufferParam c.sp r, .jl c.link c.config.runtime.intToString,
      .sw c.config.runtime.valueParam c.sp c.result,
      .jl c.link c.config.runtime.printString]) := by
    simp +decide [Lent.value, Lent.buffer]
  exact .library (Fitted.frameSize_eq hs) hlent

theorem confined_readCode {size : Int64} (hs : c.scope.frameSize = .ok size) :
    Confined c (readCode c size r) := by
  have hlent : Touches (Lent c) (plain [.named .addi r c.nought c.config.runtime.bufferLabel,
      .sw c.config.runtime.valueParam c.sp r, .jl c.link c.config.runtime.readString,
      .named .addi r c.nought c.config.runtime.bufferLabel,
      .sw c.config.runtime.valueParam c.sp r, .jl c.link c.config.runtime.stringToInt]) := by
    simp +decide [Lent.value]
  exact .library (Fitted.frameSize_eq hs) hlent

theorem PrintsWord.confined {i : ℕ} {n : ℤ} (hw : PrintsWord c place (Int64.ofNat i) code)
    (h : Fitted p c) (hp : place.Has c (4 * n)) (hi : (i : ℤ) < n) : Confined c code := by
  obtain ⟨hs, -, hload⟩ := hw
  exact .append (.own (hload.touches h hp hi)) (confined_printCode hs)

theorem PrintsBytes.touches {area : Area} {bytes : List UInt8} (hb : PrintsBytes c bytes code) :
    Touches area code := by
  obtain ⟨-⟩ := hb
  simp only [touches_plain, List.mem_flatMap, List.mem_cons, List.not_mem_nil, or_false]
  rintro item ⟨b, -, rfl | rfl⟩
  · exact Item.touches_imm (by decide)
  · exact Item.touches_reg1 (by decide)

theorem EndsLine.touches {area : Area} (he : EndsLine c code) : Touches area code := by
  cases he with
  | none => simp
  | some hb => exact hb.touches

theorem PrintsValue.confined (hv : PrintsValue c e.type place code) (h : Fitted p c)
    (he : Ready c .value path e) (hf : Finds c (placeOf path e) place) : Confined c code := by
  cases hv with
  | integer ht hw => exact hw.confined (i := 0) (n := 1) h (h.place_integer he hf ht) (by decide)
  | float ht hm hs hx =>
    have hbase : e.type.base = .float := by
      simp only [Ty.isFloat, Bool.and_eq_true, beq_iff_eq] at ht
      exact ht.1
    have hplace := h.place_float he hf hbase
    exact .append (.append (hm.confined (i := 0) (n := 2) h hplace (by decide)) (.own hs.touches))
      (hx.confined (i := 1) (n := 2) h hplace (by decide))

/-! ### Slots of values -/

theorem Stores.touches_value {dst : Location} {type : Ty} {n : Int64} {m high : ℤ}
    (hs : Stores c r dst place n code) (h : Fitted p c) (he : Ready c .value path e)
    (hf : Finds c (placeOf path e) place) (htype : e.type = type) (ht : c.Takes type m)
    (hn : Finds c (words type) n) (hr : Region c false dst high) (hw : Within high m dst.off) :
    Touches (Own c) code := by
  have hplace := h.place_has he hf (htype ▸ ht)
  rw [← (h.words_eq ht hn).1] at hplace hw
  exact hs.touches_own h hplace hr hw

theorem Fitted.ownAddress_within (h : Fitted p c) {kind : EntryKind} (hk : kind.isAddress = true)
    (hf : Finds c (ownSlot kind) off) : Within c.frameBytes 4 off := by
  obtain ⟨x, hx, hreq, hoff⟩ := Fitted.of_slotOffset (Fitted.slotOffset_of_ownSlot hf)
  have hkind : x.kind.isAddress = true := by rw [kind_of_requireSlot hreq, hk]
  rw [← h.address_bytes h.scope hx hkind]
  exact (h.entry_within h.scope hx hoff).1

/-! ### Pieces -/

theorem Piece.confined {vars : List VarDecl}
    (hp : Piece c (Expr.agrees c.layout.table.program)
      (fun st => st.agrees c.head.returns && st.declaresIn vars) code)
    (h : Fitted p c) (hstacks : c.Stacks)
    (hvars : ∀ d ∈ vars, ∀ x, c.scope.lookup d.name = some x → x.type = d.type) :
    Confined c code := by
  cases hp with
  | note text => exact .own (touches_note text)
  | mark label => exact .own (by simp)
  | jump label => exact .own (by simp)
  | literal he hoff _ hm hx =>
    obtain ⟨n, hn, hin⟩ := h.temporary_within he nofun nofun nofun nofun nofun hoff
    have hpair := own_pair h (hin.mono (le_refl _) (h.takes_float hn rfl))
    exact .own (by simp [hm.touches, hx.touches, hpair])
  | copy he hb hint hq hmat =>
    exact .own (hmat.touches h he hb (isIndexed_of_agrees _ hq) hint)
  | unary he hsrc hu => exact .own (hu.touches h he hsrc)
  | binary he hq hl hr hb => exact .own (hb.touches h he (eq_of_beq hq) hl hr)
  | call he hq hplaces hc => exact hc.confined h hstacks he hq hplaces
  | @test path st cond _ _ _ _ he ht hst hp _ hload =>
    have htype : cond.type = .integer := by
      rw [Bool.and_eq_true] at ht
      cases st <;> cases hst
      all_goals exact eq_of_beq ht.1
    have hplace := h.place_integer he hp (by rw [htype]; rfl)
    exact .own (by simp [hload.touches (i := 0) (n := 1) h hplace (by decide)])
  | define he ht hm hp hlook hoff hn _ hmove =>
    simp only [Stmt.agrees, Stmt.declaresIn, hm, Bool.false_or, Bool.and_eq_true, beq_iff_eq,
      List.contains_iff_mem] at ht
    obtain ⟨hmem, hk⟩ := h.kind_of_lookup hlook
    have htakes := h.takes_of_mem h.scope hmem (Standing.isAddress_of_kind hk)
    have htype := ht.1.trans (hvars _ ht.2 _ hlook).symm
    exact .own (hmove.touches_value h he hp htype htakes hn (.frame _)
      (h.entry_within h.scope hmem hoff).1)
  | @assign path target source _ _ _ dst _ _ ht he hq hall hp hloc hn _ _ hmove =>
    simp only [Stmt.agrees, Stmt.declaresIn, Bool.and_eq_true, beq_iff_eq] at hq
    obtain ⟨⟨htype, hliteral⟩, -⟩ := hq
    have hindexed := isIndexed_of_agrees target hall
    obtain ⟨n, high, htakes, hregion, hin⟩ := hloc.region h ht (Fitted.notVoid_of_words hn)
      (by rintro v rfl; cases hliteral)
    rw [hindexed] at hregion
    exact .own (touches_append.2 ⟨hloc.touches h hindexed,
      hmove.touches_value h he hp htype.symm htakes hn hregion hin⟩)
  | print he hf hprint => exact hprint.confined h he hf
  | newline hend => exact .own hend.touches
  | @read path target _ dst _ _ ht hq hall hint hsize _ hloc =>
    simp only [Stmt.agrees, Stmt.declaresIn, Bool.and_eq_true] at hq
    have hindexed := isIndexed_of_agrees target hall
    have htakes := h.takes_integer hint
    obtain ⟨n, high, hn, hregion, hin⟩ := hloc.region h ht (h.notVoid_of_takes htakes)
      (by rintro v rfl; cases hq.1)
    obtain rfl := hn.unique htakes
    rw [hindexed] at hregion
    exact .append (.append (confined_readCode hsize) (.own (hloc.touches h hindexed)))
      (.own (by simpa using hregion.own hin))
  | ret he hq hm hvoid hf hoff hn _ hmove =>
    simp only [Stmt.agrees, Stmt.declaresIn, hm, Bool.false_or, Bool.and_eq_true,
      beq_iff_eq] at hq
    have hb := h.headSlots
    rw [Demand.ofHead, backed_append, backed_append, if_neg hvoid] at hb
    obtain ⟨n, htakes, hin⟩ := h.slot_within hb.1.2 (Fitted.slotOffset_of_ownSlot hoff) rfl
    exact .own (hmove.touches_value h he hf hq.1 htakes hn (.frame _) hin)

/-! ### Functions -/

theorem Composed.confined {vars : List VarDecl}
    (hc : Composed c (Expr.agrees c.layout.table.program)
      (fun st => st.agrees c.head.returns && st.declaresIn vars) code)
    (h : Fitted p c) (hstacks : c.Stacks)
    (hvars : ∀ d ∈ vars, ∀ x, c.scope.lookup d.name = some x → x.type = d.type) :
    Confined c code := by
  induction hc with
  | nil => exact .nil
  | piece hp => exact hp.confined h hstacks hvars
  | append _ _ ih ih' => exact ih.append ih'

theorem PointsToResult.touches {area : Area} {returns : Ty} (hp : PointsToResult c returns code) :
    Touches area code := by
  cases hp with
  | none => simp
  | some => simp +decide

theorem Function.confined {tag : String} {f : MoonBackend.Function} (hf : Function c tag f code)
    (h : Fitted p c) (hstacks : c.Stacks) (hbody : StmtsReady c [] 0 f.body)
    (hhead : c.head = f.toSignature)
    (hagrees : Stmt.allOf (Expr.agrees c.layout.table.program) (Stmt.agrees f.returns) f.body
      = true)
    (hvars : ∀ d ∈ Stmt.localsOf f.body, ∀ x, c.scope.lookup d.name = some x → x.type = d.type) :
    Confined c code := by
  have hruns : ∀ {body}, RunsAll c [] 0 f.body body → Confined c body := fun hr =>
    (hr.composed hbody (by
      rw [hhead]
      exact Stmt.allOf_declaresIn f.body hagrees (List.Subset.refl _))).confined h hstacks hvars
  cases hf with
  | entry _ _ hr =>
    exact .append (.append (.own (by simp)) (hruns hr)) (.own (by simp))
  | routine _ hoff hr hresult =>
    have hlink : ∀ op, Own c op c.sp _ := fun _ => .frame (h.ownAddress_within rfl hoff)
    exact .append (.append (.append (.own (by simp [hlink])) (hruns hr)) (.own (by simp)))
      (.own (by simp +decide [hresult.touches, hlink]))

/-! ### Programs -/

theorem touches_frameLines {area : Area} : Touches area frameLines := by
  intro l hl item hi
  simp only [frameLines, List.mem_cons, List.not_mem_nil, or_false] at hl
  rcases hl with rfl | rfl | rfl | rfl | rfl | rfl | rfl <;> cases hi
  · trivial
  · exact Item.touches_named (by decide)
  · exact Item.touches_bare (by decide)
  · trivial

/-- No object, no slot and no frame takes as many bytes as a word cannot count, and neither do two
frames together. -/
structure Compiled.Counted (p : Program) (c : Compiled) : Prop where
  fits : Fits p {} c.layout.table
  pairs : ∀ s ∈ c.layout.table.functions, ∀ s' ∈ c.layout.table.functions,
    bytesOf s.size + bytesOf s'.size < 2 ^ 63

/-- The code of a program is that of its functions between lines that touch no memory, and the code
of every function is confined. -/
def Compiled.Confined (c : Compiled) : Prop :=
  ∃ entries others, Parts c.layout entries others ∧ c.code = assembled entries others
    ∧ Touches (fun _ _ _ => False) frameLines
    ∧ ∀ part ∈ entries ++ others, ∃ scope f exit, c.layout.table.functions[part.1]? = some scope
      ∧ c.layout.table.program.functions[part.1]? = some f
      ∧ Emit.Confined (contextAt {} c.layout (tags c.layout.table.program) part.1 f scope exit)
        part.2

/-- A program without type annotations and without indexed expressions, whose types agree and whose
sizes are counted, is confined. -/
theorem confined_of_compile {c : Compiled} (h : (compile {} p).1 = .ok c) (hbare : p.isBare = true)
    (hagrees : c.layout.table.program.agrees = true) (hcounted : Compiled.Counted p c) :
    Compiled.Confined c := by
  obtain ⟨t, log, hb, hr, -⟩ := compile_eq_ok.1 h
  obtain ⟨hlater, -⟩ := of_resolve (Table.fresh_of_build hb) hr
  obtain ⟨entries, others, hparts, hcode⟩ := parts_of_compile h
  refine ⟨entries, others, hparts, hcode, touches_frameLines, fun part hp => ?_⟩
  obtain ⟨f, hroutine⟩ := hparts.routine part hp
  obtain ⟨scope, exit, hscope, hshape⟩ := hroutine.shape
  have hfitted : Fitted p
      (contextAt {} c.layout (tags c.layout.table.program) part.1 f scope exit) :=
    ⟨standing_of_resolve hb rfl hr hscope hroutine.found _ exit, rfl, hcounted.fits⟩
  have hready := ready_of_resolve hb hbare rfl hr hscope hroutine.found
    (tags c.layout.table.program) exit
  have hbody := List.all_eq_true.1 hagrees f (List.mem_of_getElem? hroutine.found)
  refine ⟨scope, f, exit, hscope, hroutine.found, hshape.confined hfitted
    (fun s hs => hcounted.pairs scope (List.mem_of_getElem? hscope) s hs) hready rfl hbody
    fun d hd x hx => ?_⟩
  exact type_of_lookup hb hlater hscope hroutine.found hd hx

theorem Compiled.Small.counted {c : Compiled} (hsmall : Compiled.Small p c)
    (hfits : Fits p {} c.layout.table) : Compiled.Counted p c := by
  refine ⟨hfits, fun s hs s' hs' => ?_⟩
  have hframe := hsmall.frames s hs
  have hframe' := hsmall.frames s' hs'
  omega

/-- A constructor, and a method that adds to the attribute of its receiver what was read. -/
def purse : Program :=
  ⟨[⟨"Purse", [], [⟨"coins", .integer⟩]⟩],
    [{ name := "put", className := "Purse", isConstructor := false, params := [⟨"n", .integer⟩],
       returns := .integer,
       body := [.assign (.var "coins" .void)
           (.binary .add (.var "coins" .void) (.var "n" .void) .void),
         .ret (.var "coins" .void)] },
     { name := "Purse", className := "Purse", isConstructor := true, params := [⟨"n", .integer⟩],
       returns := .void, body := [.assign (.var "coins" .void) (.var "n" .void)] },
     { name := "main", className := "", isConstructor := false, params := [], returns := .void,
       body := [.declare ⟨"p", .object "Purse"⟩
           (.call .missing "Purse" [.int 5] true (.object "Purse") none),
         .declare ⟨"n", .integer⟩ .missing,
         .read (.var "n" .void),
         .write (.call (.var "p" .void) "put" [.var "n" .void] false .void none)] }]⟩

set_option maxRecDepth 4000 in
theorem confined_purse : ∃ c, (compile {} purse).1 = .ok c ∧ Compiled.Confined c := by
  obtain ⟨c, hc, hcheck⟩ := compile_of_layout? {} purse (fun layout code =>
    layout.table.program.agrees && smallChecks layout code && frameChecks purse 1 layout) (by cbv)
  simp only [Bool.and_eq_true] at hcheck
  obtain ⟨⟨hagrees, hsmall⟩, hframes⟩ := hcheck
  obtain ⟨-, hsmall, -⟩ := of_smallChecks (p := purse) hsmall (by decide)
  exact ⟨c, hc, confined_of_compile hc rfl hagrees
    (hsmall.counted (fits_of_depth hc (by decide) (List.all_eq_true.1 hframes)))⟩

theorem Confined.nonpos (hc : Confined c code) (hconfig : c.config = {}) (hnn : 0 ≤ c.frameBytes) :
    Touches (fun _ _ off => off.toInt ≤ 0) code := by
  induction hc with
  | own h =>
    refine h.mono fun op r off ha => ?_
    cases ha with
    | frame hw | receiver _ _ hw => exact hw.1
  | call _ _ _ hp hf =>
    have hpassing : Touches (fun _ _ off => off.toInt ≤ 0) _ := hp.mono fun op r off ha => by
      cases ha with
      | load hw => exact hw.1
      | store hhigh _ => omega
    have hfetching : Touches (fun _ _ off => off.toInt ≤ 0) _ := hf.mono fun op r off ha => by
      cases ha with
      | load hw | store hw => exact hw.1
    simp +decide [hpassing, hfetching, jumpCode]
  | library _ h =>
    have hlent : Touches (fun _ _ off => off.toInt ≤ 0) _ := h.mono fun op r off ha => by
      cases ha <;> rw [hconfig] <;> decide
    simp +decide [hlent]
  | append _ _ ih ih' => exact touches_append.2 ⟨ih, ih'⟩

/-- The arrays of the second function have 2^64 - 4 bytes, counted as -4, so that its variable comes
to lie above its frame, where its caller has one of its own. -/
def overlapping : Program :=
  ⟨[], [{ name := "main", className := "", isConstructor := false, params := [], returns := .void,
          body := [.declare ⟨"x", .integer⟩ (.int 1),
            .call (.call .missing "f" [] false .void none), .write (.var "x" .void)] },
        { name := "f", className := "", isConstructor := false, params := [], returns := .void,
          body := [.declare ⟨"a", ⟨.boolean, [9223372036854775807]⟩⟩ .missing,
            .declare ⟨"b", ⟨.boolean, [9223372036854775805]⟩⟩ .missing,
            .declare ⟨"y", .integer⟩ (.int 7)] }]⟩

theorem overlapping_not_confined : ∃ c, (compile {} overlapping).1 = .ok c
    ∧ overlapping.isBare = true ∧ c.layout.table.program.agrees = true ∧ ¬ Compiled.Confined c := by
  obtain ⟨c, hc, hcheck⟩ := compile_of_layout? {} overlapping (fun layout code =>
    layout.table.program.agrees && (layout.table.functions.all fun s => s.size == some 4)
      && code.contains (.plain (.sw 4 ⟨14⟩ ⟨1⟩))) (by cbv)
  simp only [Bool.and_eq_true, List.all_eq_true, List.contains_iff_mem] at hcheck
  obtain ⟨⟨hagrees, hsizes⟩, hstore⟩ := hcheck
  refine ⟨c, hc, rfl, hagrees, ?_⟩
  rintro ⟨entries, others, -, hcode, -, hparts⟩
  rw [hcode] at hstore
  rcases mem_assembled hstore with hframe | ⟨part, hp, hl⟩
  · exact absurd hframe (by decide)
  · obtain ⟨scope, f, exit, hscope, -, hconfined⟩ := hparts part hp
    have hsize : scope.size = some 4 := eq_of_beq (hsizes scope (List.mem_of_getElem? hscope))
    have hnonpos := hconfined.nonpos rfl (by
      show 0 ≤ bytesOf scope.size
      rw [hsize]
      decide)
    have hbelow := Item.touches_sw.1 (hnonpos _ hl _ rfl)
    exact absurd hbelow (by decide)

end Emit

end MoonBackend
