import MoonBackend.Proofs.Emit.Declared
import MoonBackend.Proofs.Emit.Touched

/-!
# Generated code is confined

When no size wraps around, the types in a program agree and nothing is indexed, every load and store
that is emitted stays in its frame or in the object of its receiver. Only the stores of a call reach
into the frame of the called function, only the loads after it take words of the result, and only
between the two moves of the stack pointer around a call of the library are its parameters stored.
-/

namespace MoonBackend

open Layout Code

/-! ### Programs whose types agree -/

def Expr.isLiteral : Expr → Bool
  | .int _ => true
  | _ => false

/-- The operands of a binary operator have one type, arguments have the types of the parameters, and
nothing is indexed. -/
def Expr.agrees (program : Program) : Expr → Bool
  | .index _ _ _ => false
  | .binary _ left right _ => left.type == right.type
  | .call _ _ args _ _ (some k) =>
    (program.functions[k]?).any fun f => args.map Expr.type == f.params.map VarDecl.type
  | _ => true

/-- A value has the type of what it is given to, conditions are integers, and no literal is assigned
or read to. -/
def Stmt.agrees (returns : Ty) : Stmt → Bool
  | .declare d init => init.isMissing || init.type == d.type
  | .assign target value => target.type == value.type && !target.isLiteral
  | .when cond _ | .branch cond _ _ | .loop cond _ => cond.type == .integer
  | .read target => !target.isLiteral
  | .ret value => value.isMissing || value.type == returns
  | _ => true

/-- The types agree in every function. -/
def Program.agrees (program : Program) : Bool :=
  program.functions.all fun f => Stmt.allOf (Expr.agrees program) (Stmt.agrees f.returns) f.body

namespace Emit

variable {p : Program} {c : Context} {path : Path} {e : Expr} {off : Int64} {r : Register}
  {code : Code}

/-! ### Areas -/

/-- Arguments are read from the frame and stored to that of the called function right below. -/
inductive Passing (c : Context) (callee : Scope) : Area
  | load {off : Int64} : Within c.frameBytes 4 off → Passing c callee .lw c.sp off
  | store {off : Int64} : off.toInt ≤ -c.frameBytes →
    -c.frameBytes - bytesOf callee.size + 4 ≤ off.toInt → Passing c callee .sw c.sp off

/-- A result of some bytes is read where it was left and stored to the frame. -/
inductive Fetching (c : Context) (n : ℤ) : Area
  | load {off : Int64} : Within n 4 off → Fetching c n .lw c.result off
  | store {off : Int64} : Within c.frameBytes 4 off → Fetching c n .sw c.sp off

/-- The words that the library takes its parameters from. -/
inductive Lent (c : Context) : Area
  | value : Lent c .sw c.sp c.config.runtime.valueParam
  | buffer : Lent c .sw c.sp c.config.runtime.bufferParam

/-- The loads and stores of a function stay in their areas. -/
inductive Confined (c : Context) : Code → Prop
  | own {code : Code} : Touches (Own c) code → Confined c code
  | call {k : ℕ} {scope : Scope} {callee : MoonBackend.Function} {size : Int64} {n : ℤ}
    {passing fetching : Code} : c.layout.table.functions[k]? = some scope →
    c.layout.table.program.functions[k]? = some callee → size.toInt = c.frameBytes →
    Touches (Passing c scope) passing → Touches (Fetching c n) fetching →
    fetching = [] ∨ c.Takes callee.returns n →
    Confined c (passing ++ jumpCode c size k ++ fetching)
  | library {size : Int64} {code : Code} : size.toInt = c.frameBytes → Touches (Lent c) code →
    Confined c (plain [.imm .addi c.sp c.sp (-size)] ++ code ++ plain [.imm .addi c.sp c.sp size])
  | append {code more : Code} : Confined c code → Confined c more → Confined c (code ++ more)

/-! ### Operators -/

theorem touches_unaryCode {area : Area} (r zero : Register) (op : UnaryOp) :
    Touches area (unaryCode r zero op) := by
  cases op <;> simp +decide [unaryCode]

theorem touches_integerOperation {area : Area} (a b zero : Register) (op : BinaryOp) :
    Touches area (integerOperation a b zero op) := by
  cases op <;> simp +decide [integerOperation]

theorem touches_sumCode {f : FloatRegisters} {l : SumLabels} {slot word : Int64} {zero : Register}
    (h0 : ∀ op, Own c op c.sp slot) (h1 : ∀ op, Own c op c.sp (slot - word)) :
    Touches (Own c) (sumCode f l slot word c.sp zero) := by
  simp +decide [sumCode, orderCode, alignCode, addCode, zeroCode, storeCode, swap, digitsCode,
    digitsLoop, widenCode, trimCode, h0, h1]

theorem own_pair (h : Fitted p c) (hw : Within c.frameBytes 8 off) (op : Opcode) :
    Own c op c.sp off ∧ Own c op c.sp (off - c.word) := by
  have hsecond := (hw.mono (le_refl _) (le_refl (4 * (2 : ℤ)))).word (i := 1) (by decide)
    c.frameBytes_lt
  refine ⟨.frame (hw.mono (le_refl _) (by decide)), .frame ?_⟩
  rw [h.word_eq]
  exact hsecond

theorem temporary_unary (h : Fitted p c) {use : Use} {op : UnaryOp} {operand : Expr} {type : Ty}
    (he : Ready c use path (.unary op operand type)) (hv : type.base ≠ .void)
    (hf : Finds c (temporary path (.unary op operand type)) off) :
    ∃ n, c.Takes type n ∧ Within c.frameBytes n off :=
  h.temporary_within he hv nofun nofun nofun nofun hf

theorem temporary_binary (h : Fitted p c) {use : Use} {op : BinaryOp} {left right : Expr}
    {type : Ty} (he : Ready c use path (.binary op left right type)) (hv : type.base ≠ .void)
    (hf : Finds c (temporary path (.binary op left right type)) off) :
    ∃ n, c.Takes type n ∧ Within c.frameBytes n off :=
  h.temporary_within he hv nofun nofun nofun nofun hf

theorem Unary.touches {use : Use} {op : UnaryOp} {operand : Expr} {type : Ty} {src : Place}
    (hu : Unary c path (.unary op operand type) op operand.type src code) (h : Fitted p c)
    (he : Ready c use path (.unary op operand type))
    (hsrc : Finds c (placeOf (0 :: path) operand) src) : Touches (Own c) code := by
  have htype : type = if op = .not then .integer else operand.type := by
    obtain ⟨-, rfl⟩ := he.completed
    rfl
  cases hu with
  | float ht hop hoff _ hm hx =>
    have hbase : operand.type.base = .float := by
      simp only [Ty.isFloat, Bool.and_eq_true, beq_iff_eq] at ht
      exact ht.1
    rw [if_neg hop] at htype
    subst htype
    have hplace := h.place_float he.operand_of_unary hsrc hbase
    obtain ⟨n, hn, hin⟩ := temporary_unary h he (by rw [hbase]; decide) hoff
    have hpair := own_pair h (hin.mono (le_refl _) (h.takes_float hn hbase))
    simp only [touches_append, hm.touches (i := 0) (n := 2) h hplace (by decide),
      hx.touches (i := 1) (n := 2) h hplace (by decide)]
    split <;> simp +decide [hpair]
  | integer ht hoff _ hv =>
    have hinteger : type.isInteger = true := by
      rw [htype]
      split
      · rfl
      · exact ht
    have hplace := h.place_integer he.operand_of_unary hsrc ht
    obtain ⟨n, hn, hin⟩ := temporary_unary h he
      (h.notVoid_of_takes (h.takes_integer hinteger)) hoff
    obtain rfl := hn.unique (h.takes_integer hinteger)
    simp [hv.touches (i := 0) (n := 1) h hplace (by decide), touches_unaryCode, Own.frame hin]

theorem Binary.touches {use : Use} {op : BinaryOp} {left right : Expr} {type : Ty} {l r : Place}
    (hb : Binary c path (.binary op left right type) op left.type l r code) (h : Fitted p c)
    (he : Ready c use path (.binary op left right type)) (hsame : left.type = right.type)
    (hl : Finds c (placeOf (0 :: path) left) l) (hr : Finds c (placeOf (1 :: path) right) r) :
    Touches (Own c) code := by
  have htype : type = if op.isTruth then .integer else left.type := by
    obtain ⟨-, -, rfl⟩ := he.completed
    rfl
  cases hb with
  | float ht hop hoff _ hlm hle hrm hre =>
    have htruth : op.isTruth = false := by rcases hop with rfl | rfl <;> rfl
    rw [htruth, if_neg (by decide)] at htype
    subst htype
    have hleft := h.place_float he.left_of_binary hl ht
    have hright := h.place_float he.right_of_binary hr (hsame ▸ ht)
    obtain ⟨n, hn, hin⟩ := temporary_binary h he (by rw [ht]; decide) hoff
    have hpair := own_pair h (hin.mono (le_refl _) (h.takes_float hn ht))
    simp only [touches_append, touches_note,
      touches_sumCode (fun op => (hpair op).1) fun op => (hpair op).2, hlm.touches (i := 0) (n := 2) h hleft (by decide),
      hle.touches (i := 1) (n := 2) h hleft (by decide),
      hrm.touches (i := 0) (n := 2) h hright (by decide),
      hre.touches (i := 1) (n := 2) h hright (by decide)]
    split <;> simp +decide
  | integer ht hoff _ _ _ hleft hright =>
    have hinteger : type.isInteger = true := by
      rw [htype]
      split
      · rfl
      · exact ht
    have hl := h.place_integer he.left_of_binary hl ht
    have hr := h.place_integer he.right_of_binary hr (hsame ▸ ht)
    obtain ⟨n, hn, hin⟩ := temporary_binary h he
      (h.notVoid_of_takes (h.takes_integer hinteger)) hoff
    obtain rfl := hn.unique (h.takes_integer hinteger)
    simp [hleft.touches (i := 0) (n := 1) h hl (by decide),
      hright.touches (i := 0) (n := 1) h hr (by decide), touches_integerOperation, Own.frame hin]

/-! ### Moves of values -/

theorem isIndexed_of_agrees {program : Program} :
    ∀ e : Expr, e.all (Expr.agrees program) = true → e.isIndexed = false
  | .index _ _ _ => fun h => by simp [Expr.all, Expr.agrees] at h
  | .dot left _ _ => fun h => by
    rw [Expr.all, Bool.and_eq_true] at h
    exact isIndexed_of_agrees left h.2
  | .missing | .int _ | .float _ | .var _ _ | .call _ _ _ _ _ _ | .unary _ _ _
  | .binary _ _ _ _ => fun _ => rfl

theorem Materializes.touches (hm : Materializes c path e code) (h : Fitted p c)
    (he : Ready c .value path e) (hb : Backed c.scope [Demand.temporary path e])
    (hi : e.isIndexed = false) (hint : ∀ v, e ≠ .int v) : Touches (Own c) code := by
  obtain ⟨hloc, hoff, hn, -, -⟩ := hm
  obtain ⟨n, hn', hdst⟩ := h.slot_within (d := .temporary path e) hb hoff rfl
  have hv := Fitted.notVoid_of_words hn
  obtain ⟨m, high, hm, hregion, hsrc⟩ := hloc.region h he.located hv hint
  rw [hi] at hregion
  have hwords := (h.words_eq hn' hn).1
  obtain rfl := hn'.unique hm
  rw [← hwords] at hdst hsrc
  rw [touches_append]
  refine ⟨hloc.touches h hi, touches_copyCode h (fun i hlt => ?_) fun i hlt => ?_⟩
  · exact hregion.own (hsrc.word hlt hregion.lt)
  · exact .frame (hdst.word hlt c.frameBytes_lt)

/-! ### Calls -/

theorem Confined.nil : Confined c [] := .own (by simp)

theorem touches_adjust {area : Area} : Touches area (adjust r off) := by
  unfold adjust
  split <;> simp +decide

theorem Addresses.touches {l : Location} {area : Area} (ha : Addresses c l code r) :
    Touches area code := by
  cases ha with
  | held => split <;> simp +decide
  | free => simp +decide

theorem SavesReceiver.touches (hs : SavesReceiver c path e code) (h : Fitted p c)
    (hi : e.isIndexed = false)
    (hb : ¬ e.isMissing = true → Backed c.scope [Demand.receiver path e]) :
    Touches (Own c) code := by
  cases hs with
  | none => simp
  | some hmissing hoff hloc haddr =>
    have hin := h.address_within (hb (by rw [hmissing]; decide)) hoff rfl
    simp [hloc.touches h hi, haddr.touches, Own.frame hin]

theorem Places.entry {i : ℕ} {args : List Expr} {places : List Place}
    (hp : Places c path i args places) (h : Fitted p c) (he : AllReady c path i args)
    {params : List Entry} (ht : params.map Entry.type = args.map Expr.type) :
    ∀ x ∈ params.zip places, ∀ n, c.Takes x.1.type n → ∀ off, x.2 = .slot off →
      ∃ y ∈ c.scope.entries, y.getOffset = .ok off ∧ y.kind.isAddress = false ∧ bytesOf y.size = n := by
  induction hp generalizing params with
  | nil => simp
  | cons hf _ ih =>
    cases params with
    | nil => simp
    | cons param params =>
      obtain ⟨hhead, htail⟩ := List.cons.inj ht
      rw [List.zip_cons_cons, List.forall_mem_cons]
      refine ⟨fun n hn off hoff => ?_, ih he.tail htail⟩
      obtain rfl := hoff
      have hn : c.Takes param.type n := hn
      rw [hhead] at hn
      obtain ⟨y, hy, ho, hk, htakes⟩ := h.place_entry he.head (h.notVoid_of_takes hn) hf
      exact ⟨y, hy, ho, hk, htakes.unique hn⟩

theorem Places.has {i : ℕ} {args : List Expr} {places : List Place}
    (hp : Places c path i args places) (h : Fitted p c) (he : AllReady c path i args)
    {params : List Entry} (ht : params.map Entry.type = args.map Expr.type) :
    ∀ x ∈ params.zip places, ∀ n, c.Takes x.1.type n → x.2.Has c n := by
  intro x hx n hn off hoff
  obtain ⟨y, hy, ho, -, rfl⟩ := hp.entry h he ht x hx n hn off hoff
  exact (h.entry_within h.scope hy ho).1

/-- Two frames, one below the other, can be counted. -/
def Context.Stacks (c : Context) : Prop :=
  ∀ s ∈ c.layout.table.functions, c.frameBytes + bytesOf s.size < 2 ^ 63

theorem passing_store (h : Fitted p c) (hstacks : c.Stacks) {k : ℕ} {scope : Scope}
    (hscope : c.layout.table.functions[k]? = some scope) {size : Int64}
    (hsize : size.toInt = c.frameBytes) {n : ℤ} (hin : Within (bytesOf scope.size) (4 * n) off)
    {i : ℕ} (hi : (i : ℤ) < n) :
    Passing c scope .sw c.sp (off - size - Int64.ofNat i * 4) := by
  have hlt := hstacks scope (List.mem_of_getElem? hscope)
  have hnn := h.frameBytes_nonneg
  obtain ⟨h0, hlow⟩ := hin
  have hsub : (off - size).toInt = off.toInt - size.toInt := toInt_sub_of_le (by omega) (by omega)
  have hw : Within (c.frameBytes + bytesOf scope.size) (4 * n) (off - size) :=
    ⟨by omega, by omega⟩
  have hbelow := toInt_below hw hi hlt
  exact .store (by omega) (by omega)

theorem PassesArguments.touches {size : Int64} {args : List (Entry × Place)}
    (hp : PassesArguments c size args code) (h : Fitted p c) (hstacks : c.Stacks) {k : ℕ}
    {scope : Scope} (hscope : c.layout.table.functions[k]? = some scope)
    (hsize : size.toInt = c.frameBytes)
    (hargs : ∀ x ∈ args, x.1 ∈ scope.params ∧ ∀ n, c.Takes x.1.type n → x.2.Has c n) :
    Touches (Passing c scope) code := by
  induction hp with
  | nil => simp
  | @cons param arg off n r code more rest hoff hn hr hstore _ ih =>
    rw [List.forall_mem_cons] at hargs
    obtain ⟨⟨hparam, harg⟩, hrest⟩ := hargs
    obtain ⟨hmem, hkind⟩ := List.mem_filter.1 hparam
    have hkind : param.kind = .parameter := by simpa using hkind
    obtain ⟨hin, -⟩ := h.entry_within hscope hmem hoff
    have htakes := h.takes_of_mem hscope hmem (by rw [hkind]; rfl)
    have hwords := (h.words_eq htakes hn).1
    have hplace := harg _ htakes
    rw [← hwords] at hin hplace
    rw [touches_append]
    refine ⟨hstore.touches h hplace (fun _ hw => .load hw) fun i hi => ?_, ih hrest⟩
    exact passing_store h hstacks hscope hsize hin hi

section

variable {recv : Expr} {name : String} {args : List Expr} {isNew : Bool} {type : Ty} {k : ℕ}
  {callee : MoonBackend.Function} {use : Use} {scope : Scope}

theorem PassesReceiver.touches {area : Area}
    (hp : PassesReceiver c path e recv isNew callee.toSignature r code)
    (hload : ∀ off, Within c.frameBytes 4 off → area .lw c.sp off) (h : Fitted p c)
    (hrecv : ¬ recv.isMissing = true →
      Backed c.scope [Demand.receiver (0 :: path) recv]) :
    Touches area code := by
  cases hp with
  | new => simp +decide
  | on _ hmissing hoff =>
    have hin := h.address_within (hrecv (by rw [hmissing]; decide)) hoff rfl
    simp [hload _ hin, touches_adjust]
  | own _ _ hm hoff => simp [hload _ (h.self_within hm hoff), touches_adjust]

theorem kind_of_requireSlot {s : Scope} {node : Backing} {kind : EntryKind} {x : Entry}
    (hreq : s.requireSlot node kind = .ok x) : x.kind = kind := by
  unfold Scope.requireSlot at hreq
  split at hreq
  · rename_i y hy
    cases hreq
    have hbacks := List.find?_some hy
    simp only [Scope.backs, Bool.and_eq_true, beq_iff_eq] at hbacks
    exact hbacks.1.2
  · cases hreq

theorem PlacesReceiver.touches {size : Int64}
    (hp : PlacesReceiver c path e recv isNew k callee.toSignature scope size code) (h : Fitted p c)
    (hstacks : c.Stacks) (hscope : c.layout.table.functions[k]? = some scope)
    (hsize : size.toInt = c.frameBytes)
    (hrecv : ¬ recv.isMissing = true → Backed c.scope [Demand.receiver (0 :: path) recv]) :
    Touches (Passing c scope) code := by
  cases hp with
  | free => simp
  | @member slot off r code hm hreq hoff hr hpass =>
    have hmem := Fitted.mem_of_requireSlot hreq
    obtain ⟨hin, -⟩ := h.entry_within hscope hmem hoff
    rw [h.address_bytes hscope hmem (by rw [kind_of_requireSlot hreq]; rfl)] at hin
    have hstore := passing_store h hstacks hscope hsize (n := 1) (i := 0) hin (by decide)
    rw [touches_append]
    refine ⟨hpass.touches (fun _ hw => .load hw) h hrecv, ?_⟩
    simpa using hstore

theorem FetchesResult.touches
    (hf : FetchesResult c path (.call recv name args isNew type (Option.some k)) isNew
      callee.toSignature code) (h : Fitted p c)
    (he : Ready c use path (.call recv name args isNew type (Option.some k)))
    (hk : c.layout.table.program.functions[k]? = Option.some callee) :
    ∃ n, Touches (Fetching c n) code ∧ (code = [] ∨ c.Takes callee.returns n) := by
  cases hf with
  | none => exact ⟨0, by simp, .inl rfl⟩
  | some hnew hvoid hoff hn hr =>
    subst hnew
    obtain ⟨-, -, k', f, heq, hf, -, -, htype⟩ := he.completed
    cases heq
    rw [Table.signature?, hk] at hf
    cases hf
    obtain rfl : type = callee.returns := htype
    obtain ⟨n, hn', hin⟩ := h.slot_within (he.slot_of_call (.inr hvoid)) hoff rfl
    have hwords := (h.words_eq hn' hn).1
    have hlt := hn'.lt
    refine ⟨n, touches_copyCode h (fun i hi => ?_) fun i hi => ?_, .inr hn'⟩
    · have hzero : Within n (4 * (_ : Int64).toInt) 0 := ⟨by decide, by rw [hwords]; simp⟩
      exact .load (hzero.word hi hlt)
    · exact .store ((hin.mono (le_refl _) (le_of_eq hwords)).word hi c.frameBytes_lt)

theorem Calls.confined {places : List Place}
    (hc : Calls c path (.call recv name args isNew type (some k)) recv isNew k places code)
    (h : Fitted p c) (hstacks : c.Stacks)
    (he : Ready c use path (.call recv name args isNew type (some k)))
    (hq : (Expr.call recv name args isNew type (some k)).all
      (Expr.agrees c.layout.table.program) = true) (hp : Places c path 1 args places) :
    Confined c code := by
  obtain @⟨scope, callee, size, saved, passed, receiver, result, hscope, hk, hsize, hlen, hsaved,
    hpassed, hreceiver, hresult⟩ := hc
  have hsize := Fitted.frameSize_eq hsize
  rw [Expr.all, Bool.and_eq_true, Bool.and_eq_true, Expr.agrees, hk] at hq
  obtain ⟨⟨htypes, hrecv⟩, -⟩ := hq
  have hparams : scope.params.map Entry.type = args.map Expr.type := by
    rw [show args.map Expr.type = _ from eq_of_beq htypes]
    have hout := congrArg (List.map fun o => o.2.2) (h.framedAt hscope hk).params
    simpa [Entry.outline, Function.comp_def] using hout
  have hargs : ∀ x ∈ scope.params.zip places,
      x.1 ∈ scope.params ∧ ∀ n, c.Takes x.1.type n → x.2.Has c n := fun x hx =>
    ⟨(List.of_mem_zip hx).1, hp.has h he.args_of_call hparams x hx⟩
  obtain ⟨n, hfetching, hn⟩ := hresult.touches h he hk
  have hsaves := hsaved.touches h (isIndexed_of_agrees recv hrecv) he.reference_of_call
  have hpasses := hpassed.touches h hstacks hscope hsize hargs
  have hreceives := hreceiver.touches h hstacks hscope hsize he.reference_of_call
  have hbefore : Confined c (c.note ("call " ++ (Expr.call recv name args isNew type
      (some k)).text) ++ saved) := .own (by simp [hsaves])
  have hcall : Confined c ((passed ++ receiver) ++ jumpCode c size k ++ result) :=
    .call hscope hk hsize (touches_append.2 ⟨hpasses, hreceives⟩) hfetching hn
  simpa only [List.append_assoc] using hbefore.append hcall

end

end Emit

end MoonBackend
