import MoonBackend.Proofs.Emit.Program
import MoonBackend.Proofs.Emit.Standing

/-!
# Bodies that layout prepared

Layout walks over a body to give every value a slot, emission walks over it to ask for these slots.
An expression is prepared for a use when its types are complete and the frame has the slots that
layout found it to need for this use; what emission then asks for is there.
-/

namespace MoonBackend

/-! ### Calls without a value -/

mutual

/-- Every call whose value is used has one. The value of the expression itself is not used if it
stands `alone`. -/
def Expr.isValued (alone : Bool) : Expr → Bool
  | .missing | .int _ | .float _ | .var _ _ => true
  | .dot left _ _ => left.isValued false
  | .index base indices _ => base.isValued false && Expr.areValued indices
  | .call recv _ args _ type _ =>
    recv.isValued false && Expr.areValued args && (alone || type.base != .void)
  | .unary _ operand _ => operand.isValued false
  | .binary _ left right _ => left.isValued false && right.isValued false

def Expr.areValued : List Expr → Bool
  | [] => true
  | e :: es => e.isValued false && Expr.areValued es

end

mutual

/-- A call without a value only stands as a statement. -/
def Stmt.isValued : Stmt → Bool
  | .declare _ e | .write e | .read e | .ret e => e.isValued false
  | .call e => e.isValued true
  | .assign target value => target.isValued false && value.isValued false
  | .when cond body | .loop cond body => cond.isValued false && Stmt.areValued body
  | .branch cond yes no => cond.isValued false && Stmt.areValued yes && Stmt.areValued no

def Stmt.areValued : List Stmt → Bool
  | [] => true
  | st :: sts => st.isValued && Stmt.areValued sts

end

def Program.isValued (p : Program) : Bool := p.functions.all fun f => Stmt.areValued f.body

theorem Expr.isValued_alone {e : Expr} (h : e.isValued false = true) : e.isValued true = true := by
  cases e with
  | call recv name args isNew type target =>
    rw [Expr.isValued, Bool.and_eq_true] at h ⊢
    exact ⟨h.1, rfl⟩
  | _ => exact h

namespace Emit

open Layout

variable {c : Context}

/-! ### What layout prepared -/

def Context.isMember (c : Context) (name : String) : Bool :=
  (c.layout.table.resolveName c.index name).any Prod.snd

/-- The slots that an expression needs are in the frame, and its types are there. -/
structure Ready (c : Context) (use : Use) (path : Path) (e : Expr) : Prop where
  completed : e.Completed c.layout.table c.index
  slots : Backed c.scope (Demand.ofExpr c.isMember use path e)

structure AllReady (c : Context) (path : Path) (i : ℕ) (es : List Expr) : Prop where
  completed : Expr.AllCompleted c.layout.table c.index es
  slots : Backed c.scope (Demand.ofExprs c.isMember path i es)

structure StmtReady (c : Context) (path : Path) (st : Stmt) : Prop where
  completed : st.Completed c.layout.table c.index
  slots : Backed c.scope (Demand.ofStmt c.isMember path st)

structure StmtsReady (c : Context) (path : Path) (i : ℕ) (sts : List Stmt) : Prop where
  completed : Stmt.AllCompleted c.layout.table c.index sts
  slots : Backed c.scope (Demand.ofStmts c.isMember path i sts)

/-- The expression is ready, and it is valued. -/
structure Prepared (c : Context) (alone : Bool) (use : Use) (path : Path) (e : Expr) : Prop
    extends Ready c use path e where
  valued : e.isValued alone = true

structure AllPrepared (c : Context) (path : Path) (i : ℕ) (es : List Expr) : Prop
    extends AllReady c path i es where
  valued : Expr.areValued es = true

structure StmtPrepared (c : Context) (path : Path) (st : Stmt) : Prop
    extends StmtReady c path st where
  valued : st.isValued = true

structure StmtsPrepared (c : Context) (path : Path) (i : ℕ) (sts : List Stmt) : Prop
    extends StmtsReady c path i sts where
  valued : Stmt.areValued sts = true

namespace Ready

variable {use : Use} {path : Path}

theorem located {e : Expr} (h : Ready c .value path e) : Ready c .location path e := by
  refine ⟨h.completed, ?_⟩
  have hs := h.slots
  cases e with
  | var name type =>
    rw [Demand.ofExpr]
    split
    · exact fun d hd => nomatch hd
    · exact fun d hd => nomatch hd
  | dot left member type =>
    rw [Demand.ofExpr, backed_append] at hs ⊢
    exact ⟨hs.1, fun d hd => nomatch hd⟩
  | index base indices type =>
    rw [Demand.ofExpr, backed_append] at hs ⊢
    exact ⟨hs.1, fun d hd => nomatch hd⟩
  | _ => exact hs

theorem left_of_dot {left : Expr} {member : String} {type : Ty}
    (h : Ready c use path (.dot left member type)) : Ready c .location (0 :: path) left := by
  have hs := h.slots
  have hc := h.completed
  rw [Demand.ofExpr, backed_append] at hs
  exact ⟨hc.1, hs.1⟩

theorem base_of_index {base : Expr} {indices : List Expr} {type : Ty}
    (h : Ready c use path (.index base indices type)) : Ready c .location (0 :: path) base := by
  have hs := h.slots
  have hc := h.completed
  rw [Demand.ofExpr, backed_append, backed_append] at hs
  exact ⟨hc.1, hs.1.1⟩

theorem indices_of_index {base : Expr} {indices : List Expr} {type : Ty}
    (h : Ready c use path (.index base indices type)) : AllReady c path 1 indices := by
  have hs := h.slots
  have hc := h.completed
  rw [Demand.ofExpr, backed_append, backed_append] at hs
  exact ⟨hc.2.1, hs.1.2⟩

theorem operand_of_unary {op : UnaryOp} {operand : Expr} {type : Ty}
    (h : Ready c use path (.unary op operand type)) : Ready c .value (0 :: path) operand := by
  have hs := h.slots
  have hc := h.completed
  rw [Demand.ofExpr, backed_append] at hs
  exact ⟨hc.1, hs.1⟩

theorem left_of_binary {op : BinaryOp} {left right : Expr} {type : Ty}
    (h : Ready c use path (.binary op left right type)) : Ready c .value (0 :: path) left := by
  have hs := h.slots
  have hc := h.completed
  rw [Demand.ofExpr, backed_append, backed_append] at hs
  exact ⟨hc.1, hs.1.1⟩

theorem right_of_binary {op : BinaryOp} {left right : Expr} {type : Ty}
    (h : Ready c use path (.binary op left right type)) : Ready c .value (1 :: path) right := by
  have hs := h.slots
  have hc := h.completed
  rw [Demand.ofExpr, backed_append, backed_append] at hs
  exact ⟨hc.2.1, hs.1.2⟩

section

variable {recv : Expr} {name : String} {args : List Expr} {isNew : Bool} {type : Ty}
  {target : Option ℕ}

theorem receiver_of_call (h : Ready c use path (.call recv name args isNew type target))
    (hr : ¬ recv.isMissing = true) : Ready c .location (0 :: path) recv := by
  have hs := h.slots
  have hc := h.completed
  rw [Demand.ofExpr, backed_append, backed_append, backed_append] at hs
  exact ⟨hc.1.resolve_left hr, hs.1.1.1⟩

theorem reference_of_call (h : Ready c use path (.call recv name args isNew type target))
    (hr : ¬ recv.isMissing = true) : Backed c.scope [Demand.receiver (0 :: path) recv] := by
  have hs := h.slots
  rw [Demand.ofExpr, backed_append, backed_append, backed_append, if_neg hr] at hs
  exact hs.1.1.2

theorem args_of_call (h : Ready c use path (.call recv name args isNew type target)) :
    AllReady c path 1 args := by
  have hs := h.slots
  have hc := h.completed
  rw [Demand.ofExpr, backed_append, backed_append, backed_append] at hs
  exact ⟨hc.2.1, hs.1.2⟩

theorem slot_of_call (h : Ready c use path (.call recv name args isNew type target))
    (ht : isNew = true ∨ type.base ≠ .void) :
    Backed c.scope [Demand.temporary path (.call recv name args isNew type target)] := by
  have hs := h.slots
  have hif : (isNew || type.base != .void) = true := by simpa using ht
  rw [Demand.ofExpr, backed_append, if_pos hif] at hs
  exact hs.2

end

end Ready

theorem AllReady.head {path : Path} {i : ℕ} {e : Expr} {es : List Expr}
    (h : AllReady c path i (e :: es)) : Ready c .value (i :: path) e := by
  have hs := h.slots
  rw [Demand.ofExprs, backed_append] at hs
  exact ⟨h.completed.1, hs.1⟩

theorem AllReady.tail {path : Path} {i : ℕ} {e : Expr} {es : List Expr}
    (h : AllReady c path i (e :: es)) : AllReady c path (i + 1) es := by
  have hs := h.slots
  rw [Demand.ofExprs, backed_append] at hs
  exact ⟨h.completed.2, hs.2⟩

namespace Prepared

variable {alone : Bool} {use : Use} {path : Path}

theorem stand {e : Expr} (h : Prepared c false use path e) : Prepared c true use path e :=
  ⟨h.toReady, Expr.isValued_alone h.valued⟩

theorem located {e : Expr} (h : Prepared c alone .value path e) :
    Prepared c alone .location path e :=
  ⟨h.toReady.located, h.valued⟩

theorem left_of_dot {left : Expr} {member : String} {type : Ty}
    (h : Prepared c alone use path (.dot left member type)) :
    Prepared c false .location (0 :: path) left :=
  ⟨h.toReady.left_of_dot, h.valued⟩

theorem base_of_index {base : Expr} {indices : List Expr} {type : Ty}
    (h : Prepared c alone use path (.index base indices type)) :
    Prepared c false .location (0 :: path) base := by
  have hv := h.valued
  rw [Expr.isValued, Bool.and_eq_true] at hv
  exact ⟨h.toReady.base_of_index, hv.1⟩

theorem indices_of_index {base : Expr} {indices : List Expr} {type : Ty}
    (h : Prepared c alone use path (.index base indices type)) : AllPrepared c path 1 indices := by
  have hv := h.valued
  rw [Expr.isValued, Bool.and_eq_true] at hv
  exact ⟨h.toReady.indices_of_index, hv.2⟩

theorem operand_of_unary {op : UnaryOp} {operand : Expr} {type : Ty}
    (h : Prepared c alone use path (.unary op operand type)) :
    Prepared c false .value (0 :: path) operand :=
  ⟨h.toReady.operand_of_unary, h.valued⟩

theorem left_of_binary {op : BinaryOp} {left right : Expr} {type : Ty}
    (h : Prepared c alone use path (.binary op left right type)) :
    Prepared c false .value (0 :: path) left := by
  have hv := h.valued
  rw [Expr.isValued, Bool.and_eq_true] at hv
  exact ⟨h.toReady.left_of_binary, hv.1⟩

theorem right_of_binary {op : BinaryOp} {left right : Expr} {type : Ty}
    (h : Prepared c alone use path (.binary op left right type)) :
    Prepared c false .value (1 :: path) right := by
  have hv := h.valued
  rw [Expr.isValued, Bool.and_eq_true] at hv
  exact ⟨h.toReady.right_of_binary, hv.2⟩

section

variable {recv : Expr} {name : String} {args : List Expr} {isNew : Bool} {type : Ty}
  {target : Option ℕ}

theorem receiver_of_call (h : Prepared c alone use path (.call recv name args isNew type target))
    (hr : ¬ recv.isMissing = true) : Prepared c false .location (0 :: path) recv := by
  have hv := h.valued
  rw [Expr.isValued, Bool.and_eq_true, Bool.and_eq_true] at hv
  exact ⟨h.toReady.receiver_of_call hr, hv.1.1⟩

theorem args_of_call (h : Prepared c alone use path (.call recv name args isNew type target)) :
    AllPrepared c path 1 args := by
  have hv := h.valued
  rw [Expr.isValued, Bool.and_eq_true, Bool.and_eq_true] at hv
  exact ⟨h.toReady.args_of_call, hv.1.2⟩

end

end Prepared

theorem AllPrepared.head {path : Path} {i : ℕ} {e : Expr} {es : List Expr}
    (h : AllPrepared c path i (e :: es)) : Prepared c false .value (i :: path) e := by
  have hv := h.valued
  rw [Expr.areValued, Bool.and_eq_true] at hv
  exact ⟨h.toAllReady.head, hv.1⟩

theorem AllPrepared.tail {path : Path} {i : ℕ} {e : Expr} {es : List Expr}
    (h : AllPrepared c path i (e :: es)) : AllPrepared c path (i + 1) es := by
  have hv := h.valued
  rw [Expr.areValued, Bool.and_eq_true] at hv
  exact ⟨h.toAllReady.tail, hv.2⟩

theorem AllPrepared.getElem {path : Path} {i j : ℕ} {e : Expr} {es : List Expr}
    (h : AllPrepared c path i es) (he : es[j]? = some e) :
    Prepared c false .value ((i + j) :: path) e := by
  induction es generalizing i j with
  | nil => cases he
  | cons e' es ih =>
    cases j with
    | zero =>
      cases he
      exact h.head
    | succ j =>
      have := ih h.tail he
      rwa [Nat.add_assoc, Nat.add_comm 1] at this

/-! ### Asking for what is there -/

namespace Standing

variable {p : Program} (h : Standing p c)

theorem sizable_scalar {base : Base} (hv : base ≠ .void) (ho : ∀ name, base ≠ .object name) :
    Ty.Sizable p ⟨base, []⟩ :=
  ⟨hv, fun _ hd => (List.not_mem_nil hd).elim, fun name hn => (ho name hn).elim⟩

theorem scale_ok (type : Ty) {dims : List Int64} (hd : ∀ d ∈ dims, 0 < d) (n : Int64) :
    ∃ m, type.scale dims n = .ok m := by
  induction dims generalizing n with
  | nil => exact ⟨n, rfl⟩
  | cons d ds ih =>
    rw [Ty.scale, if_pos (hd d List.mem_cons_self)]
    exact ih (fun d' hd' => hd d' (List.mem_cons_of_mem _ hd')) (n * d)

include h

theorem sizable_type {use : Use} {path : Path} : ∀ {e : Expr}, Ready c use path e →
    e.isValued false = true ∨ e.type.base ≠ .void → e.type.Sizable p
  | .missing, he, _ => he.completed.elim
  | .int _, _, _ => sizable_scalar nofun nofun
  | .float _, _, _ => sizable_scalar nofun nofun
  | .var name type, he, _ => by
    obtain ⟨found, hfound, rfl⟩ := Option.map_eq_some_iff.1 he.completed
    exact h.sizable_of_resolveName hfound
  | .dot left member type, he, _ => by
    obtain ⟨-, className, -, hm⟩ := he.completed
    obtain ⟨l, hl, rfl⟩ := Option.map_eq_some_iff.1 hm
    exact h.sizable_of_member? hl
  | .index base indices type, he, hv => by
    obtain ⟨-, -, -, -, rfl⟩ := he.completed
    refine sizable_drop (sizable_type he.base_of_index (hv.imp_left fun hv => ?_)) _
    rw [Expr.isValued, Bool.and_eq_true] at hv
    exact hv.1
  | .unary op operand type, he, hv => by
    obtain ⟨-, rfl⟩ := he.completed
    simp only [Expr.type] at hv ⊢
    split
    · exact sizable_scalar nofun nofun
    · rename_i hop
      rw [if_neg hop] at hv
      exact sizable_type he.operand_of_unary (hv.imp_left id)
  | .binary op left right type, he, hv => by
    obtain ⟨-, -, rfl⟩ := he.completed
    simp only [Expr.type] at hv ⊢
    split
    · exact sizable_scalar nofun nofun
    · rename_i hop
      rw [if_neg hop, Expr.isValued, Bool.and_eq_true] at hv
      exact sizable_type he.left_of_binary (hv.imp_left And.left)
  | .call recv name args isNew type target, he, hv => by
    have hvoid : type.base ≠ .void := by
      rcases hv with hv | hv
      · rw [Expr.isValued, Bool.and_eq_true, Bool.false_or, bne_iff_ne] at hv
        exact hv.2
      · exact hv
    exact h.sizable_of_backed (he.slot_of_call (.inr hvoid)) rfl

theorem place {path : Path} {e : Expr} (he : Prepared c false .value path e) :
    ∃ place, ∀ s, eval (placeOf path e) c s = (.ok place, s) := by
  have htemp : ∀ {e}, Backed c.scope [Demand.temporary path e] →
      ∃ place, ∀ s, eval (do return Place.slot (← temporary path e)) c s = (.ok place, s) := by
    intro e hb
    obtain ⟨_, _, o, _, _, _, _, _, ho⟩ := h.slot hb
    exact ⟨.slot o, fun s => eval_bind_ok (ho s)⟩
  have hs := he.slots
  cases e with
  | missing => exact he.completed.elim
  | int v => exact ⟨.immediate v, fun _ => rfl⟩
  | float text => exact htemp hs
  | var name type =>
    obtain ⟨⟨l, member⟩, hfound, -⟩ := Option.map_eq_some_iff.1 he.completed
    cases member with
    | false =>
      obtain ⟨o, -, ho⟩ := h.offset h.scope (h.local_of_resolveName hfound).1
      refine ⟨.slot o, fun s => ?_⟩
      rw [placeOf, eval_bind_ok (eval_resolve name c s), hfound]
      exact eval_bind_ok (by rw [eval_lift, ho])
    | true =>
      rw [Demand.ofExpr, if_pos (by rw [Context.isMember, hfound]; rfl)] at hs
      obtain ⟨place, hp⟩ := htemp hs
      refine ⟨place, fun s => ?_⟩
      rw [placeOf, eval_bind_ok (eval_resolve name c s), hfound]
      exact hp s
  | dot left member type =>
    rw [Demand.ofExpr, backed_append] at hs
    exact htemp hs.2
  | index base indices type =>
    rw [Demand.ofExpr, backed_append] at hs
    exact htemp hs.2
  | unary op operand type =>
    rw [Demand.ofExpr, backed_append] at hs
    exact htemp hs.2
  | binary op left right type =>
    rw [Demand.ofExpr, backed_append] at hs
    exact htemp hs.2
  | call recv name args isNew type target =>
    have hv := he.valued
    rw [Expr.isValued, Bool.and_eq_true, Bool.false_or, bne_iff_ne] at hv
    exact htemp (he.toReady.slot_of_call (.inr hv.2))

theorem checked {path : Path} {e : Expr} (he : Prepared c false .location path e) :
    ∀ s, eval (checkOperand path e) c s = (.ok (), s) := by
  have hplace : ∀ {e}, Prepared c false .value path e →
      ∀ s, eval (do let _ ← placeOf path e) c s = (.ok (), s) := fun he s => by
    obtain ⟨place, hp⟩ := h.place he
    exact eval_bind_ok (hp s)
  cases e with
  | missing => exact he.completed.elim
  | var name type => exact fun _ => rfl
  | dot left member type => exact fun _ => rfl
  | index base indices type => exact fun _ => rfl
  | _ => exact hplace ⟨⟨he.completed, he.slots⟩, he.valued⟩

theorem size {type : Ty} (hs : type.Sizable p) : ∃ n, c.layout.sizeOf type = .ok n := by
  show ∃ n, c.layout.table.sizeOf c.layout.sizes type = .ok n
  unfold Table.sizeOf
  have helement := @elementSize_ok _ c.layout.sizes _ h.laid.declares _ hs
  rcases helement with ⟨n, hn⟩ | ⟨hn, -⟩
  · obtain ⟨m, hm⟩ := scale_ok type hs.dims n
    exact ⟨sizeOfWord m, except_bind_eq_ok.2 ⟨_, hn, except_bind_eq_ok.2 ⟨m, hm, rfl⟩⟩⟩
  · exact ⟨none, except_bind_eq_ok.2 ⟨_, hn, rfl⟩⟩

theorem eval_temporary {path : Path} {e : Expr} (hb : Backed c.scope [Demand.temporary path e]) :
    ∃ o, ∀ s, eval (temporary path e) c s = (.ok o, s) := by
  obtain ⟨_, _, o, _, _, _, _, _, ho⟩ := h.slot hb
  exact ⟨o, ho⟩

theorem eval_toMember {className member : String} {found : Located}
    (hm : c.layout.table.member? className member = some found) (l : Location) :
    ∃ off, ∀ s, eval (toMember l className member) c s = (.ok { l with off := off }, s) := by
  obtain ⟨off, hoff⟩ := h.memberOffset hm
  refine ⟨l.off + off, fun s => ?_⟩
  unfold toMember
  rw [eval_bind_ok (eval_read c s), hoff]
  rfl

end Standing

/-- The body of a function is ready when its layout is resolved. -/
theorem ready_of_resolve {p : Program} {t : Table} {config : Config} {l : Layout}
    (hb : Table.build p = .ok t) (hbare : p.isBare = true) (hc : config.validate = .ok ())
    (hr : (ofTable t config).resolve = (.ok (), l)) {i : ℕ} {scope : Scope} {f : MoonBackend.Function}
    (hs : l.table.functions[i]? = some scope) (hf : l.table.program.functions[i]? = some f)
    (tags : List String) (exit : String) :
    StmtsReady (contextAt config l tags i f scope exit) [] 0 f.body := by
  have hstand := standing_of_resolve hb hc hr hs hf tags exit
  obtain ⟨hlater, -, -, -⟩ := of_resolve (Table.fresh_of_build hb) hr
  exact ⟨Table.completed_of_later hb hbare hlater hf,
    (backed_append.1 (hstand.framedAt hs hf).slots).2⟩

theorem prepared_of_resolve {p : Program} {t : Table} {config : Config} {l : Layout}
    (hb : Table.build p = .ok t) (hbare : p.isBare = true)
    (hvalued : t.program.isValued = true) (hc : config.validate = .ok ())
    (hr : (ofTable t config).resolve = (.ok (), l)) {i : ℕ} {scope : Scope} {f : MoonBackend.Function}
    (hs : l.table.functions[i]? = some scope) (hf : l.table.program.functions[i]? = some f)
    (tags : List String) (exit : String) :
    StmtsPrepared (contextAt config l tags i f scope exit) [] 0 f.body := by
  obtain ⟨hlater, -, -, -⟩ := of_resolve (Table.fresh_of_build hb) hr
  have hprogram : l.table.program = t.program := hlater.program
  refine ⟨ready_of_resolve hb hbare hc hr hs hf tags exit, ?_⟩
  rw [hprogram] at hf
  exact List.all_eq_true.1 hvalued f (List.mem_of_getElem? hf)

end Emit

end MoonBackend
