import MoonBackend.Proofs.Emit.Prepared
import MoonBackend.Proofs.Emit.Routines

/-!
# Code put together from pieces

The code of a body is put together from pieces, each of which is the answer of one step for one part
of the body. A piece comes with what layout prepared for its part; a fact about emitted code that is
kept when code is put together need only be shown of the pieces.
-/

namespace MoonBackend

/-! ### Parts of a body -/

mutual

def Expr.all (q : Expr → Bool) : Expr → Bool
  | .missing => true
  | .int v => q (.int v)
  | .float text => q (.float text)
  | .var name type => q (.var name type)
  | .dot left member type => q (.dot left member type) && left.all q
  | .index base indices type => q (.index base indices type) && base.all q && Expr.allOf q indices
  | .call recv name args isNew type target =>
    q (.call recv name args isNew type target) && recv.all q && Expr.allOf q args
  | .unary op operand type => q (.unary op operand type) && operand.all q
  | .binary op left right type => q (.binary op left right type) && left.all q && right.all q

def Expr.allOf (q : Expr → Bool) : List Expr → Bool
  | [] => true
  | e :: es => e.all q && Expr.allOf q es

end

mutual

/-- All expressions of the statement pass, and so do it and all statements in it. -/
def Stmt.all (q : Expr → Bool) (r : Stmt → Bool) : Stmt → Bool
  | .declare d init => r (.declare d init) && init.all q
  | .assign target value => r (.assign target value) && target.all q && value.all q
  | .when cond body => r (.when cond body) && cond.all q && Stmt.allOf q r body
  | .branch cond yes no =>
    r (.branch cond yes no) && cond.all q && Stmt.allOf q r yes && Stmt.allOf q r no
  | .loop cond body => r (.loop cond body) && cond.all q && Stmt.allOf q r body
  | .write e => r (.write e) && e.all q
  | .read target => r (.read target) && target.all q
  | .ret result => r (.ret result) && result.all q
  | .call e => r (.call e) && e.all q

def Stmt.allOf (q : Expr → Bool) (r : Stmt → Bool) : List Stmt → Bool
  | [] => true
  | st :: sts => st.all q r && Stmt.allOf q r sts

end

mutual

theorem Expr.all_true : ∀ e : Expr, e.all (fun _ => true) = true
  | .missing | .int _ | .float _ | .var _ _ => rfl
  | .dot left _ _ => by simp [Expr.all, left.all_true]
  | .index base indices _ => by simp [Expr.all, base.all_true, Expr.allOf_true indices]
  | .call recv _ args _ _ _ => by simp [Expr.all, recv.all_true, Expr.allOf_true args]
  | .unary _ operand _ => by simp [Expr.all, operand.all_true]
  | .binary _ left right _ => by simp [Expr.all, left.all_true, right.all_true]

theorem Expr.allOf_true : ∀ es : List Expr, Expr.allOf (fun _ => true) es = true
  | [] => rfl
  | e :: es => by simp [Expr.allOf, e.all_true, Expr.allOf_true es]

end

mutual

theorem Stmt.all_true : ∀ st : Stmt, st.all (fun _ => true) (fun _ => true) = true
  | .declare _ e | .write e | .read e | .ret e | .call e => by simp [Stmt.all, e.all_true]
  | .assign target value => by simp [Stmt.all, target.all_true, value.all_true]
  | .when cond body | .loop cond body => by simp [Stmt.all, cond.all_true, Stmt.allOf_true body]
  | .branch cond yes no => by
    simp [Stmt.all, cond.all_true, Stmt.allOf_true yes, Stmt.allOf_true no]

theorem Stmt.allOf_true : ∀ sts : List Stmt, Stmt.allOf (fun _ => true) (fun _ => true) sts = true
  | [] => rfl
  | st :: sts => by simp [Stmt.allOf, st.all_true, Stmt.allOf_true sts]

end

def Stmt.condition? : Stmt → Option Expr
  | .when cond _ | .branch cond _ _ | .loop cond _ => some cond
  | _ => none

namespace Emit

open Code

/-! ### Pieces -/

inductive Places (c : Context) : Path → ℕ → List Expr → List Place → Prop
  | nil {path : Path} {i : ℕ} : Places c path i [] []
  | cons {path : Path} {i : ℕ} {e : Expr} {es : List Expr} {p : Place} {ps : List Place} :
    Finds c (placeOf (i :: path) e) p → Places c path (i + 1) es ps →
    Places c path i (e :: es) (p :: ps)

/-- The code that one step answers for a part of a body in which all expressions pass `q` and all
statements pass `t`. -/
inductive Piece (c : Context) (q : Expr → Bool) (t : Stmt → Bool) : Code → Prop
  | note (text : String) : Piece c q t (c.note text)
  | mark (label : String) : Piece c q t [mark label]
  | jump (label : String) : Piece c q t (plain [.j label])
  | literal {use : Use} {path : Path} {text : String} {m x off : Int64} {r : Register}
    {mantissa exponent : Code} : Ready c use path (.float text) →
    Finds c (temporary path (.float text)) off → r ∈ c.general → Constant c r m mantissa →
    Constant c r x exponent →
    Piece c q t (mantissa ++ plain [.sw off c.sp r] ++ exponent ++ plain [.sw (off - c.word) c.sp r])
  | copy {path : Path} {e : Expr} {code : Code} : Ready c .value path e →
    Backed c.scope [Demand.temporary path e] → (∀ v, e ≠ .int v) → e.all q = true →
    Materializes c path e code → Piece c q t code
  | unary {use : Use} {path : Path} {op : UnaryOp} {operand : Expr} {type : Ty} {src : Place}
    {code : Code} : Ready c use path (.unary op operand type) →
    Finds c (placeOf (0 :: path) operand) src →
    Unary c path (.unary op operand type) op operand.type src code → Piece c q t code
  | binary {use : Use} {path : Path} {op : BinaryOp} {left right : Expr} {type : Ty} {l r : Place}
    {code : Code} : Ready c use path (.binary op left right type) →
    q (.binary op left right type) = true → Finds c (placeOf (0 :: path) left) l →
    Finds c (placeOf (1 :: path) right) r →
    Binary c path (.binary op left right type) op left.type l r code → Piece c q t code
  | call {use : Use} {path : Path} {recv : Expr} {name : String} {args : List Expr} {isNew : Bool}
    {type : Ty} {target : ℕ} {places : List Place} {code : Code} :
    Ready c use path (.call recv name args isNew type (some target)) →
    (Expr.call recv name args isNew type (some target)).all q = true → Places c path 1 args places →
    Calls c path (.call recv name args isNew type (some target)) recv isNew target places code →
    Piece c q t code
  | test {path : Path} {st : Stmt} {cond : Expr} {p : Place} {r : Register} {label : String}
    {load : Code} : Ready c .value path cond → t st = true → st.condition? = some cond →
    Finds c (placeOf path cond) p → r ∈ c.general → Loads c r p 0 load →
    Piece c q t (load ++ plain [.bz r label])
  | define {path : Path} {d : VarDecl} {init : Expr} {p : Place} {e : Entry} {off n : Int64}
    {r : Register} {move : Code} : Ready c .value (0 :: path) init → t (.declare d init) = true →
    init.isMissing = false → Finds c (placeOf (0 :: path) init) p → c.scope.lookup d.name = some e →
    e.getOffset = .ok off → Finds c (words e.type) n → r ∈ c.general →
    Stores c r (c.slot off) p n move → Piece c q t move
  | assign {path : Path} {target source : Expr} {locating move : Code} {p : Place} {dst : Location}
    {n : Int64} {r : Register} : Ready c .location (0 :: path) target →
    Ready c .value (1 :: path) source → t (.assign target source) = true → target.all q = true →
    Finds c (placeOf (1 :: path) source) p → Locates c (0 :: path) target locating dst →
    Finds c (words target.type) n → r ∈ c.general → r ∉ dst.regs → Stores c r dst p n move →
    Piece c q t (locating ++ move)
  | print {path : Path} {e : Expr} {p : Place} {code : Code} : Ready c .value path e →
    Finds c (placeOf path e) p → PrintsValue c e.type p code → Piece c q t code
  | newline {code : Code} : EndsLine c code → Piece c q t code
  | read {path : Path} {target : Expr} {code : Code} {dst : Location} {size : Int64} {r : Register} :
    Ready c .location path target → t (.read target) = true → target.all q = true →
    target.type.isInteger = true → c.scope.frameSize = .ok size → r ∈ c.general →
    Locates c path target code dst →
    Piece c q t (readCode c size r ++ code ++ plain [.sw dst.off dst.base c.result])
  | ret {path : Path} {result : Expr} {p : Place} {off n : Int64} {r : Register} {move : Code} :
    Ready c .value path result → t (.ret result) = true → result.isMissing = false →
    c.head.returns.base ≠ .void → Finds c (placeOf path result) p →
    Finds c (ownSlot .returnValue) off → Finds c (words c.head.returns) n → r ∈ c.general →
    Stores c r (c.slot off) p n move → Piece c q t move

inductive Composed (c : Context) (q : Expr → Bool) (t : Stmt → Bool) : Code → Prop
  | nil : Composed c q t []
  | piece {code : Code} : Piece c q t code → Composed c q t code
  | append {code more : Code} : Composed c q t code → Composed c q t more →
    Composed c q t (code ++ more)

variable {c : Context} {q : Expr → Bool} {t : Stmt → Bool}

/-! ### Expressions -/

theorem EvaluatesAll.places {path : Path} {i : ℕ} {es : List Expr} {code : Code} {ps : List Place}
    (h : EvaluatesAll c path i es code ps) : Places c path i es ps := by
  match h with
  | .nil => exact .nil
  | .cons _ hp hes => exact .cons hp hes.places

mutual

theorem Evaluates.composed {use : Use} {path : Path} {e : Expr} {code : Code}
    (h : Evaluates c use path e code) (he : Ready c use path e) (hq : e.all q = true) :
    Composed c q t code := by
  match h with
  | .int _ | .variable _ _ | .own _ => exact .nil
  | .float _ hoff hr hm hx => exact .piece (.literal he hoff hr hm hx)
  | .member hfound hmat =>
    have hs := he.slots
    rw [Demand.ofExpr, if_pos (by rw [Context.isMember, hfound]; rfl)] at hs
    exact .piece (.copy he hs nofun hq hmat)
  | .dot hleft =>
    rw [Expr.all, Bool.and_eq_true] at hq
    exact hleft.composed he.left_of_dot hq.2
  | .dotValue hleft hmat =>
    have hs := he.slots
    rw [Demand.ofExpr, backed_append] at hs
    have hall := hq
    rw [Expr.all, Bool.and_eq_true] at hq
    exact .append (hleft.composed he.left_of_dot hq.2) (.piece (.copy he hs.2 nofun hall hmat))
  | .index hbase hindices =>
    rw [Expr.all, Bool.and_eq_true, Bool.and_eq_true] at hq
    exact .append (hbase.composed he.base_of_index hq.1.2)
      (hindices.composed he.indices_of_index hq.2)
  | .indexValue hbase hindices hmat =>
    have hs := he.slots
    rw [Demand.ofExpr, backed_append] at hs
    have hall := hq
    rw [Expr.all, Bool.and_eq_true, Bool.and_eq_true] at hq
    exact .append (.append (hbase.composed he.base_of_index hq.1.2)
      (hindices.composed he.indices_of_index hq.2)) (.piece (.copy he hs.2 nofun hall hmat))
  | .unary hoperand hsrc hunary =>
    rw [Expr.all, Bool.and_eq_true] at hq
    exact .append (hoperand.composed he.operand_of_unary hq.2) (.piece (.unary he hsrc hunary))
  | .binary hleft hl hright hr hbinary =>
    rw [Expr.all, Bool.and_eq_true, Bool.and_eq_true] at hq
    exact .append (.append (hleft.composed he.left_of_binary hq.1.2)
      (hright.composed he.right_of_binary hq.2)) (.piece (.binary he hq.1.1 hl hr hbinary))
  | .call _ hargs hcall =>
    have hall := hq
    rw [Expr.all, Bool.and_eq_true, Bool.and_eq_true] at hq
    exact .append (hargs.composed he.args_of_call hq.2) (.piece (.call he hall hargs.places hcall))
  | .callOn hrecv hbefore hargs hcall =>
    have hall := hq
    rw [Expr.all, Bool.and_eq_true, Bool.and_eq_true] at hq
    exact .append (.append (hbefore.composed (he.receiver_of_call (by rw [hrecv]; decide)) hq.1.2)
      (hargs.composed he.args_of_call hq.2)) (.piece (.call he hall hargs.places hcall))

theorem EvaluatesAll.composed {path : Path} {i : ℕ} {es : List Expr} {code : Code}
    {ps : List Place} (h : EvaluatesAll c path i es code ps) (he : AllReady c path i es)
    (hq : Expr.allOf q es = true) : Composed c q t code := by
  match h with
  | .nil => exact .nil
  | .cons hhead _ hes =>
    rw [Expr.allOf, Bool.and_eq_true] at hq
    exact .append (hhead.composed he.head hq.1) (hes.composed he.tail hq.2)

end

/-! ### Statements -/

theorem Tests.composed {path : Path} {st : Stmt} {cond : Expr} {label : String} {code : Code}
    (h : Tests c path cond label code) (he : Ready c .value path cond) (ht : t st = true)
    (hst : st.condition? = some cond) (hq : cond.all q = true) : Composed c q t code := by
  obtain ⟨hcond, hp, hr, hload⟩ := h
  exact .append (hcond.composed he hq) (.piece (.test he ht hst hp hr hload))

theorem Composed.choice {condition yes no : Code} (elseLabel endLabel : String)
    (h : Composed c q t condition) (hyes : Composed c q t yes) (hno : Composed c q t no) :
    Composed c q t (choice condition yes no elseLabel endLabel) := by
  have hjump : Composed c q t (plain [.j endLabel] ++ [mark elseLabel]) :=
    .append (.piece (.jump _)) (.piece (.mark _))
  have := (h.append hyes).append (hjump.append (hno.append (.piece (.mark endLabel))))
  simpa [Emit.choice] using this

mutual

theorem Runs.composed {path : Path} {st : Stmt} {code : Code} (h : Runs c path st code)
    (hst : StmtReady c path st) (hq : st.all q t = true) : Composed c q t code := by
  have hs := hst.slots
  have hc := hst.completed
  match h with
  | .declare _ => exact .nil
  | .define hm hinit hp hlook hoff hn hr hmove =>
    rw [Stmt.all, Bool.and_eq_true] at hq
    have he : Ready c .value (0 :: path) _ := ⟨hc.resolve_left (by rw [hm]; decide), hs⟩
    exact .append (.append (.piece (.note _)) (hinit.composed he hq.2))
      (.piece (.define he hq.1 hm hp hlook hoff hn hr hmove))
  | .assign htarget hsource hp hloc hn hr hfree hmove =>
    rw [Stmt.all, Bool.and_eq_true, Bool.and_eq_true] at hq
    rw [Demand.ofStmt, backed_append] at hs
    have ht : Ready c .location (0 :: path) _ := ⟨hc.1, hs.1⟩
    have he : Ready c .value (1 :: path) _ := ⟨hc.2, hs.2⟩
    rw [List.append_assoc]
    exact .append (.append (.append (.piece (.note _)) (htarget.composed ht hq.1.2))
      (hsource.composed he hq.2))
      (.piece (.assign ht he hq.1.1 hq.1.2 hp hloc hn hr hfree hmove))
  | .when htest hbody =>
    rw [Stmt.all, Bool.and_eq_true, Bool.and_eq_true] at hq
    rw [Demand.ofStmt, backed_append] at hs
    exact .choice _ _ (.append (.piece (.note _)) (htest.composed ⟨hc.1, hs.1⟩ hq.1.1 rfl hq.1.2))
      (hbody.composed ⟨hc.2, hs.2⟩ hq.2) .nil
  | .branch htest hyes hno =>
    rw [Stmt.all, Bool.and_eq_true, Bool.and_eq_true, Bool.and_eq_true] at hq
    rw [Demand.ofStmt, backed_append, backed_append] at hs
    exact .choice _ _
      (.append (.piece (.note _)) (htest.composed ⟨hc.1, hs.1.1⟩ hq.1.1.1 rfl hq.1.1.2))
      (hyes.composed ⟨hc.2.1, hs.1.2⟩ hq.1.2) (hno.composed ⟨hc.2.2, hs.2⟩ hq.2)
  | .loop htest hbody =>
    rw [Stmt.all, Bool.and_eq_true, Bool.and_eq_true] at hq
    rw [Demand.ofStmt, backed_append] at hs
    exact .append (.append (.append (.append (.append (.piece (.note _)) (.piece (.mark _)))
      (htest.composed ⟨hc.1, hs.1⟩ hq.1.1 rfl hq.1.2)) (hbody.composed ⟨hc.2, hs.2⟩ hq.2))
      (.piece (.jump _))) (.piece (.mark _))
  | .write he hp hprint hend =>
    rw [Stmt.all, Bool.and_eq_true] at hq
    exact .append (.piece (.note _)) (.append (.append (he.composed ⟨hc, hs⟩ hq.2)
      (.piece (.print ⟨hc, hs⟩ hp hprint))) (.piece (.newline hend)))
  | .read hint htarget hsize hr hloc =>
    rw [Stmt.all, Bool.and_eq_true] at hq
    have ht : Ready c .location (0 :: path) _ := ⟨hc, hs⟩
    have hpiece := Composed.piece (Piece.read (q := q) (t := t) ht hq.1 hq.2 hint hsize hr hloc)
    refine .append (.piece (.note _)) ?_
    simpa only [List.append_assoc] using (htarget.composed ht hq.2).append hpiece
  | .leave _ => exact .piece (.jump _)
  | .ret hm hvoid hresult hp hoff hn hr hmove =>
    rw [Stmt.all, Bool.and_eq_true] at hq
    have he : Ready c .value (0 :: path) _ := ⟨hc.resolve_left (by rw [hm]; decide), hs⟩
    exact .append (.append (.append (.piece (.note _)) (hresult.composed he hq.2))
      (.piece (.ret he hq.1 hm hvoid hp hoff hn hr hmove))) (.piece (.jump _))
  | .call he =>
    rw [Stmt.all, Bool.and_eq_true] at hq
    exact he.composed ⟨hc, hs⟩ hq.2

theorem RunsAll.composed {path : Path} {i : ℕ} {sts : List Stmt} {code : Code}
    (h : RunsAll c path i sts code) (hst : StmtsReady c path i sts)
    (hq : Stmt.allOf q t sts = true) : Composed c q t code := by
  match h with
  | .nil => exact .nil
  | .cons hhead hrest =>
    have hs := hst.slots
    rw [Demand.ofStmts, backed_append] at hs
    rw [Stmt.allOf, Bool.and_eq_true] at hq
    exact .append (hhead.composed ⟨hst.completed.1, hs.1⟩ hq.1)
      (hrest.composed ⟨hst.completed.2, hs.2⟩ hq.2)

end

end Emit

end MoonBackend
