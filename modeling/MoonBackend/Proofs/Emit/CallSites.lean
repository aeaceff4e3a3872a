import MoonBackend.Proofs.Emit.Pieces

/-!
# The calls of a body

Every call in a body has its path. In the code of the body stands the calling sequence of every one of
them: the code of an expression ends with what its own step answers, and contains the code of its
operands.
-/

namespace MoonBackend

/-! ### Calls with their paths -/

mutual

/-- The calls in an expression with their paths, in the order in which they take place. -/
def Expr.callsAt (path : Path) : Expr → List (Path × Expr)
  | .missing | .int _ | .float _ | .var _ _ => []
  | .dot left _ _ => left.callsAt (0 :: path)
  | .index base indices _ => base.callsAt (0 :: path) ++ Expr.callsAmong path 1 indices
  | .call recv name args isNew type target =>
    recv.callsAt (0 :: path) ++ Expr.callsAmong path 1 args
      ++ [(path, .call recv name args isNew type target)]
  | .unary _ operand _ => operand.callsAt (0 :: path)
  | .binary _ left right _ => left.callsAt (0 :: path) ++ right.callsAt (1 :: path)

def Expr.callsAmong (path : Path) (i : ℕ) : List Expr → List (Path × Expr)
  | [] => []
  | e :: es => e.callsAt (i :: path) ++ Expr.callsAmong path (i + 1) es

end

mutual

def Stmt.callsAt (path : Path) : Stmt → List (Path × Expr)
  | .declare _ e | .write e | .read e | .ret e | .call e => e.callsAt (0 :: path)
  | .assign target value => target.callsAt (0 :: path) ++ value.callsAt (1 :: path)
  | .when cond body | .loop cond body =>
    cond.callsAt (0 :: path) ++ Stmt.callsAmong (1 :: path) 0 body
  | .branch cond yes no =>
    cond.callsAt (0 :: path) ++ Stmt.callsAmong (1 :: path) 0 yes
      ++ Stmt.callsAmong (2 :: path) 0 no

def Stmt.callsAmong (path : Path) (i : ℕ) : List Stmt → List (Path × Expr)
  | [] => []
  | st :: sts => st.callsAt (i :: path) ++ Stmt.callsAmong path (i + 1) sts

end

theorem Expr.callsAt_of_isMissing {e : Expr} (h : e.isMissing = true) (path : Path) :
    e.callsAt path = [] := by
  cases e with
  | missing => rfl
  | _ => cases h

namespace Emit

open Code

/-! ### Calling sequences -/

/-- A call that layout prepared, with the places of its arguments and its calling sequence. -/
inductive Sequence (c : Context) (path : Path) : Expr → Code → Prop
  | intro {use : Use} {recv : Expr} {name : String} {args : List Expr} {isNew : Bool} {type : Ty}
    {k : ℕ} {places : List Place} {code : Code} :
    Ready c use path (.call recv name args isNew type (some k)) → Places c path 1 args places →
    Calls c path (.call recv name args isNew type (some k)) recv isNew k places code →
    Sequence c path (.call recv name args isNew type (some k)) code

def HasCalls (c : Context) (calls : List (Path × Expr)) (code : Code) : Prop :=
  ∀ q ∈ calls, ∃ sequence, sequence <:+: code ∧ Sequence c q.1 q.2 sequence

variable {c : Context} {calls more : List (Path × Expr)} {code before after : Code}

namespace HasCalls

@[simp]
theorem nil : HasCalls c [] code := fun _ hq => (List.not_mem_nil hq).elim

theorem within (h : HasCalls c calls code) (hcode : code <:+: before) : HasCalls c calls before :=
  fun q hq => by
    obtain ⟨sequence, hin, hseq⟩ := h q hq
    exact ⟨sequence, hin.trans hcode, hseq⟩

theorem left (h : HasCalls c calls code) : HasCalls c calls (code ++ after) :=
  h.within (List.prefix_append _ _).isInfix

theorem right (h : HasCalls c calls code) : HasCalls c calls (before ++ code) :=
  h.within (List.suffix_append _ _).isInfix

theorem both (h : HasCalls c calls code) (h' : HasCalls c more code) :
    HasCalls c (calls ++ more) code :=
  fun q hq => (List.mem_append.1 hq).elim (h q) (h' q)

theorem append (h : HasCalls c calls before) (h' : HasCalls c more after) :
    HasCalls c (calls ++ more) (before ++ after) :=
  h.left.both h'.right

theorem call {path : Path} {e : Expr} (h : Sequence c path e code) : HasCalls c [(path, e)] code :=
  fun q hq => by
    rw [List.mem_singleton.1 hq]
    exact ⟨code, List.infix_rfl, h⟩

end HasCalls

/-! ### Expressions -/

mutual

theorem Evaluates.hasCalls {use : Use} {path : Path} {e : Expr} {code : Code}
    (h : Evaluates c use path e code) (he : Ready c use path e) :
    HasCalls c (e.callsAt path) code := by
  match h with
  | .int _ | .variable _ _ | .own _ | .float _ _ _ _ _ | .member _ _ => exact .nil
  | .dot hleft => exact hleft.hasCalls he.left_of_dot
  | .dotValue hleft _ => exact (hleft.hasCalls he.left_of_dot).left
  | .index hbase hindices =>
    exact (hbase.hasCalls he.base_of_index).append (hindices.hasCalls he.indices_of_index)
  | .indexValue hbase hindices _ =>
    exact ((hbase.hasCalls he.base_of_index).append (hindices.hasCalls he.indices_of_index)).left
  | .unary hoperand _ _ => exact (hoperand.hasCalls he.operand_of_unary).left
  | .binary hleft _ hright _ _ =>
    exact ((hleft.hasCalls he.left_of_binary).append (hright.hasCalls he.right_of_binary)).left
  | .call hrecv hargs hcall =>
    rw [Expr.callsAt, Expr.callsAt_of_isMissing hrecv, List.nil_append]
    exact (hargs.hasCalls he.args_of_call).append (.call (.intro he hargs.places hcall))
  | .callOn hrecv hbefore hargs hcall =>
    exact ((hbefore.hasCalls (he.receiver_of_call (by rw [hrecv]; decide))).append
      (hargs.hasCalls he.args_of_call)).append (.call (.intro he hargs.places hcall))

theorem EvaluatesAll.hasCalls {path : Path} {i : ℕ} {es : List Expr} {code : Code}
    {ps : List Place} (h : EvaluatesAll c path i es code ps) (he : AllReady c path i es) :
    HasCalls c (Expr.callsAmong path i es) code := by
  match h with
  | .nil => exact .nil
  | .cons hhead _ hes => exact (hhead.hasCalls he.head).append (hes.hasCalls he.tail)

end

/-! ### Statements -/

theorem Tests.hasCalls {path : Path} {cond : Expr} {label : String}
    (h : Tests c path cond label code) (he : Ready c .value path cond) :
    HasCalls c (cond.callsAt path) code := by
  obtain ⟨hcond, -, -, -⟩ := h
  exact (hcond.hasCalls he).left

mutual

theorem Runs.hasCalls {path : Path} {st : Stmt} {code : Code} (h : Runs c path st code)
    (hst : StmtReady c path st) : HasCalls c (st.callsAt path) code := by
  have hs := hst.slots
  have hc := hst.completed
  match h with
  | .declare hm =>
    rw [Stmt.callsAt, Expr.callsAt_of_isMissing hm]
    exact .nil
  | .define hm hinit _ _ _ _ _ _ =>
    exact (hinit.hasCalls ⟨hc.resolve_left (by rw [hm]; decide), hs⟩).right.left
  | .assign htarget hsource _ _ _ _ _ _ =>
    rw [Demand.ofStmt, backed_append] at hs
    exact ((htarget.hasCalls ⟨hc.1, hs.1⟩).right.append (hsource.hasCalls ⟨hc.2, hs.2⟩)).left.left
  | .when htest hbody =>
    rw [Demand.ofStmt, backed_append] at hs
    exact ((htest.hasCalls ⟨hc.1, hs.1⟩).right.append
      (hbody.hasCalls ⟨hc.2, hs.2⟩)).left.left.left.left
  | .branch htest hyes hno =>
    rw [Demand.ofStmt, backed_append, backed_append] at hs
    exact (((htest.hasCalls ⟨hc.1, hs.1.1⟩).right.append
      (hyes.hasCalls ⟨hc.2.1, hs.1.2⟩)).left.left.append (hno.hasCalls ⟨hc.2.2, hs.2⟩)).left
  | .loop htest hbody =>
    rw [Demand.ofStmt, backed_append] at hs
    exact ((htest.hasCalls ⟨hc.1, hs.1⟩).right.append (hbody.hasCalls ⟨hc.2, hs.2⟩)).left.left
  | .write he _ _ _ => exact (he.hasCalls ⟨hc, hs⟩).left.left.right
  | .read _ htarget _ _ _ => exact (htarget.hasCalls ⟨hc, hs⟩).left.left.left.right
  | .leave hm =>
    rw [Stmt.callsAt, Expr.callsAt_of_isMissing hm]
    exact .nil
  | .ret hm _ hresult _ _ _ _ _ =>
    exact (hresult.hasCalls ⟨hc.resolve_left (by rw [hm]; decide), hs⟩).right.left.left
  | .call he => exact he.hasCalls ⟨hc, hs⟩

theorem RunsAll.hasCalls {path : Path} {i : ℕ} {sts : List Stmt} {code : Code}
    (h : RunsAll c path i sts code) (hst : StmtsReady c path i sts) :
    HasCalls c (Stmt.callsAmong path i sts) code := by
  match h with
  | .nil => exact .nil
  | .cons hhead hrest =>
    have hs := hst.slots
    rw [Demand.ofStmts, backed_append] at hs
    exact (hhead.hasCalls ⟨hst.completed.1, hs.1⟩).append (hrest.hasCalls ⟨hst.completed.2, hs.2⟩)

end

/-- The code of a function has the calling sequences of all calls in its body. -/
theorem Function.hasCalls {tag : String} {f : MoonBackend.Function} (hf : Function c tag f code)
    (hbody : StmtsReady c [] 0 f.body) : HasCalls c (Stmt.callsAmong [] 0 f.body) code := by
  cases hf with
  | entry _ _ hr => exact (hr.hasCalls hbody).right.left
  | routine _ _ hr _ => exact (hr.hasCalls hbody).right.left.left

end Emit

end MoonBackend
