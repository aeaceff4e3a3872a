import MoonBackend.Proofs.Layout.Resolution
import MoonBackend.Proofs.Symbols.Completed
import MoonBackend.Proofs.Symbols.Completion

/-!
# Completion fills gaps

Completion writes down the types and call targets that are missing and nothing else. What it leaves
is complete, so building the table of a completed program gives the same table once more.
-/

namespace MoonBackend

open Layout

/-! ### Filled trees -/

/-- A type that is written down stays; the void type may become any type. -/
def Ty.KeptBy (t t' : Ty) : Prop := t.isUnset = false → t' = t

/-- The same expression, in which more types and call targets may be written down. -/
inductive Expr.FilledBy : Expr → Expr → Prop
  | missing : FilledBy .missing .missing
  | int (v : Int64) : FilledBy (.int v) (.int v)
  | float (text : String) : FilledBy (.float text) (.float text)
  | var {name : String} {type type' : Ty} (ht : type.KeptBy type') :
    FilledBy (.var name type) (.var name type')
  | dot {left left' : Expr} {member : String} {type type' : Ty} (hleft : FilledBy left left')
    (ht : type.KeptBy type') : FilledBy (.dot left member type) (.dot left' member type')
  | index {base base' : Expr} {indices indices' : List Expr} {type type' : Ty}
    (hbase : FilledBy base base') (hindices : List.Forall₂ FilledBy indices indices')
    (ht : type.KeptBy type') : FilledBy (.index base indices type) (.index base' indices' type')
  | call {recv recv' : Expr} {name : String} {args args' : List Expr} {isNew : Bool}
    {type type' : Ty} {target target' : Option Nat} (hrecv : FilledBy recv recv')
    (hargs : List.Forall₂ FilledBy args args') (ht : type.KeptBy type')
    (htarget : ∀ k, target = some k → target' = some k) :
    FilledBy (.call recv name args isNew type target) (.call recv' name args' isNew type' target')
  | unary {op : UnaryOp} {operand operand' : Expr} {type type' : Ty}
    (hoperand : FilledBy operand operand') (ht : type.KeptBy type') :
    FilledBy (.unary op operand type) (.unary op operand' type')
  | binary {op : BinaryOp} {left left' right right' : Expr} {type type' : Ty}
    (hleft : FilledBy left left') (hright : FilledBy right right') (ht : type.KeptBy type') :
    FilledBy (.binary op left right type) (.binary op left' right' type')

inductive Stmt.FilledBy : Stmt → Stmt → Prop
  | declare {d : VarDecl} {e e' : Expr} (h : e.FilledBy e') : FilledBy (.declare d e) (.declare d e')
  | assign {target target' e e' : Expr} (ht : target.FilledBy target') (h : e.FilledBy e') :
    FilledBy (.assign target e) (.assign target' e')
  | when {e e' : Expr} {body body' : List Stmt} (h : e.FilledBy e')
    (hbody : List.Forall₂ FilledBy body body') : FilledBy (.when e body) (.when e' body')
  | branch {e e' : Expr} {yes yes' no no' : List Stmt} (h : e.FilledBy e')
    (hyes : List.Forall₂ FilledBy yes yes') (hno : List.Forall₂ FilledBy no no') :
    FilledBy (.branch e yes no) (.branch e' yes' no')
  | loop {e e' : Expr} {body body' : List Stmt} (h : e.FilledBy e')
    (hbody : List.Forall₂ FilledBy body body') : FilledBy (.loop e body) (.loop e' body')
  | write {e e' : Expr} (h : e.FilledBy e') : FilledBy (.write e) (.write e')
  | read {e e' : Expr} (h : e.FilledBy e') : FilledBy (.read e) (.read e')
  | ret {e e' : Expr} (h : e.FilledBy e') : FilledBy (.ret e) (.ret e')
  | call {e e' : Expr} (h : e.FilledBy e') : FilledBy (.call e) (.call e')

structure Function.FilledBy (f f' : Function) : Prop where
  head : f'.toSignature = f.toSignature
  body : List.Forall₂ Stmt.FilledBy f.body f'.body

structure Program.FilledBy (p p' : Program) : Prop where
  classes : p'.classes = p.classes
  functions : List.Forall₂ Function.FilledBy p.functions p'.functions

theorem Ty.keptBy_orElse (t own : Ty) : t.KeptBy (t.orElse own) := by
  intro h
  rw [orElse, h]
  rfl

theorem Ty.orElse_orElse (t own : Ty) : (t.orElse own).orElse own = t.orElse own := by
  unfold orElse
  split
  · exact ite_self own
  · rfl

namespace Table

variable {t t' : Table} {i : ℕ}

/-! ### Completion fills -/

mutual

theorem filledBy_complete : ∀ {e e₁ : Expr}, t.complete i e = .ok e₁ → e.FilledBy e₁
  | .missing, _, he => (complete_missing.1 he).elim
  | .int v, _, he => by
    obtain rfl := complete_int.1 he
    exact .int v
  | .float text, _, he => by
    obtain rfl := complete_float.1 he
    exact .float text
  | .var name type, _, he => by
    obtain ⟨l, b, -, rfl⟩ := complete_var.1 he
    exact .var (type.keptBy_orElse _)
  | .dot left member type, _, he => by
    obtain ⟨left₁, cls, l, hleft, -, -, rfl⟩ := complete_dot.1 he
    exact .dot (filledBy_complete hleft) (type.keptBy_orElse _)
  | .index base indices type, _, he => by
    obtain ⟨base₁, indices₁, hbase, hindices, -, -, rfl⟩ := complete_index.1 he
    exact .index (filledBy_complete hbase) (filledBy_completeAll hindices) (type.keptBy_orElse _)
  | .call recv name args isNew type target, _, he => by
    obtain ⟨recv₁, args₁, k, hrecv, hargs, hk, rfl⟩ := complete_call.1 he
    have hkept : ∀ j, target = some j → some k = some j := by
      rintro j rfl
      exact congrArg some hk
    rcases completeReceiver_eq_ok.1 hrecv with ⟨rfl, rfl⟩ | hrecv
    · exact .call .missing (filledBy_completeAll hargs) (type.keptBy_orElse _) hkept
    · exact .call (filledBy_complete hrecv) (filledBy_completeAll hargs) (type.keptBy_orElse _) hkept
  | .unary op operand type, _, he => by
    obtain ⟨operand₁, hop, rfl⟩ := complete_unary.1 he
    exact .unary (filledBy_complete hop) (type.keptBy_orElse _)
  | .binary op left right type, _, he => by
    obtain ⟨left₁, right₁, hleft, hright, rfl⟩ := complete_binary.1 he
    exact .binary (filledBy_complete hleft) (filledBy_complete hright) (type.keptBy_orElse _)

theorem filledBy_completeAll : ∀ {es es₁ : List Expr}, t.completeAll i es = .ok es₁ →
    List.Forall₂ Expr.FilledBy es es₁
  | [], _, he => by
    obtain rfl := completeAll_nil.1 he
    exact .nil
  | e :: es, _, he => by
    obtain ⟨e₁, es₁, h1, h2, rfl⟩ := completeAll_cons.1 he
    exact .cons (filledBy_complete h1) (filledBy_completeAll h2)

end

theorem filledBy_completeReceiver {e e₁ : Expr} (h : t.completeReceiver i e = .ok e₁) :
    e.FilledBy e₁ := by
  rcases completeReceiver_eq_ok.1 h with ⟨rfl, rfl⟩ | h
  · exact .missing
  · exact filledBy_complete h

mutual

theorem filledBy_completeStmt : ∀ {st st₁ : Stmt}, t.completeStmt i st = .ok st₁ → st.FilledBy st₁
  | .declare d init, _, hs => by
    obtain ⟨init₁, h1, rfl⟩ := completeStmt_declare.1 hs
    exact .declare (filledBy_completeReceiver h1)
  | .assign target value, _, hs => by
    obtain ⟨target₁, value₁, h1, h2, rfl⟩ := completeStmt_assign.1 hs
    exact .assign (filledBy_complete h1) (filledBy_complete h2)
  | .when cond body, _, hs => by
    obtain ⟨cond₁, body₁, h1, h2, rfl⟩ := completeStmt_when.1 hs
    exact .when (filledBy_complete h1) (filledBy_completeStmts h2)
  | .branch cond yes no, _, hs => by
    obtain ⟨cond₁, yes₁, no₁, h1, h2, h3, rfl⟩ := completeStmt_branch.1 hs
    exact .branch (filledBy_complete h1) (filledBy_completeStmts h2) (filledBy_completeStmts h3)
  | .loop cond body, _, hs => by
    obtain ⟨cond₁, body₁, h1, h2, rfl⟩ := completeStmt_loop.1 hs
    exact .loop (filledBy_complete h1) (filledBy_completeStmts h2)
  | .write value, _, hs => by
    obtain ⟨value₁, h1, rfl⟩ := completeStmt_write.1 hs
    exact .write (filledBy_complete h1)
  | .read target, _, hs => by
    obtain ⟨target₁, h1, rfl⟩ := completeStmt_read.1 hs
    exact .read (filledBy_complete h1)
  | .ret value, _, hs => by
    obtain ⟨value₁, h1, rfl⟩ := completeStmt_ret.1 hs
    exact .ret (filledBy_completeReceiver h1)
  | .call c, _, hs => by
    obtain ⟨c₁, h1, rfl⟩ := completeStmt_call.1 hs
    exact .call (filledBy_complete h1)

theorem filledBy_completeStmts : ∀ {sts sts₁ : List Stmt}, t.completeStmts i sts = .ok sts₁ →
    List.Forall₂ Stmt.FilledBy sts sts₁
  | [], _, hs => by
    obtain rfl := completeStmts_nil.1 hs
    exact .nil
  | st :: sts, _, hs => by
    obtain ⟨st₁, sts₁, h1, h2, rfl⟩ := completeStmts_cons.1 hs
    exact .cons (filledBy_completeStmt h1) (filledBy_completeStmts h2)

end

theorem filledBy_completeFunctions {fs fs₁ : List Function}
    (h : t.completeFunctions i fs = .ok fs₁) : List.Forall₂ Function.FilledBy fs fs₁ := by
  induction fs generalizing i fs₁ with
  | nil =>
    obtain rfl := completeFunctions_nil.1 h
    exact .nil
  | cons f fs ih =>
    obtain ⟨body, rest, hbody, hrest, rfl⟩ := completeFunctions_cons.1 h
    exact .cons ⟨rfl, filledBy_completeStmts hbody⟩ (ih hrest)

/-! ### Completing again -/

theorem Agrees.callType (hag : Agrees t t') (name : String) (isNew : Bool) (k : ℕ) :
    t'.callType name isNew k = t.callType name isNew k := by
  rw [Table.callType, Table.callType, hag.signature?]

mutual

/-- What is completed is complete for every table that gives the same answers. -/
theorem Agrees.complete_again (hag : Agrees t t') : ∀ {e e₁ : Expr}, t.complete i e = .ok e₁ →
    t'.complete i e₁ = .ok e₁
  | .missing, _, he => (complete_missing.1 he).elim
  | .int v, _, he => by
    obtain rfl := complete_int.1 he
    exact complete_int.2 rfl
  | .float text, _, he => by
    obtain rfl := complete_float.1 he
    exact complete_float.2 rfl
  | .var name type, _, he => by
    obtain ⟨l, b, hl, rfl⟩ := complete_var.1 he
    have hn := hag.name i name
    rw [hl, Option.map_some, Option.map_eq_some_iff] at hn
    obtain ⟨⟨l', b'⟩, hl', hv⟩ := hn
    have hty : l'.entry.type = l.entry.type := congrArg Prod.fst hv
    exact complete_var.2 ⟨l', b', hl', by rw [hty, Ty.orElse_orElse]⟩
  | .dot left member type, _, he => by
    obtain ⟨left₁, cls, l, hleft, htype, hl, rfl⟩ := complete_dot.1 he
    have hm := hag.member cls member
    rw [hl, Option.map_some, Option.map_eq_some_iff] at hm
    obtain ⟨l', hl', hty⟩ := hm
    exact complete_dot.2
      ⟨left₁, cls, l', hag.complete_again hleft, htype, hl', by rw [hty, Ty.orElse_orElse]⟩
  | .index base indices type, _, he => by
    obtain ⟨base₁, indices₁, hbase, hindices, hne, hle, rfl⟩ := complete_index.1 he
    exact complete_index.2 ⟨base₁, indices₁, hag.complete_again hbase,
      hag.completeAll_again hindices, hne, hle, by rw [Ty.orElse_orElse]⟩
  | .call recv name args isNew type target, _, he => by
    obtain ⟨recv₁, args₁, k, hrecv, hargs, -, rfl⟩ := complete_call.1 he
    have hrecv' : t'.completeReceiver i recv₁ = .ok recv₁ := by
      rcases completeReceiver_eq_ok.1 hrecv with ⟨-, rfl⟩ | hrecv
      · exact completeReceiver_missing.2 rfl
      · exact completeReceiver_eq_ok.2 (.inr (hag.complete_again hrecv))
    exact complete_call.2 ⟨recv₁, args₁, k, hrecv', hag.completeAll_again hargs, rfl,
      by rw [hag.callType, Ty.orElse_orElse]⟩
  | .unary op operand type, _, he => by
    obtain ⟨operand₁, hop, rfl⟩ := complete_unary.1 he
    exact complete_unary.2 ⟨operand₁, hag.complete_again hop, by rw [Ty.orElse_orElse]⟩
  | .binary op left right type, _, he => by
    obtain ⟨left₁, right₁, hleft, hright, rfl⟩ := complete_binary.1 he
    exact complete_binary.2 ⟨left₁, right₁, hag.complete_again hleft, hag.complete_again hright,
      by rw [Ty.orElse_orElse]⟩

theorem Agrees.completeAll_again (hag : Agrees t t') : ∀ {es es₁ : List Expr}, t.completeAll i es = .ok es₁ →
    t'.completeAll i es₁ = .ok es₁
  | [], _, he => by
    obtain rfl := completeAll_nil.1 he
    exact completeAll_nil.2 rfl
  | e :: es, _, he => by
    obtain ⟨e₁, es₁, h1, h2, rfl⟩ := completeAll_cons.1 he
    exact completeAll_cons.2 ⟨e₁, es₁, hag.complete_again h1, hag.completeAll_again h2, rfl⟩

end

theorem Agrees.completeReceiver_again (hag : Agrees t t') {e e₁ : Expr}
    (h : t.completeReceiver i e = .ok e₁) : t'.completeReceiver i e₁ = .ok e₁ := by
  rcases completeReceiver_eq_ok.1 h with ⟨-, rfl⟩ | h
  · exact completeReceiver_missing.2 rfl
  · exact completeReceiver_eq_ok.2 (.inr (hag.complete_again h))

mutual

theorem Agrees.completeStmt_again (hag : Agrees t t') : ∀ {st st₁ : Stmt}, t.completeStmt i st = .ok st₁ →
    t'.completeStmt i st₁ = .ok st₁
  | .declare d init, _, hs => by
    obtain ⟨init₁, h1, rfl⟩ := completeStmt_declare.1 hs
    exact completeStmt_declare.2 ⟨init₁, hag.completeReceiver_again h1, rfl⟩
  | .assign target value, _, hs => by
    obtain ⟨target₁, value₁, h1, h2, rfl⟩ := completeStmt_assign.1 hs
    exact completeStmt_assign.2
      ⟨target₁, value₁, hag.complete_again h1, hag.complete_again h2, rfl⟩
  | .when cond body, _, hs => by
    obtain ⟨cond₁, body₁, h1, h2, rfl⟩ := completeStmt_when.1 hs
    exact completeStmt_when.2 ⟨cond₁, body₁, hag.complete_again h1, hag.completeStmts_again h2, rfl⟩
  | .branch cond yes no, _, hs => by
    obtain ⟨cond₁, yes₁, no₁, h1, h2, h3, rfl⟩ := completeStmt_branch.1 hs
    exact completeStmt_branch.2 ⟨cond₁, yes₁, no₁, hag.complete_again h1,
      hag.completeStmts_again h2, hag.completeStmts_again h3, rfl⟩
  | .loop cond body, _, hs => by
    obtain ⟨cond₁, body₁, h1, h2, rfl⟩ := completeStmt_loop.1 hs
    exact completeStmt_loop.2 ⟨cond₁, body₁, hag.complete_again h1, hag.completeStmts_again h2, rfl⟩
  | .write value, _, hs => by
    obtain ⟨value₁, h1, rfl⟩ := completeStmt_write.1 hs
    exact completeStmt_write.2 ⟨value₁, hag.complete_again h1, rfl⟩
  | .read target, _, hs => by
    obtain ⟨target₁, h1, rfl⟩ := completeStmt_read.1 hs
    exact completeStmt_read.2 ⟨target₁, hag.complete_again h1, rfl⟩
  | .ret value, _, hs => by
    obtain ⟨value₁, h1, rfl⟩ := completeStmt_ret.1 hs
    exact completeStmt_ret.2 ⟨value₁, hag.completeReceiver_again h1, rfl⟩
  | .call c, _, hs => by
    obtain ⟨c₁, h1, rfl⟩ := completeStmt_call.1 hs
    exact completeStmt_call.2 ⟨c₁, hag.complete_again h1, rfl⟩

theorem Agrees.completeStmts_again (hag : Agrees t t') : ∀ {sts sts₁ : List Stmt}, t.completeStmts i sts = .ok sts₁ →
    t'.completeStmts i sts₁ = .ok sts₁
  | [], _, hs => by
    obtain rfl := completeStmts_nil.1 hs
    exact completeStmts_nil.2 rfl
  | st :: sts, _, hs => by
    obtain ⟨st₁, sts₁, h1, h2, rfl⟩ := completeStmts_cons.1 hs
    exact completeStmts_cons.2
      ⟨st₁, sts₁, hag.completeStmt_again h1, hag.completeStmts_again h2, rfl⟩

end

theorem Agrees.completeFunctions_again (hag : Agrees t t') {fs fs₁ : List Function}
    (h : t.completeFunctions i fs = .ok fs₁) : t'.completeFunctions i fs₁ = .ok fs₁ := by
  induction fs generalizing i fs₁ with
  | nil =>
    obtain rfl := completeFunctions_nil.1 h
    exact completeFunctions_nil.2 rfl
  | cons f fs ih =>
    obtain ⟨body, rest, hbody, hrest, rfl⟩ := completeFunctions_cons.1 h
    exact completeFunctions_cons.2 ⟨body, rest, hag.completeStmts_again hbody, ih hrest, rfl⟩

end Table

/-! ### The scopes of a filled program -/

mutual

theorem Stmt.FilledBy.declareStmt {path : Path} : ∀ {st st' : Stmt}, st.FilledBy st' →
    ∀ s : Scope, Scope.declareStmt path st' s = Scope.declareStmt path st s
  | _, _, .declare _, s => by rw [Scope.declareStmt, Scope.declareStmt]
  | _, _, .assign _ _, s | _, _, .write _, s | _, _, .read _, s | _, _, .ret _, s
  | _, _, .call _, s => by
    simp only [Scope.declareStmt]
  | _, _, .when _ hbody, s | _, _, .loop _ hbody, s => by
    rw [Scope.declareStmt, Scope.declareStmt, Stmt.FilledBy.declareStmts hbody]
  | _, _, .branch _ hyes hno, s => by
    simp only [Scope.declareStmt, Stmt.FilledBy.declareStmts hyes, Stmt.FilledBy.declareStmts hno]

theorem Stmt.FilledBy.declareStmts {path : Path} {i : ℕ} : ∀ {sts sts' : List Stmt},
    List.Forall₂ Stmt.FilledBy sts sts' →
      ∀ s : Scope, Scope.declareStmts path i sts' s = Scope.declareStmts path i sts s
  | _, _, .nil, _ => rfl
  | _, _, .cons h hs, s => by
    simp only [Scope.declareStmts, h.declareStmt, Stmt.FilledBy.declareStmts hs]

end

theorem foldlM_transfer {α β σ ε : Type} {f : σ → α → Except ε σ} {g : σ → β → Except ε σ}
    {R : α → β → Prop} {φ : σ → σ}
    (hstep : ∀ s s' a b, R a b → f s a = .ok s' → g (φ s) b = .ok (φ s')) {as : List α} {bs : List β}
    (hab : List.Forall₂ R as bs) {s s' : σ} (h : as.foldlM f s = .ok s') :
    bs.foldlM g (φ s) = .ok (φ s') := by
  induction hab generalizing s with
  | nil =>
    cases h
    rfl
  | cons hr _ ih =>
    rw [List.foldlM_cons] at h ⊢
    obtain ⟨s₁, h1, h2⟩ := except_bind_eq_ok.1 h
    exact except_bind_eq_ok.2 ⟨φ s₁, hstep _ _ _ _ hr h1, ih h2⟩

namespace Table

def withProgram (q : Program) (t : Table) : Table := { t with program := q }

section

variable {q : Program} {t t' : Table}

theorem addClass_withProgram {c : ClassDecl} (h : t.addClass c = .ok t') :
    (t.withProgram q).addClass c = .ok (t'.withProgram q) := by
  obtain ⟨hnew, s, hs, rfl⟩ := addClass_eq_ok.1 h
  exact addClass_eq_ok.2 ⟨hnew, s, hs, rfl⟩

theorem marked_withProgram {f f' : Function} (h : f'.toSignature = f.toSignature)
    (parent : ScopeId) :
    (t.withProgram q).marked f' parent = (t.marked f parent).withProgram q := by
  have hscope : (t.withProgram q).scope? parent = t.scope? parent := by cases parent <;> rfl
  unfold marked
  rw [hscope, h]
  split
  · cases parent <;> rfl
  · rfl

theorem addFunction_withProgram {f f' : Function} (hf : f.FilledBy f')
    (h : t.addFunction f = .ok t') :
    (t.withProgram q).addFunction f' = .ok (t'.withProgram q) := by
  obtain ⟨parent, s₀, s, hparent, hs₀, hs, rfl⟩ := addFunction_eq_ok.1 h
  refine addFunction_eq_ok.2 ⟨parent, s₀, s, ?_, ?_, ?_, ?_⟩
  · rw [hf.head]
    exact hparent
  · rw [hf.head]
    exact hs₀
  · rw [Stmt.FilledBy.declareStmts hf.body]
    exact hs
  · rw [marked_withProgram hf.head]
    rfl

theorem scopes_filled {p : Program} (hpq : p.FilledBy q) (h : scopes p = .ok t) :
    scopes q = .ok (t.withProgram q) := by
  obtain ⟨t₁, h1, h2, h3⟩ := scopes_eq_ok.1 h
  have hstart : (initial p).withProgram q = initial q := by
    unfold initial withProgram
    rw [hpq.classes, hpq.functions.length_eq]
  refine scopes_eq_ok.2 ⟨t₁.withProgram q, ?_, ?_, ?_⟩
  · rw [← hstart, hpq.classes]
    refine foldlM_transfer (R := Eq) ?_ (List.forall₂_eq_eq_eq ▸ rfl) h1
    rintro s s' c _ rfl hs
    exact addClass_withProgram hs
  · rw [hpq.classes]
    exact h2
  · exact foldlM_transfer (R := Function.FilledBy) (f := addFunction) (g := addFunction)
      (fun _ _ _ _ hf hs => addFunction_withProgram hf hs) hpq.functions h3

end

/-- Building a table keeps every type and every call target that is written down; the tree that it
leaves has the same table, down to the types and targets themselves. -/
theorem build_again {p : Program} {t : Table} (h : build p = .ok t) :
    p.FilledBy t.program ∧ build t.program = .ok t := by
  obtain ⟨t₀, fs, hscopes, hfs, rfl⟩ := build_eq_ok.1 h
  have hfilled : p.FilledBy { p with functions := fs } := ⟨rfl, filledBy_completeFunctions hfs⟩
  have hsame := scopes_filled hfilled hscopes
  refine ⟨hfilled, build_eq_ok.2 ⟨_, fs, hsame, ?_, rfl⟩⟩
  exact (agrees_of_build hscopes hfs).completeFunctions_again hfs

end Table

/-- A program in which one variable has a type of its own and one call a function of its own; the
rest is left open. -/
def annotated : Program :=
  ⟨[], [{ name := "twice", className := "", isConstructor := false, params := [⟨"v", .integer⟩],
          returns := .integer, body := [.ret (.binary .add (.var "v" .void) (.var "v" .void) .void)] },
    { name := "main", className := "", isConstructor := false, params := [], returns := .void
      body := [.declare ⟨"x", .integer⟩ .missing, .write (.var "x" .float),
        .write (.call .missing "double" [.var "x" .void] false .void (some 0))] }]⟩

/-- The type and the target that are given stay, though neither is what would be filled in. -/
theorem build_again_annotated : ∃ t, Table.build annotated = .ok t ∧ annotated.FilledBy t.program
    ∧ Table.build t.program = .ok t
    ∧ (t.program.functions[1]?).any fun f => match f.body with
      | [_, .write (.var _ type), .write (.call _ _ [.var _ type'] _ type'' target)] =>
        type == .float && type' == .integer && type'' == .integer && target == some 0
      | _ => false := by
  obtain ⟨t, hb, hcheck⟩ := of_tableChecks annotated (fun t =>
    (t.program.functions[1]?).any fun f => match f.body with
      | [_, .write (.var _ type), .write (.call _ _ [.var _ type'] _ type'' target)] =>
        type == .float && type' == .integer && type'' == .integer && target == some 0
      | _ => false) (by cbv)
  obtain ⟨hfilled, hagain⟩ := Table.build_again hb
  exact ⟨t, hb, hfilled, hagain, hcheck⟩

end MoonBackend
