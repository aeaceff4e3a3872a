import MoonBackend.Proofs.Symbols.Built

/-!
# Completing one node

What it means for each kind of expression and statement that its completion succeeds: which parts
are completed, what is looked up, and which type and which function the node is given.
-/

namespace MoonBackend

namespace Table

/-! ### What a call means -/

/-- A call with these completed parts means the function at a position. -/
def Means (t : Table) (caller : Nat) (recv : Expr) (name : String) (types : List Ty) (isNew : Bool)
    (k : Nat) : Prop :=
  ∃ shown found, t.candidates caller shown recv name isNew = .ok found
    ∧ t.pickOverload shown name types found = .ok k

def callType (t : Table) (name : String) (isNew : Bool) (k : Nat) : Ty :=
  if isNew then .object name else ((t.signature? k).map Signature.returns).getD .void

/-- The function of a call: the one that it is tied to, else the one that it means. -/
def Targets (t : Table) (caller : Nat) (recv : Expr) (name : String) (types : List Ty)
    (isNew : Bool) : Option Nat → Nat → Prop
  | some j, k => k = j
  | none, k => t.Means caller recv name types isNew k

section

variable {t : Table} {i : Nat}

theorem candidates_congr {shown : String} (shown' : String) {recv : Expr} {name : String}
    {isNew : Bool} {found : List Nat} (h : t.candidates i shown recv name isNew = .ok found) :
    t.candidates i shown' recv name isNew = .ok found := by
  unfold candidates at h ⊢
  split
  · rename_i hnew
    rw [if_pos hnew] at h
    split at h
    · cases h
    · exact h
  · rename_i hnew
    rw [if_neg hnew] at h
    split
    · rename_i hrecv
      rw [if_pos hrecv] at h
      split at h
      · exact h
      · cases h
    · rename_i hrecv
      rw [if_neg hrecv] at h
      exact h

theorem pickOverload_congr {shown : String} (shown' : String) {name : String} {types : List Ty}
    {found : List Nat} {k : Nat} (h : t.pickOverload shown name types found = .ok k) :
    t.pickOverload shown' name types found = .ok k := by
  unfold pickOverload at h ⊢
  simp only at h ⊢
  split at h
  · exact h
  · exact h
  · split at h
    · cases h
    · cases h

theorem means_iff {shown : String} {recv : Expr} {name : String} {types : List Ty} {isNew : Bool}
    {k : Nat} : t.Means i recv name types isNew k ↔
      ∃ found, t.candidates i shown recv name isNew = .ok found
        ∧ t.pickOverload shown name types found = .ok k := by
  constructor
  · rintro ⟨shown', found, hfound, hk⟩
    exact ⟨found, candidates_congr shown hfound, pickOverload_congr shown hk⟩
  · rintro ⟨found, hfound, hk⟩
    exact ⟨shown, found, hfound, hk⟩

/-! ### Expressions -/

variable {e e' : Expr} {type : Ty}

theorem complete_missing : t.complete i .missing = .ok e' ↔ False := by
  rw [complete]
  simp

theorem complete_int {v : Int64} : t.complete i (.int v) = .ok e' ↔ e' = .int v := by
  rw [complete, Except.ok.injEq, eq_comm]

theorem complete_float {text : String} :
    t.complete i (.float text) = .ok e' ↔ e' = .float text := by
  rw [complete, Except.ok.injEq, eq_comm]

theorem complete_var {name : String} : t.complete i (.var name type) = .ok e' ↔
    ∃ l b, t.resolveName i name = some (l, b) ∧ e' = .var name (type.orElse l.entry.type) := by
  rw [complete]
  cases hl : t.resolveName i name with
  | none => simp
  | some found =>
    obtain ⟨l, b⟩ := found
    simp only [Except.ok.injEq, Option.some.injEq, Prod.mk.injEq]
    constructor
    · intro h
      exact ⟨l, b, ⟨rfl, rfl⟩, h.symm⟩
    · rintro ⟨_, _, ⟨rfl, rfl⟩, h⟩
      exact h.symm

theorem complete_dot {left : Expr} {member : String} :
    t.complete i (.dot left member type) = .ok e' ↔
      ∃ left' className l, t.complete i left = .ok left' ∧ left'.type = .object className
        ∧ t.member? className member = some l
        ∧ e' = .dot left' member (type.orElse l.entry.type) := by
  rw [complete, except_bind_eq_ok]
  refine exists_congr fun left' => ?_
  constructor
  · rintro ⟨hleft, h⟩
    simp only at h
    split at h
    · rename_i className htype
      split at h
      · rename_i l hl
        exact ⟨className, l, hleft, htype, hl, (Except.ok.inj h).symm⟩
      · cases h
    · cases h
  · rintro ⟨className, l, hleft, htype, hl, rfl⟩
    refine ⟨hleft, ?_⟩
    simp only [htype, Ty.object, Ty.scalar, hl]
    rfl

theorem complete_index {base : Expr} {indices : List Expr} :
    t.complete i (.index base indices type) = .ok e' ↔
      ∃ base' indices', t.complete i base = .ok base' ∧ t.completeAll i indices = .ok indices'
        ∧ indices' ≠ [] ∧ indices'.length ≤ base'.type.dims.length
        ∧ e' = .index base' indices'
          (type.orElse ⟨base'.type.base, base'.type.dims.drop indices'.length⟩) := by
  rw [complete, except_bind_eq_ok]
  refine exists_congr fun base' => ?_
  rw [except_bind_eq_ok, ← exists_and_left]
  refine exists_congr fun indices' => and_congr_right fun _ => and_congr_right fun _ => ?_
  by_cases hc : (indices'.isEmpty || decide (base'.type.dims.length < indices'.length)) = true
  · simp only [hc, if_true]
    refine Iff.intro (fun h => by cases h) ?_
    rintro ⟨hne, hle, -⟩
    simp only [Bool.or_eq_true, List.isEmpty_iff, decide_eq_true_eq] at hc
    rcases hc with hnil | hlt
    · exact absurd hnil hne
    · omega
  · simp only [hc, Bool.false_eq_true, if_false]
    simp only [Bool.or_eq_true, List.isEmpty_iff, decide_eq_true_eq, not_or, Nat.not_lt] at hc
    show Except.ok _ = Except.ok e' ↔ _
    rw [Except.ok.injEq]
    exact ⟨fun h => ⟨hc.1, hc.2, h.symm⟩, fun h => h.2.2.symm⟩

theorem complete_call {recv : Expr} {name : String} {args : List Expr} {isNew : Bool}
    {target : Option Nat} :
    t.complete i (.call recv name args isNew type target) = .ok e' ↔
      ∃ recv' args' k, t.completeReceiver i recv = .ok recv' ∧ t.completeAll i args = .ok args'
        ∧ t.Targets i recv' name (args'.map Expr.type) isNew target k
        ∧ e' = .call recv' name args' isNew (type.orElse (t.callType name isNew k)) (some k) := by
  rw [complete, except_bind_eq_ok]
  refine exists_congr fun recv' => ?_
  rw [except_bind_eq_ok, ← exists_and_left]
  refine exists_congr fun args' => ?_
  cases target with
  | some j =>
    constructor
    · rintro ⟨hrecv, hargs, h⟩
      exact ⟨j, hrecv, hargs, rfl, (Except.ok.inj h).symm⟩
    · rintro ⟨k, hrecv, hargs, rfl, rfl⟩
      exact ⟨hrecv, hargs, rfl⟩
  | none =>
    simp only [Targets]
    constructor
    · rintro ⟨hrecv, hargs, h⟩
      obtain ⟨found, hfound, h⟩ := except_bind_eq_ok.1 h
      obtain ⟨k, hk, h⟩ := except_bind_eq_ok.1 h
      exact ⟨k, hrecv, hargs, ⟨_, found, hfound, hk⟩, (Except.ok.inj h).symm⟩
    · rintro ⟨k, hrecv, hargs, hmeans, rfl⟩
      obtain ⟨found, hfound, hk⟩ := means_iff.1 hmeans
      exact ⟨hrecv, hargs, except_bind_eq_ok.2 ⟨found, hfound, except_bind_eq_ok.2 ⟨k, hk, rfl⟩⟩⟩

theorem complete_unary {op : UnaryOp} {operand : Expr} :
    t.complete i (.unary op operand type) = .ok e' ↔
      ∃ operand', t.complete i operand = .ok operand'
        ∧ e' = .unary op operand' (type.orElse (if op = .not then .integer else operand'.type)) := by
  rw [complete, except_bind_eq_ok]
  refine exists_congr fun operand' => and_congr_right fun _ => ?_
  show Except.ok _ = Except.ok e' ↔ _
  rw [Except.ok.injEq, eq_comm]

theorem complete_binary {op : BinaryOp} {left right : Expr} :
    t.complete i (.binary op left right type) = .ok e' ↔
      ∃ left' right', t.complete i left = .ok left' ∧ t.complete i right = .ok right'
        ∧ e' = .binary op left' right' (type.orElse (if op.isTruth then .integer else left'.type)) := by
  rw [complete, except_bind_eq_ok]
  refine exists_congr fun left' => ?_
  rw [except_bind_eq_ok, ← exists_and_left]
  refine exists_congr fun right' => and_congr_right fun _ => and_congr_right fun _ => ?_
  show Except.ok _ = Except.ok e' ↔ _
  rw [Except.ok.injEq, eq_comm]

theorem completeReceiver_eq_ok : t.completeReceiver i e = .ok e' ↔
    (e = .missing ∧ e' = .missing) ∨ t.complete i e = .ok e' := by
  cases e with
  | missing =>
    rw [completeReceiver, complete_missing, Except.ok.injEq, eq_comm]
    simp
  | _ =>
    rw [completeReceiver]
    · simp
    · simp

theorem completeReceiver_missing : t.completeReceiver i .missing = .ok e' ↔ e' = .missing := by
  rw [completeReceiver, Except.ok.injEq, eq_comm]

theorem completeAll_nil {es' : List Expr} : t.completeAll i [] = .ok es' ↔ es' = [] := by
  rw [completeAll, Except.ok.injEq, eq_comm]

theorem completeAll_cons {es es' : List Expr} : t.completeAll i (e :: es) = .ok es' ↔
    ∃ e₁ es₁, t.complete i e = .ok e₁ ∧ t.completeAll i es = .ok es₁ ∧ es' = e₁ :: es₁ := by
  rw [completeAll, except_bind_eq_ok]
  refine exists_congr fun e₁ => ?_
  rw [except_bind_eq_ok, ← exists_and_left]
  refine exists_congr fun es₁ => and_congr_right fun _ => and_congr_right fun _ => ?_
  show Except.ok _ = Except.ok es' ↔ _
  rw [Except.ok.injEq, eq_comm]

/-! ### Statements -/

variable {st' : Stmt} {sts sts' : List Stmt}

theorem completeStmt_declare {d : VarDecl} : t.completeStmt i (.declare d e) = .ok st' ↔
    ∃ e', t.completeReceiver i e = .ok e' ∧ st' = .declare d e' := by
  cases e with
  | missing =>
    rw [completeStmt, completeReceiver, Except.ok.injEq, eq_comm]
    simp
  | _ =>
    rw [completeStmt, completeReceiver, except_bind_eq_ok]
    · refine exists_congr fun e' => and_congr_right fun _ => ?_
      show Except.ok _ = Except.ok st' ↔ _
      rw [Except.ok.injEq, eq_comm]
    · simp
    · simp

theorem completeStmt_ret : t.completeStmt i (.ret e) = .ok st' ↔
    ∃ e', t.completeReceiver i e = .ok e' ∧ st' = .ret e' := by
  cases e with
  | missing =>
    rw [completeStmt, completeReceiver, Except.ok.injEq, eq_comm]
    simp
  | _ =>
    rw [completeStmt, completeReceiver, except_bind_eq_ok]
    · refine exists_congr fun e' => and_congr_right fun _ => ?_
      show Except.ok _ = Except.ok st' ↔ _
      rw [Except.ok.injEq, eq_comm]
    · simp
    · simp

theorem completeStmt_assign {target : Expr} : t.completeStmt i (.assign target e) = .ok st' ↔
    ∃ target' e', t.complete i target = .ok target' ∧ t.complete i e = .ok e'
      ∧ st' = .assign target' e' := by
  rw [completeStmt, except_bind_eq_ok]
  refine exists_congr fun target' => ?_
  rw [except_bind_eq_ok, ← exists_and_left]
  refine exists_congr fun e' => and_congr_right fun _ => and_congr_right fun _ => ?_
  show Except.ok _ = Except.ok st' ↔ _
  rw [Except.ok.injEq, eq_comm]

theorem completeStmt_when : t.completeStmt i (.when e sts) = .ok st' ↔
    ∃ e' sts', t.complete i e = .ok e' ∧ t.completeStmts i sts = .ok sts'
      ∧ st' = .when e' sts' := by
  rw [completeStmt, except_bind_eq_ok]
  refine exists_congr fun e' => ?_
  rw [except_bind_eq_ok, ← exists_and_left]
  refine exists_congr fun sts' => and_congr_right fun _ => and_congr_right fun _ => ?_
  show Except.ok _ = Except.ok st' ↔ _
  rw [Except.ok.injEq, eq_comm]

theorem completeStmt_loop : t.completeStmt i (.loop e sts) = .ok st' ↔
    ∃ e' sts', t.complete i e = .ok e' ∧ t.completeStmts i sts = .ok sts'
      ∧ st' = .loop e' sts' := by
  rw [completeStmt, except_bind_eq_ok]
  refine exists_congr fun e' => ?_
  rw [except_bind_eq_ok, ← exists_and_left]
  refine exists_congr fun sts' => and_congr_right fun _ => and_congr_right fun _ => ?_
  show Except.ok _ = Except.ok st' ↔ _
  rw [Except.ok.injEq, eq_comm]

theorem completeStmt_branch {no : List Stmt} : t.completeStmt i (.branch e sts no) = .ok st' ↔
    ∃ e' sts' no', t.complete i e = .ok e' ∧ t.completeStmts i sts = .ok sts'
      ∧ t.completeStmts i no = .ok no' ∧ st' = .branch e' sts' no' := by
  rw [completeStmt, except_bind_eq_ok]
  refine exists_congr fun e' => ?_
  rw [except_bind_eq_ok, ← exists_and_left]
  refine exists_congr fun sts' => ?_
  rw [except_bind_eq_ok, ← exists_and_left, ← exists_and_left]
  refine exists_congr fun no' =>
    and_congr_right fun _ => and_congr_right fun _ => and_congr_right fun _ => ?_
  show Except.ok _ = Except.ok st' ↔ _
  rw [Except.ok.injEq, eq_comm]

theorem completeStmt_write : t.completeStmt i (.write e) = .ok st' ↔
    ∃ e', t.complete i e = .ok e' ∧ st' = .write e' := by
  rw [completeStmt, except_bind_eq_ok]
  refine exists_congr fun e' => and_congr_right fun _ => ?_
  show Except.ok _ = Except.ok st' ↔ _
  rw [Except.ok.injEq, eq_comm]

theorem completeStmt_read : t.completeStmt i (.read e) = .ok st' ↔
    ∃ e', t.complete i e = .ok e' ∧ st' = .read e' := by
  rw [completeStmt, except_bind_eq_ok]
  refine exists_congr fun e' => and_congr_right fun _ => ?_
  show Except.ok _ = Except.ok st' ↔ _
  rw [Except.ok.injEq, eq_comm]

theorem completeStmt_call : t.completeStmt i (.call e) = .ok st' ↔
    ∃ e', t.complete i e = .ok e' ∧ st' = .call e' := by
  rw [completeStmt, except_bind_eq_ok]
  refine exists_congr fun e' => and_congr_right fun _ => ?_
  show Except.ok _ = Except.ok st' ↔ _
  rw [Except.ok.injEq, eq_comm]

theorem completeStmts_nil : t.completeStmts i [] = .ok sts' ↔ sts' = [] := by
  rw [completeStmts, Except.ok.injEq, eq_comm]

theorem completeStmts_cons {st : Stmt} : t.completeStmts i (st :: sts) = .ok sts' ↔
    ∃ st₁ sts₁, t.completeStmt i st = .ok st₁ ∧ t.completeStmts i sts = .ok sts₁
      ∧ sts' = st₁ :: sts₁ := by
  rw [completeStmts, except_bind_eq_ok]
  refine exists_congr fun st₁ => ?_
  rw [except_bind_eq_ok, ← exists_and_left]
  refine exists_congr fun sts₁ => and_congr_right fun _ => and_congr_right fun _ => ?_
  show Except.ok _ = Except.ok sts' ↔ _
  rw [Except.ok.injEq, eq_comm]

/-! ### Functions and programs -/

theorem completeFunctions_nil {fs' : List Function} :
    t.completeFunctions i [] = .ok fs' ↔ fs' = [] := by
  rw [completeFunctions, Except.ok.injEq, eq_comm]

theorem completeFunctions_cons {f : Function} {fs fs' : List Function} :
    t.completeFunctions i (f :: fs) = .ok fs' ↔
      ∃ body fs₁, t.completeStmts i f.body = .ok body ∧ t.completeFunctions (i + 1) fs = .ok fs₁
        ∧ fs' = { f with body := body } :: fs₁ := by
  rw [completeFunctions]
  cases t.completeStmts i f.body with
  | error cause => simp
  | ok body =>
    simp only [except_bind_eq_ok, Except.ok.injEq]
    constructor
    · rintro ⟨fs₁, hfs, h⟩
      exact ⟨body, fs₁, rfl, hfs, (Except.ok.inj h).symm⟩
    · rintro ⟨_, fs₁, rfl, hfs, rfl⟩
      exact ⟨fs₁, hfs, rfl⟩

theorem build_eq_ok {p : Program} : build p = .ok t ↔
    ∃ t₀ fs, scopes p = .ok t₀ ∧ t₀.completeFunctions 0 p.functions = .ok fs
      ∧ t = { t₀ with program := { p with functions := fs } } := by
  rw [build, except_bind_eq_ok]
  refine exists_congr fun t₀ => ?_
  rw [except_bind_eq_ok, ← exists_and_left]
  refine exists_congr fun fs => and_congr_right fun _ => and_congr_right fun _ => ?_
  show Except.ok _ = Except.ok t ↔ _
  rw [Except.ok.injEq, eq_comm]

end

end Table

end MoonBackend
