import MoonBackend.Proofs.Integer.Emission
import MoonBackend.Proofs.Symbols.Built

/-!
# Completion of the integer language

Where every name stands for an integer, completion gives every expression the type of an integer and
changes nothing else, and it succeeds only if every name is declared.
-/

namespace MoonBackend.Integer

def Declared (known : String → Prop) : Expr → Prop
  | .var name _ => known name
  | .unary _ e _ => Declared known e
  | .binary _ l r _ => Declared known l ∧ Declared known r
  | _ => True

mutual

def DeclaredStmt (known : String → Prop) : Stmt → Prop
  | .declare d init => known d.name ∧ Declared known init
  | .assign target e => Declared known target ∧ Declared known e
  | .when cond body => Declared known cond ∧ DeclaredStmts known body
  | .branch cond yes no =>
    Declared known cond ∧ DeclaredStmts known yes ∧ DeclaredStmts known no
  | .loop cond body => Declared known cond ∧ DeclaredStmts known body
  | .write e => Declared known e
  | .read target => Declared known target
  | .ret _ => True
  | .call _ => True

def DeclaredStmts (known : String → Prop) : List Stmt → Prop
  | [] => True
  | st :: sts => DeclaredStmt known st ∧ DeclaredStmts known sts

end

/-- In the first function every name stands for a known integer. -/
def Knows (t : Table) (known : String → Prop) : Prop :=
  ∀ name found, t.resolveName 0 name = some found → found.1.entry.type = .integer ∧ known name

theorem void_orElse (type : Ty) : Ty.void.orElse type = type := rfl

section
variable {t : Table} {known : String → Prop}

theorem complete_typed (hk : Knows t known) {e : Expr} (he : IsExpr e) :
    ∀ e', t.complete 0 e = .ok e' → e' = typed e ∧ Declared known e := by
  refine IsExpr.induction (motive := fun e => ∀ e', t.complete 0 e = .ok e' →
    e' = typed e ∧ Declared known e) ?_ ?_ ?_ ?_ e he
  · intro v _ _ e' h
    rw [Table.complete] at h
    exact ⟨(Except.ok.inj h).symm, trivial⟩
  · intro name e' h
    simp only [Table.complete] at h
    cases hr : t.resolveName 0 name with
    | none =>
      rw [hr] at h
      cases h
    | some found =>
      obtain ⟨htype, hname⟩ := hk name found hr
      rw [hr] at h
      obtain rfl := Except.ok.inj h
      refine ⟨?_, hname⟩
      rw [void_orElse, htype]
      rfl
  · intro op e he ih e' h
    simp only [Table.complete] at h
    obtain ⟨operand, h1, h⟩ := except_bind_eq_ok.1 h
    obtain ⟨rfl, hd⟩ := ih operand h1
    obtain rfl := Except.ok.inj h
    refine ⟨?_, hd⟩
    rw [void_orElse, type_typed he, ite_self]
    rfl
  · intro op l r hl hr ihl ihr e' h
    simp only [Table.complete] at h
    obtain ⟨left, h1, h⟩ := except_bind_eq_ok.1 h
    obtain ⟨right, h2, h⟩ := except_bind_eq_ok.1 h
    obtain ⟨rfl, hdl⟩ := ihl left h1
    obtain ⟨rfl, hdr⟩ := ihr right h2
    obtain rfl := Except.ok.inj h
    refine ⟨?_, hdl, hdr⟩
    rw [void_orElse, type_typed hl, ite_self]
    rfl

theorem complete_target (hk : Knows t known) {target target' : Expr} (ht : IsTarget target)
    (h : t.complete 0 target = .ok target') : target' = typed target ∧ Declared known target := by
  cases target with
  | var name type =>
    have he : IsExpr (.var name type) := ht
    exact complete_typed hk he target' h
  | _ => exact absurd ht (by simp [IsTarget])

mutual

theorem completeStmt_typed (hk : Knows t known) {path : Path} {st st' : Stmt} (hst : IsStmt st)
    (hl : ∀ e ∈ Scope.localsOf path st, known e.name) (h : t.completeStmt 0 st = .ok st') :
    st' = typedStmt st ∧ DeclaredStmt known st := by
  cases st with
  | declare d init =>
    have hname : known d.name := by
      have hmem := hl (Scope.localEntry path d) (by simp [Scope.localsOf])
      have hne : ¬ (d.name == "") = true := by simpa using hst.1.named
      rw [Scope.localEntry, if_neg hne] at hmem
      exact hmem
    rcases hst.2 with rfl | he
    · simp only [Table.completeStmt] at h
      obtain rfl := Except.ok.inj h
      exact ⟨rfl, hname, trivial⟩
    · have hm : t.completeStmt 0 (.declare d init)
          = (do return .declare d (← t.complete 0 init)) := by
        cases init with
        | missing => exact absurd he (by simp [IsExpr])
        | _ => simp only [Table.completeStmt]
      rw [hm] at h
      obtain ⟨init', h1, h⟩ := except_bind_eq_ok.1 h
      obtain ⟨rfl, hd⟩ := complete_typed hk he init' h1
      obtain rfl := Except.ok.inj h
      exact ⟨rfl, hname, hd⟩
  | assign target e =>
    simp only [Table.completeStmt] at h
    obtain ⟨target', h1, h⟩ := except_bind_eq_ok.1 h
    obtain ⟨e', h2, h⟩ := except_bind_eq_ok.1 h
    obtain ⟨rfl, hdt⟩ := complete_target hk hst.1 h1
    obtain ⟨rfl, hde⟩ := complete_typed hk hst.2 e' h2
    obtain rfl := Except.ok.inj h
    exact ⟨rfl, hdt, hde⟩
  | «when» cond body =>
    simp only [Table.completeStmt] at h
    obtain ⟨cond', h1, h⟩ := except_bind_eq_ok.1 h
    obtain ⟨body', h2, h⟩ := except_bind_eq_ok.1 h
    obtain ⟨rfl, hdc⟩ := complete_typed hk hst.1 cond' h1
    obtain ⟨rfl, hdb⟩ := completeStmts_typed hk hst.2 hl h2
    obtain rfl := Except.ok.inj h
    exact ⟨rfl, hdc, hdb⟩
  | branch cond yes no =>
    simp only [Table.completeStmt] at h
    obtain ⟨cond', h1, h⟩ := except_bind_eq_ok.1 h
    obtain ⟨yes', h2, h⟩ := except_bind_eq_ok.1 h
    obtain ⟨no', h3, h⟩ := except_bind_eq_ok.1 h
    obtain ⟨rfl, hdc⟩ := complete_typed hk hst.1 cond' h1
    obtain ⟨rfl, hdy⟩ := completeStmts_typed hk hst.2.1
      (fun e he => hl e (List.mem_append_left _ he)) h2
    obtain ⟨rfl, hdn⟩ := completeStmts_typed hk hst.2.2
      (fun e he => hl e (List.mem_append_right _ he)) h3
    obtain rfl := Except.ok.inj h
    exact ⟨rfl, hdc, hdy, hdn⟩
  | loop cond body =>
    simp only [Table.completeStmt] at h
    obtain ⟨cond', h1, h⟩ := except_bind_eq_ok.1 h
    obtain ⟨body', h2, h⟩ := except_bind_eq_ok.1 h
    obtain ⟨rfl, hdc⟩ := complete_typed hk hst.1 cond' h1
    obtain ⟨rfl, hdb⟩ := completeStmts_typed hk hst.2 hl h2
    obtain rfl := Except.ok.inj h
    exact ⟨rfl, hdc, hdb⟩
  | write e =>
    simp only [Table.completeStmt] at h
    obtain ⟨e', h1, h⟩ := except_bind_eq_ok.1 h
    obtain ⟨rfl, hd⟩ := complete_typed hk hst e' h1
    obtain rfl := Except.ok.inj h
    exact ⟨rfl, hd⟩
  | read target =>
    simp only [Table.completeStmt] at h
    obtain ⟨target', h1, h⟩ := except_bind_eq_ok.1 h
    obtain ⟨rfl, hd⟩ := complete_target hk hst h1
    obtain rfl := Except.ok.inj h
    exact ⟨rfl, hd⟩
  | ret e =>
    have he : e = .missing := hst
    subst he
    simp only [Table.completeStmt] at h
    obtain rfl := Except.ok.inj h
    exact ⟨rfl, trivial⟩
  | call e => exact absurd hst (by simp [IsStmt])

/-- Completion types statements and finds all their names declared. -/
theorem completeStmts_typed (hk : Knows t known) {path : Path} {i : Nat} {sts sts' : List Stmt}
    (hst : AreStmts sts) (hl : ∀ e ∈ Scope.localsOfAll path i sts, known e.name)
    (h : t.completeStmts 0 sts = .ok sts') : sts' = typedStmts sts ∧ DeclaredStmts known sts := by
  cases sts with
  | nil =>
    simp only [Table.completeStmts] at h
    exact ⟨(Except.ok.inj h).symm, trivial⟩
  | cons st sts =>
    simp only [Table.completeStmts] at h
    obtain ⟨st', h1, h⟩ := except_bind_eq_ok.1 h
    obtain ⟨rest, h2, h⟩ := except_bind_eq_ok.1 h
    obtain ⟨rfl, hd1⟩ := completeStmt_typed hk hst.1
      (fun e he => hl e (List.mem_append_left _ he)) h1
    obtain ⟨rfl, hd2⟩ := completeStmts_typed hk hst.2
      (fun e he => hl e (List.mem_append_right _ he)) h2
    obtain rfl := Except.ok.inj h
    exact ⟨rfl, hd1, hd2⟩

end

end

end MoonBackend.Integer
