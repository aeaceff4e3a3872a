import MoonBackend.Proofs.Layout.Resolution
import MoonBackend.Proofs.Symbols.Declarable
import MoonBackend.Proofs.Symbols.Reorder

/-!
# Declaration order

Whether a program has a table does not hang on the order in which its classes and functions are
listed, and neither do the types and the call targets of the completed tree.
-/

namespace MoonBackend

open Layout

/-! ### Renumbering twice -/

section

variable (σ τ : ℕ → ℕ)

mutual

theorem Expr.retarget_retarget : ∀ e : Expr, (e.retarget σ).retarget τ = e.retarget (τ ∘ σ)
  | .missing | .int _ | .float _ | .var _ _ => by
    simp only [Expr.retarget]
  | .dot left _ _ => by
    simp only [Expr.retarget, Expr.retarget_retarget left]
  | .index base indices _ => by
    simp only [Expr.retarget, Expr.retarget_retarget base, Expr.retargetAll_retargetAll indices]
  | .call recv _ args _ _ _ => by
    simp only [Expr.retarget, Expr.retarget_retarget recv, Expr.retargetAll_retargetAll args,
      Option.map_map]
  | .unary _ operand _ => by
    simp only [Expr.retarget, Expr.retarget_retarget operand]
  | .binary _ left right _ => by
    simp only [Expr.retarget, Expr.retarget_retarget left, Expr.retarget_retarget right]

theorem Expr.retargetAll_retargetAll : ∀ es : List Expr,
    Expr.retargetAll τ (Expr.retargetAll σ es) = Expr.retargetAll (τ ∘ σ) es
  | [] => by
    simp only [Expr.retargetAll]
  | e :: es => by
    simp only [Expr.retargetAll, Expr.retarget_retarget e, Expr.retargetAll_retargetAll es]

end

mutual

theorem Stmt.retarget_retarget : ∀ st : Stmt, (st.retarget σ).retarget τ = st.retarget (τ ∘ σ)
  | .declare _ e | .write e | .read e | .ret e | .call e => by
    simp only [Stmt.retarget, Expr.retarget_retarget]
  | .assign _ _ => by
    simp only [Stmt.retarget, Expr.retarget_retarget]
  | .when _ body | .loop _ body => by
    simp only [Stmt.retarget, Expr.retarget_retarget, Stmt.retargetAll_retargetAll body]
  | .branch _ yes no => by
    simp only [Stmt.retarget, Expr.retarget_retarget, Stmt.retargetAll_retargetAll yes,
      Stmt.retargetAll_retargetAll no]

theorem Stmt.retargetAll_retargetAll : ∀ sts : List Stmt,
    Stmt.retargetAll τ (Stmt.retargetAll σ sts) = Stmt.retargetAll (τ ∘ σ) sts
  | [] => by
    simp only [Stmt.retargetAll]
  | st :: sts => by
    simp only [Stmt.retargetAll, Stmt.retarget_retarget st, Stmt.retargetAll_retargetAll sts]

end

end

mutual

theorem Expr.retarget_id : ∀ e : Expr, e.retarget id = e
  | .missing | .int _ | .float _ | .var _ _ => by
    simp only [Expr.retarget]
  | .dot left _ _ => by
    simp only [Expr.retarget, Expr.retarget_id left]
  | .index base indices _ => by
    simp only [Expr.retarget, Expr.retarget_id base, Expr.retargetAll_id indices]
  | .call recv _ args _ _ _ => by
    simp only [Expr.retarget, Expr.retarget_id recv, Expr.retargetAll_id args, Option.map_id_fun,
      id_eq]
  | .unary _ operand _ => by
    simp only [Expr.retarget, Expr.retarget_id operand]
  | .binary _ left right _ => by
    simp only [Expr.retarget, Expr.retarget_id left, Expr.retarget_id right]

theorem Expr.retargetAll_id : ∀ es : List Expr, Expr.retargetAll id es = es
  | [] => by
    simp only [Expr.retargetAll]
  | e :: es => by
    simp only [Expr.retargetAll, Expr.retarget_id e, Expr.retargetAll_id es]

end

mutual

theorem Stmt.retarget_id : ∀ st : Stmt, st.retarget id = st
  | .declare _ e | .write e | .read e | .ret e | .call e => by
    simp only [Stmt.retarget, Expr.retarget_id]
  | .assign _ _ => by
    simp only [Stmt.retarget, Expr.retarget_id]
  | .when _ body | .loop _ body => by
    simp only [Stmt.retarget, Expr.retarget_id, Stmt.retargetAll_id body]
  | .branch _ yes no => by
    simp only [Stmt.retarget, Expr.retarget_id, Stmt.retargetAll_id yes, Stmt.retargetAll_id no]

theorem Stmt.retargetAll_id : ∀ sts : List Stmt, Stmt.retargetAll id sts = sts
  | [] => by
    simp only [Stmt.retargetAll]
  | st :: sts => by
    simp only [Stmt.retargetAll, Stmt.retarget_id st, Stmt.retargetAll_id sts]

end

theorem Function.retarget_symm (σ : Equiv.Perm ℕ) (f : Function) :
    (f.retarget σ).retarget σ.symm = f := by
  have hid : σ.symm ∘ σ = id := σ.symm_comp_self
  rw [Function.retarget, Function.retarget, Stmt.retargetAll_retargetAll, hid, Stmt.retargetAll_id]

namespace Program.Reordered

variable {σ : Equiv.Perm ℕ} {p p' : Program}

theorem symm (h : Reordered σ p p') : Reordered σ.symm p' p := by
  refine ⟨h.classes.symm, fun i => ?_⟩
  have hi := h.functions (σ.symm i)
  rw [Equiv.apply_symm_apply] at hi
  rw [hi, Option.map_map]
  cases p.functions[σ.symm i]? with
  | none => rfl
  | some f => exact congrArg some (f.retarget_symm σ).symm

theorem exists_of_mem (h : Reordered σ p p') {f' : Function} (hf' : f' ∈ p'.functions) :
    ∃ f ∈ p.functions, f' = f.retarget σ := by
  obtain ⟨j, hj⟩ := List.mem_iff_getElem?.1 hf'
  have hi := h.functions (σ.symm j)
  rw [Equiv.apply_symm_apply, hj] at hi
  obtain ⟨f, hf, hff'⟩ := Option.map_eq_some_iff.1 hi.symm
  exact ⟨f, List.mem_of_getElem? hf, hff'.symm⟩

/-! ### Reordered programs have scopes alike -/

theorem variables_retarget (σ : ℕ → ℕ) (f : Function) : (f.retarget σ).variables = f.variables := by
  have hlocals := Scope.localsOfAll_retarget σ [] 0 f.body
  rw [Function.variables, Function.variables, ← Scope.map_decl_localsOfAll [] 0 f.body, ← hlocals,
    Scope.map_decl_localsOfAll]
  rfl

theorem declarable (h : Reordered σ p p') (hp : p.Declarable) : p'.Declarable := by
  have hnames : (p.classes.map ClassDecl.name).Perm (p'.classes.map ClassDecl.name) :=
    h.classes.map _
  refine ⟨hnames.nodup_iff.1 hp.classNames, fun c hc => ?_, fun c hc b hb => ?_, fun f' hf' => ?_,
    fun f' hf' => ?_⟩
  · exact hp.attributes c (h.classes.mem_iff.2 hc)
  · exact hnames.mem_iff.1 (hp.bases c (h.classes.mem_iff.2 hc) b hb)
  · obtain ⟨f, hf, rfl⟩ := h.exists_of_mem hf'
    exact fun hm => hnames.mem_iff.1 (hp.owners f hf hm)
  · obtain ⟨f, hf, rfl⟩ := h.exists_of_mem hf'
    rw [variables_retarget]
    exact hp.locals f hf

end Program.Reordered

namespace Table

variable {σ : Equiv.Perm ℕ} {p p' : Program}

theorem exists_completeFunctions_iff {t : Table} (i : ℕ) (fs : List Function) :
    (∃ fs', t.completeFunctions i fs = .ok fs') ↔
      ∀ (j : ℕ) f, fs[j]? = some f → ∃ body, t.completeStmts (i + j) f.body = .ok body := by
  induction fs generalizing i with
  | nil => exact ⟨fun _ j f hf => by simp at hf, fun _ => ⟨[], rfl⟩⟩
  | cons f fs ih =>
    constructor
    · rintro ⟨fs', h⟩ j g hg
      obtain ⟨body, hbody, -⟩ := (of_completeFunctions h).2 j g hg
      exact ⟨body, hbody⟩
    · intro h
      obtain ⟨body, hbody⟩ := h 0 f rfl
      obtain ⟨fs', hfs'⟩ := (ih (i + 1)).2 fun j g hg => by
        obtain ⟨body, hbody⟩ := h (j + 1) g (by simpa using hg)
        exact ⟨body, by rwa [show i + 1 + j = i + (j + 1) by omega]⟩
      exact ⟨_, completeFunctions_cons.2 ⟨body, fs', hbody, hfs', rfl⟩⟩

theorem exists_build_reordered (h : Program.Reordered σ p p') (hb : ∃ t, build p = .ok t) :
    ∃ t', build p' = .ok t' := by
  obtain ⟨t, hb⟩ := hb
  obtain ⟨t₀, fs, hscopes, hfs, -⟩ := build_eq_ok.1 hb
  obtain ⟨t₀', hscopes'⟩ := exists_scopes_iff.2 (h.declarable (exists_scopes_iff.1 ⟨t₀, hscopes⟩))
  have hm := matches_reordered h (declares_of_scopes hscopes) (declares_of_scopes hscopes')
    (hasScopes hscopes) (hasScopes hscopes')
  obtain ⟨fs', hfs'⟩ := (exists_completeFunctions_iff (t := t₀') 0 p'.functions).2
    fun j f' hf' => by
      have hi := h.functions (σ.symm j)
      rw [Equiv.apply_symm_apply, hf'] at hi
      obtain ⟨f, hf, rfl⟩ := Option.map_eq_some_iff.1 hi.symm
      obtain ⟨body, hbody, -⟩ := (of_completeFunctions hfs).2 _ f hf
      have hdone := hm.completeStmts hbody
      rw [Nat.zero_add, Equiv.apply_symm_apply] at hdone
      exact ⟨_, by rw [Nat.zero_add]; exact hdone⟩
  exact ⟨_, build_eq_ok.2 ⟨t₀', fs', hscopes', hfs', rfl⟩⟩

/-- A program and one that lists its declarations in another order both have tables or neither has,
and their trees are completed alike: every expression has the same type, and every call means the
same function. -/
theorem build_reordered (h : Program.Reordered σ p p') :
    ((∃ t, build p = .ok t) ↔ ∃ t', build p' = .ok t')
      ∧ ∀ t t', build p = .ok t → build p' = .ok t' → Program.Reordered σ t.program t'.program := by
  refine ⟨⟨exists_build_reordered h, exists_build_reordered h.symm⟩, fun t t' hb hb' => ?_⟩
  obtain ⟨t₀, fs, hscopes, hfs, rfl⟩ := build_eq_ok.1 hb
  obtain ⟨t₀', fs', hscopes', hfs', rfl⟩ := build_eq_ok.1 hb'
  have hm := matches_reordered h (declares_of_scopes hscopes) (declares_of_scopes hscopes')
    (hasScopes hscopes) (hasScopes hscopes')
  exact ⟨h.classes, functions_reordered h hm hfs hfs'⟩

end Table

/-- A call of a method that the class of its receiver inherits. -/
def shapes : Program :=
  ⟨[⟨"Shape", [], [⟨"id", .integer⟩]⟩, ⟨"Point", ["Shape"], [⟨"x", .float⟩]⟩],
    [{ name := "area", className := "Shape", isConstructor := false, params := [],
       returns := .integer, body := [.ret (.var "id" .void)] },
     { name := "main", className := "", isConstructor := false, params := [], returns := .void,
       body := [.declare ⟨"p", .object "Point"⟩ .missing,
         .write (.call (.var "p" .void) "area" [] false .void none)] }]⟩

def shapesReversed : Program := ⟨shapes.classes.reverse, shapes.functions.reverse⟩

theorem build_reordered_shapes : ∃ t t', Table.build shapes = .ok t
    ∧ Table.build shapesReversed = .ok t'
    ∧ Program.Reordered (Equiv.swap 0 1) shapes shapesReversed
    ∧ Program.Reordered (Equiv.swap 0 1) t.program t'.program := by
  have hre : Program.Reordered (Equiv.swap 0 1) shapes shapesReversed := by
    refine ⟨(List.reverse_perm _).symm, fun i => ?_⟩
    match i with
    | 0 =>
      rw [Equiv.swap_apply_left]
      cbv
    | 1 =>
      rw [Equiv.swap_apply_right]
      cbv
    | i + 2 =>
      rw [Equiv.swap_apply_of_ne_of_ne (by omega) (by omega)]
      rfl
  obtain ⟨t, hb, -⟩ := of_tableChecks shapes (fun _ => true) (by cbv)
  obtain ⟨hiff, hsame⟩ := Table.build_reordered hre
  obtain ⟨t', hb'⟩ := hiff.1 ⟨t, hb⟩
  exact ⟨t, t', hb, hb', hre, hsame t t' hb hb'⟩

end MoonBackend
