import MoonBackend.Proofs.Emit.Standing
import MoonBackend.Proofs.Symbols.Declarable

/-!
# The types that a program declares

The attributes, parameters and local variables of a resolved layout have the types that the program
gives them; only unnamed slots have types of their own.
-/

namespace MoonBackend

def Function.declaredTypes (f : Function) : List Ty :=
  f.returns :: (f.params ++ Stmt.localsOf f.body).map VarDecl.type

def Program.declaredTypes (p : Program) : List Ty :=
  p.classes.flatMap (fun c => c.attributes.map VarDecl.type)
    ++ p.functions.flatMap Function.declaredTypes

section

variable {p : Program}

theorem mem_declaredTypes_of_class {c : ClassDecl} (hc : c ∈ p.classes) {d : VarDecl}
    (hd : d ∈ c.attributes) : d.type ∈ p.declaredTypes :=
  List.mem_append_left _ (List.mem_flatMap.2 ⟨c, hc, List.mem_map_of_mem hd⟩)

theorem mem_declaredTypes_of_function {f : Function} (hf : f ∈ p.functions) {t : Ty}
    (ht : t ∈ f.declaredTypes) : t ∈ p.declaredTypes :=
  List.mem_append_right _ (List.mem_flatMap.2 ⟨f, hf, ht⟩)

variable {t t' : Table}

theorem Table.Declares.type_mem (h : Table.Declares p t) {s : Scope} (hs : s ∈ t.classes)
    {e : Entry} (he : e ∈ s.entries) (hk : e.kind.isStorage = true) : e.type ∈ p.declaredTypes := by
  obtain ⟨c, hc, hd, -⟩ := h.of_mem hs
  have hstored : e.outline ∈ s.storage.map Entry.outline :=
    List.mem_map_of_mem (List.mem_filter.2 ⟨he, hk⟩)
  rw [hd.storage] at hstored
  obtain ⟨d, hmem, hout⟩ := List.mem_map.1 hstored
  have htype : d.type = e.type := congrArg (fun o => o.2.2) hout
  exact htype ▸ mem_declaredTypes_of_class hc hmem

theorem Layout.mem_withSlots {entryName : String} {k : ℕ} {s : Scope} {e : Entry}
    (he : e ∈ (withSlots t entryName k s).entries)
    (hk : e.kind ∈ [.member, .parameter, .localVar]) : e ∈ s.entries := by
  rcases List.mem_append.1 he with he | he
  · exact he
  · exfalso
    split at he
    · obtain ⟨d, hd, rfl⟩ := List.mem_map.1 he
      exact (kind_ofFunction hd).2 hk
    · cases he

theorem Layout.type_mem_of_later {entryName : String} (hb : Table.build p = .ok t)
    (hl : (supplied t entryName).Later t') {s : Scope} (hs : s ∈ t'.functions) {e : Entry}
    (he : e ∈ s.entries) (hk : e.kind ∈ [.member, .parameter, .localVar]) :
    e.type ∈ p.declaredTypes := by
  obtain ⟨s₁, hs₁, hlater⟩ := mem_right hl.functions hs
  obtain ⟨k, hlt, rfl⟩ := List.mem_mapIdx.1 hs₁
  obtain ⟨t₀, hscopes, -, ht⟩ := Table.of_build hb
  obtain ⟨f, hf, hof⟩ := hscopes.functionScope k t.functions[k] (by
    rw [← List.getElem?_eq_getElem hlt, ht])
  obtain ⟨e₁, he₁, hlate⟩ := mem_right hlater.entries he
  rw [hlate.kind] at hk
  rw [hlate.type]
  have hdeclared := mem_withSlots he₁ hk
  rw [hof.entries, List.mem_append] at hdeclared
  refine mem_declaredTypes_of_function (List.mem_of_getElem? hf) (List.mem_cons_of_mem _ ?_)
  rcases hdeclared with hparam | hlocal
  · obtain ⟨d, hd, rfl⟩ := List.mem_map.1 hparam
    exact List.mem_map_of_mem (List.mem_append_left _ hd)
  · have hmem : VarDecl.mk e₁.name e₁.type ∈ Stmt.localsOf f.body := by
      rw [← Scope.map_decl_localsOfAll [] 0]
      exact List.mem_map.2 ⟨e₁, hlocal, rfl⟩
    exact List.mem_map.2 ⟨_, List.mem_append_right _ hmem, rfl⟩

end

/-! ### Names of local variables -/

section

variable {t : Table} {i : ℕ}

mutual

theorem Table.locals_completeStmt {st st₁ : Stmt} (h : t.completeStmt i st = .ok st₁) :
    st₁.locals = st.locals := by
  cases st with
  | declare d init =>
    obtain ⟨init₁, -, rfl⟩ := Table.completeStmt_declare.1 h
    rfl
  | ret value =>
    obtain ⟨value₁, -, rfl⟩ := Table.completeStmt_ret.1 h
    rfl
  | assign target value =>
    obtain ⟨target₁, value₁, -, -, rfl⟩ := Table.completeStmt_assign.1 h
    rfl
  | «when» cond body =>
    obtain ⟨cond₁, body₁, -, hbody, rfl⟩ := Table.completeStmt_when.1 h
    exact Table.locals_completeStmts hbody
  | loop cond body =>
    obtain ⟨cond₁, body₁, -, hbody, rfl⟩ := Table.completeStmt_loop.1 h
    exact Table.locals_completeStmts hbody
  | branch cond yes no =>
    obtain ⟨cond₁, yes₁, no₁, -, hyes, hno, rfl⟩ := Table.completeStmt_branch.1 h
    rw [Stmt.locals, Stmt.locals, Table.locals_completeStmts hyes, Table.locals_completeStmts hno]
  | write e =>
    obtain ⟨e₁, -, rfl⟩ := Table.completeStmt_write.1 h
    rfl
  | read e =>
    obtain ⟨e₁, -, rfl⟩ := Table.completeStmt_read.1 h
    rfl
  | call e =>
    obtain ⟨e₁, -, rfl⟩ := Table.completeStmt_call.1 h
    rfl

theorem Table.locals_completeStmts {sts sts₁ : List Stmt} (h : t.completeStmts i sts = .ok sts₁) :
    Stmt.localsOf sts₁ = Stmt.localsOf sts := by
  cases sts with
  | nil =>
    obtain rfl := Table.completeStmts_nil.1 h
    rfl
  | cons st sts =>
    obtain ⟨st₁, sts₁, hst, hsts, rfl⟩ := Table.completeStmts_cons.1 h
    rw [Stmt.localsOf, Stmt.localsOf, Table.locals_completeStmt hst,
      Table.locals_completeStmts hsts]

end

end

theorem Layout.type_of_lookup {p : Program} {t t' : Table} {entryName : String}
    (hb : Table.build p = .ok t) (hl : (supplied t entryName).Later t') {k : ℕ} {s : Scope}
    (hs : t'.functions[k]? = some s) {f : Function} (hf : t'.program.functions[k]? = some f)
    {d : VarDecl} (hd : d ∈ Stmt.localsOf f.body) {e : Entry} (he : s.lookup d.name = some e) :
    e.type = d.type := by
  obtain ⟨t₀, hscopes, hcomp, ht⟩ := Table.of_build hb
  obtain ⟨hlen, hbodies⟩ := Table.of_completeFunctions hcomp
  have hrel := rel_getElem? hl.functions k
  rw [hs] at hrel
  obtain ⟨s₁, hs₁, hlater⟩ : ∃ s₁, (supplied t entryName).functions[k]? = some s₁ ∧ s₁.Later s := by
    cases hs₁ : (supplied t entryName).functions[k]? with
    | none =>
      rw [hs₁] at hrel
      cases hrel
    | some s₁ =>
      rw [hs₁] at hrel
      cases hrel with
      | some h => exact ⟨s₁, rfl, h⟩
  rw [Table.getElem?_supplied, Option.map_eq_some_iff] at hs₁
  obtain ⟨s₀, hs₀, rfl⟩ := hs₁
  obtain ⟨f₀, hf₀, hof⟩ := hscopes.functionScope k s₀ (by rw [← hs₀, ht])
  obtain ⟨body, hbody, hf'⟩ := hbodies k f₀ hf₀
  rw [show t'.program = t.program from hl.program] at hf
  cases hf.symm.trans hf'
  rw [Nat.zero_add] at hbody
  rw [Table.locals_completeStmts hbody, ← Scope.map_decl_localsOfAll [] 0] at hd
  obtain ⟨x, hx, rfl⟩ := List.mem_map.1 hd
  have hname : x.name ≠ "" := by
    intro hname
    rw [Scope.lookup, if_pos (by simp [hname])] at he
    cases he
  have hfound : (withSlots t entryName k s₀).lookup x.name = some x := by
    have hown := hof.once x (by rw [hof.entries]; exact List.mem_append_right _ hx) hname
    simp only [Scope.lookup, beq_iff_eq, hname, if_false] at hown ⊢
    rw [withSlots, List.find?_append, hown]
    rfl
  have hrel := hlater.lookup x.name
  rw [hfound, he] at hrel
  cases hrel with
  | some h => exact h.type

end MoonBackend
