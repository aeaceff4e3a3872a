import Mathlib.Logic.Equiv.Defs
import MoonBackend.Proofs.Symbols.Completion
import MoonBackend.Proofs.Symbols.Declared

/-!
# The order of declarations

Classes are referred to by name and functions by position. A program whose classes and functions are
listed in another order, with the positions in its calls changed accordingly, is completed in the
same way: every expression has the same type, and every call means the same function.
-/

namespace MoonBackend

open Layout

/-! ### Renumbered calls -/

mutual

/-- The expression with the functions of its calls renumbered. -/
def Expr.retarget (σ : ℕ → ℕ) : Expr → Expr
  | .missing => .missing
  | .int v => .int v
  | .float text => .float text
  | .var name type => .var name type
  | .dot left member type => .dot (left.retarget σ) member type
  | .index base indices type => .index (base.retarget σ) (Expr.retargetAll σ indices) type
  | .call recv name args isNew type target =>
    .call (recv.retarget σ) name (Expr.retargetAll σ args) isNew type (target.map σ)
  | .unary op operand type => .unary op (operand.retarget σ) type
  | .binary op left right type => .binary op (left.retarget σ) (right.retarget σ) type

def Expr.retargetAll (σ : ℕ → ℕ) : List Expr → List Expr
  | [] => []
  | e :: es => e.retarget σ :: Expr.retargetAll σ es

end

mutual

def Stmt.retarget (σ : ℕ → ℕ) : Stmt → Stmt
  | .declare d init => .declare d (init.retarget σ)
  | .assign target value => .assign (target.retarget σ) (value.retarget σ)
  | .when cond body => .when (cond.retarget σ) (Stmt.retargetAll σ body)
  | .branch cond yes no =>
    .branch (cond.retarget σ) (Stmt.retargetAll σ yes) (Stmt.retargetAll σ no)
  | .loop cond body => .loop (cond.retarget σ) (Stmt.retargetAll σ body)
  | .write value => .write (value.retarget σ)
  | .read target => .read (target.retarget σ)
  | .ret value => .ret (value.retarget σ)
  | .call c => .call (c.retarget σ)

def Stmt.retargetAll (σ : ℕ → ℕ) : List Stmt → List Stmt
  | [] => []
  | st :: sts => st.retarget σ :: Stmt.retargetAll σ sts

end

def Function.retarget (σ : ℕ → ℕ) (f : Function) : Function :=
  { f with body := Stmt.retargetAll σ f.body }

/-- The second program lists the classes and the functions of the first in another order: the
function at position `i` stands at position `σ i`. -/
structure Program.Reordered (σ : Equiv.Perm ℕ) (p p' : Program) : Prop where
  classes : p.classes.Perm p'.classes
  functions : ∀ i, p'.functions[σ i]? = (p.functions[i]?).map (Function.retarget σ)

@[simp] theorem Expr.type_retarget (σ : ℕ → ℕ) (e : Expr) : (e.retarget σ).type = e.type := by
  cases e <;> simp [Expr.retarget, Expr.type]

@[simp] theorem Expr.isMissing_retarget (σ : ℕ → ℕ) (e : Expr) :
    (e.retarget σ).isMissing = e.isMissing := by
  cases e <;> simp [Expr.retarget, Expr.isMissing]

theorem Expr.map_type_retargetAll (σ : ℕ → ℕ) (es : List Expr) :
    (Expr.retargetAll σ es).map Expr.type = es.map Expr.type := by
  induction es with
  | nil => rfl
  | cons e es ih => simp [Expr.retargetAll, ih]

theorem Expr.length_retargetAll (σ : ℕ → ℕ) (es : List Expr) :
    (Expr.retargetAll σ es).length = es.length := by
  induction es with
  | nil => rfl
  | cons e es ih => simp [Expr.retargetAll, ih]

namespace Table

/-! ### Tables that see the same -/

/-- What the type of a bare name hangs on. -/
def view (found : Located × Bool) : Ty × Bool := (found.1.entry.type, found.2)

/-- The tables give the same answers, up to the positions of functions. -/
structure Matches (σ : Equiv.Perm ℕ) (t t' : Table) : Prop where
  name : ∀ i name, (t'.resolveName (σ i) name).map view = (t.resolveName i name).map view
  member : ∀ c name, (t'.member? c name).map (·.entry.type) = (t.member? c name).map (·.entry.type)
  signature : ∀ i, t'.signature? (σ i) = t.signature? i
  functionsWhere : ∀ P, (t'.functionsWhere P).Perm ((t.functionsWhere P).map σ)
  methods : ∀ c name, (t'.methods c name).Perm ((t.methods c name).map σ)

theorem perm_singleton_map {σ : ℕ → ℕ} {l : List ℕ} {i : ℕ} (h : l.Perm ([i].map σ)) : l = [σ i] :=
  List.perm_singleton.1 h

section

variable {σ : Equiv.Perm ℕ} {t t' : Table}

theorem Matches.filter (h : Matches σ t t') (P : Signature → Bool) {found found' : List ℕ}
    (hp : found'.Perm (found.map σ)) :
    (found'.filter fun i => (t'.signature? i).any P).Perm
      ((found.filter fun i => (t.signature? i).any P).map σ) := by
  have hf := hp.filter fun i => (t'.signature? i).any P
  rw [List.filter_map] at hf
  have hcomp : ((fun i => (t'.signature? i).any P) ∘ σ) = fun i => (t.signature? i).any P := by
    funext i
    simp only [Function.comp, h.signature]
  rwa [hcomp] at hf

theorem Matches.pickOverload (h : Matches σ t t') {call call' name : String} {types : List Ty} {found found' : List ℕ}
    (hp : found'.Perm (found.map σ)) {i : ℕ} (hi : t.pickOverload call name types found = .ok i) :
    t'.pickOverload call' name types found' = .ok (σ i) := by
  have harity := h.filter (fun f => f.params.length == types.length) hp
  have hexact := h.filter (fun f => f.params.map VarDecl.type == types) harity
  unfold Table.pickOverload at hi ⊢
  unfold Table.acceptsTypes at hi ⊢
  simp only at hi ⊢
  split at hi
  · rename_i j _ hj
    cases hi
    rw [hj] at hexact
    rw [perm_singleton_map hexact]
  · rename_i j hnone hj
    cases hi
    rw [hnone] at hexact
    rw [hj] at harity
    rw [List.Perm.eq_nil hexact, perm_singleton_map harity]
  · split at hi
    · cases hi
    · cases hi

theorem Matches.candidates (h : Matches σ t t') {i : ℕ} {call : String} {recv : Expr} {name : String}
    {isNew : Bool} {found : List ℕ} (hf : t.candidates i call recv name isNew = .ok found)
    (call' : String) :
    ∃ found', t'.candidates (σ i) call' (recv.retarget σ) name isNew = .ok found'
      ∧ found'.Perm (found.map σ) := by
  unfold Table.candidates at hf ⊢
  rw [Expr.isMissing_retarget, Expr.type_retarget]
  by_cases hnew : isNew = true
  · rw [if_pos hnew] at hf ⊢
    have hperm := h.functionsWhere fun f => f.isConstructor && f.className == name
    split at hf
    · cases hf
    · rename_i hne
      cases hf
      split
      · rename_i hnil
        rw [hnil] at hperm
        have hm := List.nil_perm.1 hperm
        exact absurd (List.map_eq_nil_iff.1 hm) hne
      · exact ⟨_, rfl, hperm⟩
  · rw [if_neg hnew] at hf ⊢
    by_cases hmiss : (!recv.isMissing) = true
    · rw [if_pos hmiss] at hf ⊢
      split at hf
      · cases hf
        exact ⟨_, rfl, h.methods _ _⟩
      · cases hf
    · rw [if_neg hmiss] at hf ⊢
      have hperm := h.functionsWhere (·.isFree name)
      rw [h.signature]
      split at hf
      · rename_i f hnil hs
        cases hf
        rw [hnil] at hperm
        rw [List.Perm.eq_nil hperm, hs]
        simp only
        split
        · exact ⟨_, rfl, h.methods _ _⟩
        · exact ⟨_, rfl, .nil⟩
      · rename_i found₀ o hno
        cases hf
        split
        · rename_i f hnil hs
          rw [hnil] at hperm
          have hm := List.map_eq_nil_iff.1 (List.nil_perm.1 hperm)
          exact absurd hs (hno f hm)
        · exact ⟨_, rfl, hperm⟩

/-! ### Completion -/

theorem Matches.means (h : Matches σ t t') {i k : ℕ} {recv : Expr} {name : String}
    {types : List Ty} {isNew : Bool} (hk : t.Means i recv name types isNew k) :
    t'.Means (σ i) (recv.retarget σ) name types isNew (σ k) := by
  obtain ⟨shown, found, hfound, hpick⟩ := hk
  obtain ⟨found', hfound', hperm⟩ := h.candidates hfound shown
  exact ⟨shown, found', hfound', h.pickOverload hperm hpick⟩

theorem Matches.targets (h : Matches σ t t') {i k : ℕ} {recv : Expr} {name : String}
    {types : List Ty} {isNew : Bool} {target : Option ℕ}
    (hk : t.Targets i recv name types isNew target k) :
    t'.Targets (σ i) (recv.retarget σ) name types isNew (target.map σ) (σ k) := by
  cases target with
  | some j => exact congrArg σ hk
  | none => exact h.means hk

theorem Matches.callType (h : Matches σ t t') (name : String) (isNew : Bool) (k : ℕ) :
    t'.callType name isNew (σ k) = t.callType name isNew k := by
  rw [Table.callType, Table.callType, h.signature]

mutual

theorem Matches.complete (h : Matches σ t t') {i : ℕ} : ∀ {e e₁ : Expr}, t.complete i e = .ok e₁ →
    t'.complete (σ i) (e.retarget σ) = .ok (e₁.retarget σ)
  | .missing, _, he => (complete_missing.1 he).elim
  | .int v, _, he => by
    obtain rfl := complete_int.1 he
    rw [Expr.retarget]
    exact complete_int.2 rfl
  | .float text, _, he => by
    obtain rfl := complete_float.1 he
    rw [Expr.retarget]
    exact complete_float.2 rfl
  | .var name type, _, he => by
    obtain ⟨l, b, hl, rfl⟩ := complete_var.1 he
    have hn := h.name i name
    rw [hl, Option.map_some, Option.map_eq_some_iff] at hn
    obtain ⟨⟨l', b'⟩, hl', hv⟩ := hn
    have hty : l'.entry.type = l.entry.type := congrArg Prod.fst hv
    rw [Expr.retarget, Expr.retarget, ← hty]
    exact complete_var.2 ⟨l', b', hl', rfl⟩
  | .dot left member type, _, he => by
    obtain ⟨left₁, cls, l, hleft, htype, hl, rfl⟩ := complete_dot.1 he
    have hm := h.member cls member
    rw [hl, Option.map_some, Option.map_eq_some_iff] at hm
    obtain ⟨l', hl', hty⟩ := hm
    rw [Expr.retarget, Expr.retarget, ← hty]
    exact complete_dot.2 ⟨_, cls, l', h.complete hleft, by rw [Expr.type_retarget, htype], hl', rfl⟩
  | .index base indices type, _, he => by
    obtain ⟨base₁, indices₁, hbase, hindices, hne, hle, rfl⟩ := complete_index.1 he
    rw [Expr.retarget, Expr.retarget]
    refine complete_index.2 ⟨_, _, h.complete hbase, h.completeAll hindices, ?_, ?_, ?_⟩
    · rwa [← List.length_pos_iff, Expr.length_retargetAll, List.length_pos_iff]
    · rwa [Expr.length_retargetAll, Expr.type_retarget]
    · rw [Expr.length_retargetAll, Expr.type_retarget]
  | .call recv name args isNew type target, _, he => by
    obtain ⟨recv₁, args₁, k, hrecv, hargs, hk, rfl⟩ := complete_call.1 he
    have hrecv' : t'.completeReceiver (σ i) (recv.retarget σ) = .ok (recv₁.retarget σ) := by
      rcases completeReceiver_eq_ok.1 hrecv with ⟨rfl, rfl⟩ | hrecv
      · rw [Expr.retarget]
        exact completeReceiver_missing.2 rfl
      · exact completeReceiver_eq_ok.2 (.inr (h.complete hrecv))
    rw [Expr.retarget, Expr.retarget, ← h.callType]
    refine complete_call.2 ⟨_, _, _, hrecv', h.completeAll hargs, ?_, rfl⟩
    rw [Expr.map_type_retargetAll]
    exact h.targets hk
  | .unary op operand type, _, he => by
    obtain ⟨operand₁, hop, rfl⟩ := complete_unary.1 he
    rw [Expr.retarget, Expr.retarget]
    exact complete_unary.2 ⟨_, h.complete hop, by rw [Expr.type_retarget]⟩
  | .binary op left right type, _, he => by
    obtain ⟨left₁, right₁, hleft, hright, rfl⟩ := complete_binary.1 he
    rw [Expr.retarget, Expr.retarget]
    exact complete_binary.2 ⟨_, _, h.complete hleft, h.complete hright, by
      rw [Expr.type_retarget]⟩

theorem Matches.completeAll (h : Matches σ t t') {i : ℕ} : ∀ {es es₁ : List Expr},
    t.completeAll i es = .ok es₁ →
      t'.completeAll (σ i) (Expr.retargetAll σ es) = .ok (Expr.retargetAll σ es₁)
  | [], _, he => by
    obtain rfl := completeAll_nil.1 he
    rw [Expr.retargetAll]
    exact completeAll_nil.2 rfl
  | e :: es, _, he => by
    obtain ⟨e₁, es₁, h1, h2, rfl⟩ := completeAll_cons.1 he
    rw [Expr.retargetAll, Expr.retargetAll]
    exact completeAll_cons.2 ⟨_, _, h.complete h1, h.completeAll h2, rfl⟩

end

theorem Matches.completeReceiver (h : Matches σ t t') {i : ℕ} {e e₁ : Expr}
    (he : t.completeReceiver i e = .ok e₁) :
    t'.completeReceiver (σ i) (e.retarget σ) = .ok (e₁.retarget σ) := by
  rcases completeReceiver_eq_ok.1 he with ⟨rfl, rfl⟩ | he
  · rw [Expr.retarget]
    exact completeReceiver_missing.2 rfl
  · exact completeReceiver_eq_ok.2 (.inr (h.complete he))

mutual

theorem Matches.completeStmt (h : Matches σ t t') {i : ℕ} : ∀ {st st₁ : Stmt},
    t.completeStmt i st = .ok st₁ → t'.completeStmt (σ i) (st.retarget σ) = .ok (st₁.retarget σ)
  | .declare d init, _, hs => by
    obtain ⟨init₁, h1, rfl⟩ := completeStmt_declare.1 hs
    rw [Stmt.retarget, Stmt.retarget]
    exact completeStmt_declare.2 ⟨_, h.completeReceiver h1, rfl⟩
  | .assign target value, _, hs => by
    obtain ⟨target₁, value₁, h1, h2, rfl⟩ := completeStmt_assign.1 hs
    rw [Stmt.retarget, Stmt.retarget]
    exact completeStmt_assign.2 ⟨_, _, h.complete h1, h.complete h2, rfl⟩
  | .when cond body, _, hs => by
    obtain ⟨cond₁, body₁, h1, h2, rfl⟩ := completeStmt_when.1 hs
    rw [Stmt.retarget, Stmt.retarget]
    exact completeStmt_when.2 ⟨_, _, h.complete h1, h.completeStmts h2, rfl⟩
  | .branch cond yes no, _, hs => by
    obtain ⟨cond₁, yes₁, no₁, h1, h2, h3, rfl⟩ := completeStmt_branch.1 hs
    rw [Stmt.retarget, Stmt.retarget]
    exact completeStmt_branch.2
      ⟨_, _, _, h.complete h1, h.completeStmts h2, h.completeStmts h3, rfl⟩
  | .loop cond body, _, hs => by
    obtain ⟨cond₁, body₁, h1, h2, rfl⟩ := completeStmt_loop.1 hs
    rw [Stmt.retarget, Stmt.retarget]
    exact completeStmt_loop.2 ⟨_, _, h.complete h1, h.completeStmts h2, rfl⟩
  | .write value, _, hs => by
    obtain ⟨value₁, h1, rfl⟩ := completeStmt_write.1 hs
    rw [Stmt.retarget, Stmt.retarget]
    exact completeStmt_write.2 ⟨_, h.complete h1, rfl⟩
  | .read target, _, hs => by
    obtain ⟨target₁, h1, rfl⟩ := completeStmt_read.1 hs
    rw [Stmt.retarget, Stmt.retarget]
    exact completeStmt_read.2 ⟨_, h.complete h1, rfl⟩
  | .ret value, _, hs => by
    obtain ⟨value₁, h1, rfl⟩ := completeStmt_ret.1 hs
    rw [Stmt.retarget, Stmt.retarget]
    exact completeStmt_ret.2 ⟨_, h.completeReceiver h1, rfl⟩
  | .call c, _, hs => by
    obtain ⟨c₁, h1, rfl⟩ := completeStmt_call.1 hs
    rw [Stmt.retarget, Stmt.retarget]
    exact completeStmt_call.2 ⟨_, h.complete h1, rfl⟩

theorem Matches.completeStmts (h : Matches σ t t') {i : ℕ} : ∀ {sts sts₁ : List Stmt},
    t.completeStmts i sts = .ok sts₁ →
      t'.completeStmts (σ i) (Stmt.retargetAll σ sts) = .ok (Stmt.retargetAll σ sts₁)
  | [], _, hs => by
    obtain rfl := completeStmts_nil.1 hs
    rw [Stmt.retargetAll]
    exact completeStmts_nil.2 rfl
  | st :: sts, _, hs => by
    obtain ⟨st₁, sts₁, h1, h2, rfl⟩ := completeStmts_cons.1 hs
    rw [Stmt.retargetAll, Stmt.retargetAll]
    exact completeStmts_cons.2 ⟨_, _, h.completeStmt h1, h.completeStmts h2, rfl⟩

end

end

end Table

/-! ### Tables of reordered programs -/

mutual

theorem Scope.localsOf_retarget (σ : ℕ → ℕ) (path : Path) :
    ∀ st : Stmt, Scope.localsOf path (st.retarget σ) = Scope.localsOf path st
  | .declare _ _ => by simp only [Stmt.retarget, Scope.localsOf]
  | .when _ body => by
    simp only [Stmt.retarget, Scope.localsOf, Scope.localsOfAll_retarget σ (1 :: path) 0 body]
  | .branch _ yes no => by
    simp only [Stmt.retarget, Scope.localsOf, Scope.localsOfAll_retarget σ (1 :: path) 0 yes,
      Scope.localsOfAll_retarget σ (2 :: path) 0 no]
  | .loop _ body => by
    simp only [Stmt.retarget, Scope.localsOf, Scope.localsOfAll_retarget σ (1 :: path) 0 body]
  | .assign _ _ | .write _ | .read _ | .ret _ | .call _ => by
    simp only [Stmt.retarget, Scope.localsOf]

theorem Scope.localsOfAll_retarget (σ : ℕ → ℕ) (path : Path) (i : ℕ) : ∀ sts : List Stmt,
    Scope.localsOfAll path i (Stmt.retargetAll σ sts) = Scope.localsOfAll path i sts
  | [] => by simp only [Stmt.retargetAll]
  | st :: sts => by
    simp only [Stmt.retargetAll, Scope.localsOfAll, Scope.localsOf_retarget σ (i :: path) st,
      Scope.localsOfAll_retarget σ path (i + 1) sts]

end

theorem Program.class?_perm {p p' : Program} (h : p.classes.Perm p'.classes)
    (hn : (p.classes.map ClassDecl.name).Nodup) (name : String) : p'.class? name = p.class? name := by
  have hn' : (p'.classes.map ClassDecl.name).Nodup := (h.map _).nodup_iff.1 hn
  apply Option.ext
  intro c
  rw [class?_eq_some_iff hn, class?_eq_some_iff hn', h.mem_iff]

theorem Scope.Declares.lookup {c : ClassDecl} {s : Scope} (h : Scope.Declares c s) (name : String) :
    ((s.lookup name).filter (·.kind == .member)).map Entry.outline
      = if name == "" then none else (c.attributes.map VarDecl.outline).find? (·.2.1 == name) := by
  obtain ⟨marks, hm, he⟩ := h.entries
  unfold Scope.lookup
  by_cases hname : name = ""
  · simp [hname]
  · have hb : (name == "") = false := by simpa using hname
    have hfind : (s.entries.find? (·.name == name)).map Entry.outline
        = (c.attributes.map VarDecl.outline).find? (·.2.1 == name) := by
      have hmap : (s.entries.find? (·.name == name)).map Entry.outline
          = (s.entries.map Entry.outline).find? (·.2.1 == name) := by
        rw [List.find?_map]
        rfl
      have hmarks : marks.find? (·.2.1 == name) = none := by
        rw [List.find?_eq_none]
        intro m hmem
        rw [(hm m hmem).2]
        simpa using fun hc : "" = name => hname hc.symm
      rw [hmap, he, List.find?_append, hmarks, Option.or_none]
    have hkind : (s.entries.find? (·.name == name)).filter (·.kind == .member)
        = s.entries.find? (·.name == name) := by
      cases hf : s.entries.find? (·.name == name) with
      | none => rfl
      | some e =>
        rw [hf, Option.map_some] at hfind
        have hmem := List.mem_of_find?_eq_some hfind.symm
        obtain ⟨d, -, hd⟩ := List.mem_map.1 hmem
        have hk : e.kind = .member := (congrArg Prod.fst hd).symm
        simp [hk]
    simp only [hb, Bool.false_eq_true, if_false]
    rw [hkind, hfind]

/-! ### Slots -/

def Demand.outline (d : Demand) : EntryKind × Ty := (d.kind, d.type)

section

variable (σ : ℕ → ℕ) (isMember : String → Bool)

theorem Demand.copy_retarget (use : Use) (path : Path) {e e' : Expr} (h : e'.type = e.type) :
    (Demand.copy use path e').map Demand.outline = (Demand.copy use path e).map Demand.outline := by
  unfold Demand.copy
  split
  · simp [Demand.outline, Demand.temporary, h]
  · rfl

mutual

theorem Demand.ofExpr_retarget (use : Use) (path : Path) : ∀ e : Expr,
    (Demand.ofExpr isMember use path (e.retarget σ)).map Demand.outline
      = (Demand.ofExpr isMember use path e).map Demand.outline
  | .missing | .int _ | .float _ | .var _ _ => by simp only [Expr.retarget]
  | .dot left member type => by
    simp only [Expr.retarget, Demand.ofExpr, List.map_append,
      Demand.ofExpr_retarget .location (0 :: path) left]
    rw [Demand.copy_retarget use path (e := .dot left member type)]
    rfl
  | .index base indices type => by
    simp only [Expr.retarget, Demand.ofExpr, List.map_append,
      Demand.ofExpr_retarget .location (0 :: path) base, Demand.ofExprs_retarget path 1 indices]
    rw [Demand.copy_retarget use path (e := .index base indices type)]
    rfl
  | .unary op operand type => by
    simp only [Expr.retarget, Demand.ofExpr, List.map_append,
      Demand.ofExpr_retarget .value (0 :: path) operand]
    rfl
  | .binary op left right type => by
    simp only [Expr.retarget, Demand.ofExpr, List.map_append,
      Demand.ofExpr_retarget .value (0 :: path) left,
      Demand.ofExpr_retarget .value (1 :: path) right]
    rfl
  | .call recv name args isNew type target => by
    simp only [Expr.retarget, Demand.ofExpr, List.map_append, Expr.isMissing_retarget,
      Demand.ofExpr_retarget .location (0 :: path) recv, Demand.ofExprs_retarget path 1 args]
    congr 1
    · congr 2
      split
      · rfl
      · simp [Demand.outline, Demand.receiver]
    · split
      · rfl
      · rfl

theorem Demand.ofExprs_retarget (path : Path) (i : ℕ) : ∀ es : List Expr,
    (Demand.ofExprs isMember path i (Expr.retargetAll σ es)).map Demand.outline
      = (Demand.ofExprs isMember path i es).map Demand.outline
  | [] => by simp only [Expr.retargetAll]
  | e :: es => by
    simp only [Expr.retargetAll, Demand.ofExprs, List.map_append,
      Demand.ofExpr_retarget .value (i :: path) e, Demand.ofExprs_retarget path (i + 1) es]

end

mutual

theorem Demand.ofStmt_retarget (path : Path) : ∀ st : Stmt,
    (Demand.ofStmt isMember path (st.retarget σ)).map Demand.outline
      = (Demand.ofStmt isMember path st).map Demand.outline
  | .declare _ e | .write e | .read e | .ret e | .call e => by
    simp only [Stmt.retarget, Demand.ofStmt, Demand.ofExpr_retarget σ isMember _ _ e]
  | .assign target value => by
    simp only [Stmt.retarget, Demand.ofStmt, List.map_append,
      Demand.ofExpr_retarget σ isMember _ _ target, Demand.ofExpr_retarget σ isMember _ _ value]
  | .when cond body | .loop cond body => by
    simp only [Stmt.retarget, Demand.ofStmt, List.map_append,
      Demand.ofExpr_retarget σ isMember _ _ cond, Demand.ofStmts_retarget (1 :: path) 0 body]
  | .branch cond yes no => by
    simp only [Stmt.retarget, Demand.ofStmt, List.map_append,
      Demand.ofExpr_retarget σ isMember _ _ cond, Demand.ofStmts_retarget (1 :: path) 0 yes,
      Demand.ofStmts_retarget (2 :: path) 0 no]

theorem Demand.ofStmts_retarget (path : Path) (i : ℕ) : ∀ sts : List Stmt,
    (Demand.ofStmts isMember path i (Stmt.retargetAll σ sts)).map Demand.outline
      = (Demand.ofStmts isMember path i sts).map Demand.outline
  | [] => by simp only [Stmt.retargetAll]
  | st :: sts => by
    simp only [Stmt.retargetAll, Demand.ofStmts, List.map_append,
      Demand.ofStmt_retarget (i :: path) st, Demand.ofStmts_retarget path (i + 1) sts]

end

theorem Demand.ofHead_outline (entryName : String) (node node' : Backing) (f : Signature) :
    (Demand.ofHead entryName node' f).map Demand.outline
      = (Demand.ofHead entryName node f).map Demand.outline := by
  simp only [Demand.ofHead, List.map_append]
  congr 1
  · congr 1
    · split <;> rfl
    · split <;> rfl
  · split <;> rfl

end

namespace Table

section

variable {p p' : Program} {t t' : Table} (hd : Declares p t) (hd' : Declares p' t')
variable (hperm : p.classes.Perm p'.classes)
include hd hd' hperm

theorem Declares.class?_perm (name : String) :
    (t.class? name = none ∧ t'.class? name = none)
      ∨ ∃ c s s', c ∈ p.classes ∧ t.class? name = some s ∧ t'.class? name = some s'
        ∧ Scope.Declares c s ∧ Scope.Declares c s' := by
  cases hs : t.class? name with
  | none =>
    refine .inl ⟨rfl, ?_⟩
    cases hs' : t'.class? name with
    | none => rfl
    | some s' =>
      obtain ⟨-, -, c, hc, -⟩ := hd'.of_class? hs'
      rw [Program.class?_perm hperm hd.nodup] at hc
      obtain ⟨hm, hname⟩ := (Program.class?_eq_some_iff hd.nodup).1 hc
      obtain ⟨s, hs₁⟩ := hd.exists_class? ⟨c, hm, hname⟩
      rw [hs] at hs₁
      cases hs₁
  | some s =>
    obtain ⟨-, -, c, hc, hdec⟩ := hd.of_class? hs
    have hc' : p'.class? name = some c := by rw [Program.class?_perm hperm hd.nodup, hc]
    obtain ⟨hm', hname⟩ := (Program.class?_eq_some_iff hd'.nodup).1 hc'
    obtain ⟨s', hs'⟩ := hd'.exists_class? ⟨c, hm', hname⟩
    obtain ⟨-, -, c₁, hc₁, hdec'⟩ := hd'.of_class? hs'
    rw [hc'] at hc₁
    cases hc₁
    exact .inr ⟨c, s, s', hperm.mem_iff.2 hm', rfl, hs', hdec, hdec'⟩

theorem Declares.memberFrom_perm (depth : ℕ) (cls name : String) :
    (t'.memberFrom depth cls name).map (·.entry.type)
      = (t.memberFrom depth cls name).map (·.entry.type) := by
  induction depth generalizing cls with
  | zero => rfl
  | succ depth ih =>
    rw [memberFrom_succ, memberFrom_succ]
    rcases hd.class?_perm hd' hperm cls with ⟨hs, hs'⟩ | ⟨c, s, s', hc, hs, hs', hdec, hdec'⟩
    · simp only [hs, hs', Option.map_none]
    · simp only [hs, hs']
      have hl : ((s'.lookup name).filter (·.kind == .member)).map Entry.outline
          = ((s.lookup name).filter (·.kind == .member)).map Entry.outline := by
        rw [hdec.lookup, hdec'.lookup]
      cases he : (s.lookup name).filter (·.kind == .member) with
      | some e =>
        rw [he, Option.map_some, Option.map_eq_some_iff] at hl
        obtain ⟨e', he', ho⟩ := hl
        simp only [he', Option.map_some]
        exact congrArg some (congrArg (fun o => o.2.2) ho)
      | none =>
        rw [he, Option.map_none, Option.map_eq_none_iff] at hl
        simp only [hl]
        rw [hd.baseNames hc hdec, hd'.baseNames (hperm.mem_iff.1 hc) hdec']
        induction c.bases with
        | nil => rfl
        | cons b bs ihb =>
          rw [List.findSome?_cons, List.findSome?_cons]
          have hb := ih b
          cases hmb : t.memberFrom depth b name with
          | none =>
            rw [hmb, Option.map_none, Option.map_eq_none_iff] at hb
            rw [hb]
            exact ihb
          | some l =>
            rw [hmb, Option.map_some, Option.map_eq_some_iff] at hb
            obtain ⟨l', hl', hty⟩ := hb
            rw [hl']
            exact congrArg some hty

theorem Declares.methodsFrom_perm {σ : Equiv.Perm ℕ}
    (hw : ∀ P, (t'.functionsWhere P).Perm ((t.functionsWhere P).map σ)) (depth : ℕ)
    (cls name : String) :
    (t'.methodsFrom depth cls name).Perm ((t.methodsFrom depth cls name).map σ) := by
  induction depth generalizing cls with
  | zero => exact .nil
  | succ depth ih =>
    rw [methodsFrom, methodsFrom]
    rcases hd.class?_perm hd' hperm cls with ⟨hs, hs'⟩ | ⟨c, s, s', hc, hs, hs', hdec, hdec'⟩
    · simp only [hs, hs']
      exact .nil
    · simp only [hs, hs']
      have hown := hw fun f => f.className == cls && f.name == name && !f.isConstructor
      have hempty : ∀ {l l' : List ℕ}, l'.Perm (l.map σ) → l'.isEmpty = l.isEmpty := by
        intro l l' hp
        have hlen := hp.length_eq
        rw [List.length_map] at hlen
        rw [Bool.eq_iff_iff, List.isEmpty_iff_length_eq_zero, List.isEmpty_iff_length_eq_zero, hlen]
      rw [hempty hown]
      split
      · rw [hd.baseNames hc hdec, hd'.baseNames (hperm.mem_iff.1 hc) hdec']
        induction c.bases with
        | nil => exact .nil
        | cons b bs ihb =>
          rw [List.findSome?_cons, List.findSome?_cons, hempty (ih b)]
          cases (t.methodsFrom depth b name).isEmpty with
          | true => exact ihb
          | false => exact ih b
      · exact hown

end

/-! ### Functions in another order -/

section

variable {σ : Equiv.Perm ℕ} {p p' : Program} (h : Program.Reordered σ p p')
include h

theorem functionsWhere_reordered {t t' : Table} (ht : t.program = p) (ht' : t'.program = p')
    (P : Signature → Bool) : (t'.functionsWhere P).Perm ((t.functionsWhere P).map σ) := by
  have hmem : ∀ (t : Table) i, i ∈ t.functionsWhere P ↔
      (t.program.functions[i]?).any (fun f => P f.toSignature) = true := by
    intro t i
    unfold functionsWhere
    rw [List.mem_filter, List.mem_range]
    constructor
    · exact fun hi => hi.2
    · intro hi
      refine ⟨?_, hi⟩
      by_contra hle
      rw [List.getElem?_eq_none (by omega)] at hi
      cases hi
  have hnodup : ∀ t : Table, (t.functionsWhere P).Nodup := fun t =>
    List.nodup_range.filter _
  rw [List.perm_ext_iff_of_nodup (hnodup t') ((hnodup t).map σ.injective)]
  intro j
  obtain ⟨i, rfl⟩ := σ.surjective j
  rw [hmem, ht', h.functions, List.mem_map_of_injective σ.injective, hmem, ht]
  cases p.functions[i]? with
  | none => rfl
  | some f => rfl

theorem functionScope_reordered {t t' : Table} (hs : HasScopes p p.classes p.functions t)
    (hs' : HasScopes p' p'.classes p'.functions t') (i : ℕ) :
    (t.functions[i]? = none ∧ t'.functions[σ i]? = none)
      ∨ ∃ f s s', p.functions[i]? = some f ∧ t.functions[i]? = some s
        ∧ t'.functions[σ i]? = some s' ∧ Scope.OfFunction i f s
        ∧ Scope.OfFunction (σ i) (f.retarget σ) s' := by
  have hsome : ∀ {p : Program} {t : Table} (_ : HasScopes p p.classes p.functions t) (i : ℕ),
      t.functions[i]? = none ↔ p.functions[i]? = none := by
    intro p t hs i
    rw [List.getElem?_eq_none_iff, List.getElem?_eq_none_iff, hs.functionCount]
  cases hi : t.functions[i]? with
  | none =>
    have hp := (hsome hs i).1 hi
    refine .inl ⟨rfl, (hsome hs' (σ i)).2 ?_⟩
    rw [h.functions, hp]
    rfl
  | some s =>
    obtain ⟨f, hf, hof⟩ := hs.functionScope i s hi
    cases hi' : t'.functions[σ i]? with
    | none =>
      have hp' := (hsome hs' (σ i)).1 hi'
      rw [h.functions, hf] at hp'
      cases hp'
    | some s' =>
      obtain ⟨f', hf', hof'⟩ := hs'.functionScope (σ i) s' hi'
      rw [h.functions, hf] at hf'
      cases hf'
      exact .inr ⟨f, s, s', hf, rfl, rfl, hof, hof'⟩

theorem entries_reordered {t t' : Table} (hs : HasScopes p p.classes p.functions t)
    (hs' : HasScopes p' p'.classes p'.functions t') {i : ℕ} {s s' : Scope}
    (hi : t.functions[i]? = some s) (hi' : t'.functions[σ i]? = some s') :
    s'.entries = s.entries := by
  rcases functionScope_reordered h hs hs' i with ⟨hn, -⟩ | ⟨f, s₁, s₁', -, h1, h1', hof, hof'⟩
  · rw [hi] at hn
    cases hn
  · rw [hi] at h1
    rw [hi'] at h1'
    cases h1
    cases h1'
    rw [hof.entries, hof'.entries]
    show _ = (f.params.map _) ++ Scope.localsOfAll [] 0 f.body
    rw [← Scope.localsOfAll_retarget σ [] 0 f.body]
    rfl

theorem matches_reordered {t t' : Table} (hd : Declares p t) (hd' : Declares p' t')
    (hs : HasScopes p p.classes p.functions t) (hs' : HasScopes p' p'.classes p'.functions t') :
    Matches σ t t' := by
  have hdepth : t'.depth = t.depth := by
    unfold depth
    rw [hs'.classCount, hs.classCount, h.classes.length_eq]
  have hmember : ∀ c name, (t'.member? c name).map (·.entry.type)
      = (t.member? c name).map (·.entry.type) := by
    intro c name
    unfold member?
    rw [hdepth]
    exact hd.memberFrom_perm hd' h.classes t.depth c name
  have hwhere := functionsWhere_reordered h hs.program hs'.program
  refine ⟨fun i name => ?_, hmember, fun i => ?_, hwhere, fun c name => ?_⟩
  · unfold resolveName
    rcases functionScope_reordered h hs hs' i with ⟨hn, hn'⟩ | ⟨f, s, s', -, hi, hi', hof, hof'⟩
    · rw [hn, hn']
    · have hlookup : s'.lookup name = s.lookup name := by
        unfold Scope.lookup
        rw [entries_reordered h hs hs' hi hi']
      have hhead : (f.retarget σ).toSignature = f.toSignature := rfl
      simp only [hi, hi', hlookup, hof.backing, hof'.backing, hhead]
      cases s.lookup name with
      | some e => rfl
      | none =>
        simp only
        split
        · have hm := congrArg (Option.map fun ty => (ty, true)) (hmember f.className name)
          simp only [Option.map_map] at hm ⊢
          exact hm
        · rfl
  · unfold signature?
    rw [hs.program, hs'.program, h.functions, Option.map_map]
    rfl
  · unfold methods
    rw [hdepth]
    exact hd.methodsFrom_perm hd' h.classes hwhere t.depth c name

/-- Both programs are completed in the same way. -/
theorem functions_reordered {t t' : Table} {fs fs' : List Function} (hm : Matches σ t t')
    (hc : t.completeFunctions 0 p.functions = .ok fs)
    (hc' : t'.completeFunctions 0 p'.functions = .ok fs') (i : ℕ) : fs'[σ i]? = (fs[i]?).map (Function.retarget σ) := by
  obtain ⟨hlen, hbody⟩ := of_completeFunctions hc
  obtain ⟨hlen', hbody'⟩ := of_completeFunctions hc'
  have hi := h.functions i
  cases hf : p.functions[i]? with
  | none =>
    rw [hf, Option.map_none] at hi
    rw [List.getElem?_eq_none_iff] at hf hi
    rw [List.getElem?_eq_none (by omega), List.getElem?_eq_none (by omega)]
    rfl
  | some f =>
    rw [hf, Option.map_some] at hi
    obtain ⟨body, hcomp, hat⟩ := hbody i f hf
    obtain ⟨body', hcomp', hat'⟩ := hbody' (σ i) _ hi
    rw [Nat.zero_add] at hcomp hcomp'
    have hsame : (f.retarget σ).body = Stmt.retargetAll σ f.body := rfl
    rw [hsame, hm.completeStmts hcomp] at hcomp'
    cases hcomp'
    rw [hat, hat']
    rfl

omit h in
theorem getElem?_supplied (t : Table) (entryName : String) (i : ℕ) :
    (Layout.supplied t entryName).functions[i]?
      = (t.functions[i]?).map (withSlots t entryName i) := by
  simp only [Layout.supplied, List.getElem?_mapIdx]

theorem supplied_reordered {t t' : Table} (hb : build p = .ok t) (hb' : build p' = .ok t')
    (entryName : String) (i : ℕ) :
    ((Layout.supplied t' entryName).functions[σ i]?).map (fun s => s.entries.map Entry.outline)
      = ((Layout.supplied t entryName).functions[i]?).map fun s => s.entries.map Entry.outline := by
  have hd := declares_of_build hb
  have hd' := declares_of_build hb'
  obtain ⟨t₀, hs, hc, ht⟩ := of_build hb
  obtain ⟨t₀', hs', hc', ht'⟩ := of_build hb'
  have hd₀ : Declares p t₀ := by
    rw [ht] at hd
    exact ⟨hd.count, hd.scope, hd.nodup, hd.bases, hd.functions⟩
  have hd₀' : Declares p' t₀' := by
    rw [ht'] at hd'
    exact ⟨hd'.count, hd'.scope, hd'.nodup, hd'.bases, hd'.functions⟩
  have hm := matches_reordered h hd₀ hd₀' hs hs'
  have hfun := functions_reordered h hm hc hc' i
  have hclasses : t.classes = t₀.classes := by rw [ht]
  have hclasses' : t'.classes = t₀'.classes := by rw [ht']
  have hfunctions : t.functions = t₀.functions := by rw [ht]
  have hfunctions' : t'.functions = t₀'.functions := by rw [ht']
  -- the names that stand for members are the same
  have hmember : (fun name => (t'.resolveName (σ i) name).any Prod.snd)
      = fun name => (t.resolveName i name).any Prod.snd := by
    funext name
    rw [resolveName_congr hclasses (by rw [hfunctions]),
      resolveName_congr hclasses' (by rw [hfunctions'])]
    have hn := congrArg (fun o => o.any Prod.snd) (hm.name i name)
    simpa only [Option.any_map, view] using hn
  rw [getElem?_supplied, getElem?_supplied]
  rcases functionScope_reordered h hs hs' i with ⟨hn, hn'⟩ | ⟨f, s, s', -, hi, hi', -, -⟩
  · simp only [hfunctions, hfunctions', hn, hn', Option.map_none]
  · rw [hfunctions, hfunctions', hi, hi']
    refine congrArg some ?_
    unfold withSlots
    simp only [List.map_append, entries_reordered h hs hs' hi hi', hfun]
    congr 1
    cases t.program.functions[i]? with
    | none => rfl
    | some g =>
      have hout : ∀ ds : List Demand, (ds.map demanded).map Entry.outline
          = (ds.map Demand.outline).map fun o => (o.1, "", o.2) := by
        intro ds
        rw [List.map_map, List.map_map]
        rfl
      simp only [Option.map_some, hout]
      congr 1
      unfold Demand.ofFunction
      rw [hmember, List.map_append, List.map_append]
      congr 1
      · exact Demand.ofHead_outline _ _ _ _
      · exact Demand.ofStmts_retarget σ _ [] 0 g.body

end

end Table

end MoonBackend
