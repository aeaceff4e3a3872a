import MoonBackend.Proofs.Symbols.Declarable
import MoonBackend.Proofs.Symbols.Filled
import MoonBackend.Proofs.Symbols.Search

/-!
# Annotated trees

The types and call targets that building a table writes into a program without annotations, node by
node: each is what the declarations of the program and the types of the parts of the node call for.
-/

namespace MoonBackend

open Layout

/-! ### Nodes -/

mutual

/-- An expression and all its parts, down to the last one. -/
def Expr.nodes : Expr → List Expr
  | .missing => []
  | .int v => [.int v]
  | .float text => [.float text]
  | .var name type => [.var name type]
  | .dot left member type => .dot left member type :: left.nodes
  | .index base indices type => .index base indices type :: (base.nodes ++ Expr.nodesOf indices)
  | .call recv name args isNew type target =>
    .call recv name args isNew type target :: (recv.nodes ++ Expr.nodesOf args)
  | .unary op operand type => .unary op operand type :: operand.nodes
  | .binary op left right type => .binary op left right type :: (left.nodes ++ right.nodes)

def Expr.nodesOf : List Expr → List Expr
  | [] => []
  | e :: es => e.nodes ++ Expr.nodesOf es

end

mutual

def Stmt.nodes : Stmt → List Expr
  | .declare _ e | .write e | .read e | .ret e | .call e => e.nodes
  | .assign target value => target.nodes ++ value.nodes
  | .when cond body | .loop cond body => cond.nodes ++ Stmt.nodesOf body
  | .branch cond yes no => cond.nodes ++ Stmt.nodesOf yes ++ Stmt.nodesOf no

def Stmt.nodesOf : List Stmt → List Expr
  | [] => []
  | st :: sts => st.nodes ++ Stmt.nodesOf sts

end

/-! ### What a node should say -/

namespace Program

variable (p : Program)

def head? (k : ℕ) : Option Signature := (p.functions[k]?).map Function.toSignature

/-- The type of a bare name in a function: that of the parameter or local variable, else that of
the member that is found from the class of the function. -/
inductive Names (f : Function) (name : String) : Ty → Prop
  | variable {d : VarDecl} (h : VarDecl.named? f.variables name = some d) : Names f name d.type
  | member {d : VarDecl} (hnone : VarDecl.named? f.variables name = none) (hm : f.isMember = true)
    (h : p.Finds (ClassDecl.attribute? name) f.className (some d)) : Names f name d.type

/-- The functions that a call may mean: the constructors of its class, the methods of the nearest
class from that of its receiver that has any, the free functions of its name or, where there are
none, the methods that are found from the class of the function around it. -/
inductive Candidates (f : Function) (recv : Expr) (name : String) : Bool → List ℕ → Prop
  | constructors :
    Candidates f recv name true (p.positions fun g => g.isConstructor && g.className == name)
  | methods {c : String} {found : Option (List ℕ)} (hrecv : recv.isMissing = false)
    (htype : recv.type = .object c) (h : p.Finds (p.methods? name) c found) :
    Candidates f recv name false (found.getD [])
  | free (hrecv : recv.isMissing = true) (hsome : p.positions (·.isFree name) ≠ []) :
    Candidates f recv name false (p.positions (·.isFree name))
  | own {found : Option (List ℕ)} (hrecv : recv.isMissing = true)
    (hnone : p.positions (·.isFree name) = []) (hm : f.isMember = true)
    (h : p.Finds (p.methods? name) f.className found) :
    Candidates f recv name false (found.getD [])

/-- One of the candidates has the property, and no other does. -/
def Only (candidates : List ℕ) (P : Signature → Prop) (k : ℕ) : Prop :=
  (k ∈ candidates ∧ ∃ g, p.head? k = some g ∧ P g)
    ∧ ∀ j ∈ candidates, (∃ g, p.head? j = some g ∧ P g) → j = k

def Exact (types : List Ty) (g : Signature) : Prop := g.params.map VarDecl.type = types

/-- The only candidate for exactly these types or, where there is none, the only one for as many
arguments. -/
def Chooses (candidates : List ℕ) (types : List Ty) (k : ℕ) : Prop :=
  p.Only candidates (Exact types) k
    ∨ (∀ j ∈ candidates, ∀ g, p.head? j = some g → ¬Exact types g)
      ∧ p.Only candidates (fun g => g.params.length = types.length) k

/-- What a node in a function says is right, given what its parts say. -/
def Annotates (f : Function) : Expr → Prop
  | .missing => False
  | .int _ | .float _ => True
  | .var name type => p.Names f name type
  | .dot left member type => ∃ c d, left.type = .object c
      ∧ p.Finds (ClassDecl.attribute? member) c (some d) ∧ type = d.type
  | .index base indices type => indices ≠ [] ∧ indices.length ≤ base.type.dims.length
      ∧ type = ⟨base.type.base, base.type.dims.drop indices.length⟩
  | .call recv name args isNew type target => ∃ found k g, p.Candidates f recv name isNew found
      ∧ target = some k ∧ p.head? k = some g ∧ g.params.length = args.length
      ∧ p.Chooses found (args.map Expr.type) k ∧ type = if isNew then .object name else g.returns
  | .unary op operand type => type = if op = .not then .integer else operand.type
  | .binary op left _ type => type = if op.isTruth then .integer else left.type

end Program

namespace Table

/-! ### What a call means -/

section

variable {p : Program} {t : Table} (hp : t.program = p)

include hp

theorem signature?_eq (k : ℕ) : t.signature? k = p.head? k := by
  rw [signature?, hp, Program.head?]

theorem mem_exact (types : List Ty) (found : List ℕ) (k : ℕ) :
    k ∈ (found.filter fun i => (t.signature? i).any fun f => f.params.length == types.length).filter
        (t.acceptsTypes types)
      ↔ k ∈ found ∧ ∃ g, p.head? k = some g ∧ Program.Exact types g := by
  simp only [List.mem_filter, acceptsTypes, signature?_eq hp, Option.any_eq_true, beq_iff_eq,
    and_assoc]
  refine and_congr_right fun _ => ⟨?_, ?_⟩
  · rintro ⟨-, g, hg, hexact⟩
    exact ⟨g, hg, hexact⟩
  · rintro ⟨g, hg, hexact⟩
    refine ⟨⟨g, hg, ?_⟩, g, hg, hexact⟩
    rw [← hexact, List.length_map]

theorem mem_arity (types : List Ty) (found : List ℕ) (k : ℕ) :
    k ∈ (found.filter fun i => (t.signature? i).any fun f => f.params.length == types.length)
      ↔ k ∈ found ∧ ∃ g, p.head? k = some g ∧ g.params.length = types.length := by
  simp only [List.mem_filter, signature?_eq hp, Option.any_eq_true, beq_iff_eq]

theorem chooses_of_pickOverload {call name : String} {types : List Ty} {found : List ℕ} {k : ℕ}
    (h : t.pickOverload call name types found = .ok k) : p.Chooses found types k := by
  have hexact := mem_exact hp types found
  have harity := mem_arity hp types found
  unfold pickOverload at h
  simp only at h
  split at h
  · rename_i i _ hi
    cases h
    simp only [hi, List.mem_singleton] at hexact
    exact .inl ⟨(hexact k).1 rfl, fun j hj hg => (hexact j).2 ⟨hj, hg⟩⟩
  · rename_i i hnone hi
    cases h
    simp only [hnone, List.not_mem_nil, false_iff] at hexact
    simp only [hi, List.mem_singleton] at harity
    exact .inr ⟨fun j hj g hg hfits => hexact j ⟨hj, g, hg, hfits⟩,
      (harity k).1 rfl, fun j hj hg => (harity j).2 ⟨hj, hg⟩⟩
  · split at h
    · cases h
    · cases h

end

/-- The scopes of a program whose inheritance runs in no circle, seen from one of its functions. -/
structure From (p : Program) (f : Function) (t : Table) (i : ℕ) : Prop where
  scopes : scopes p = .ok t
  acyclic : p.AcyclicInheritance
  function : p.functions[i]? = some f

namespace From

variable {p : Program} {f : Function} {t : Table} {i : ℕ} (h : From p f t i)

include h

theorem program : t.program = p := (hasScopes h.scopes).program

theorem signature?_caller : t.signature? i = some f.toSignature := by
  rw [signature?_eq h.program, Program.head?, h.function]
  rfl

theorem exists_scope : ∃ s, t.functions[i]? = some s ∧ s.backing = .function i f.toSignature
    ∧ ∀ name, (s.lookup name).map Entry.decl = VarDecl.named? f.variables name := by
  have hs := hasScopes h.scopes
  have hi : i < t.functions.length := by
    rw [hs.functionCount]
    exact (List.getElem?_eq_some_iff.1 h.function).1
  obtain ⟨f', hf', hof⟩ := hs.functionScope i _ (List.getElem?_eq_getElem hi)
  cases h.function.symm.trans hf'
  have hdecls : t.functions[i].entries.map Entry.decl = f.variables := by
    have hparams : f.params.map (Entry.decl ∘ fun d => .named .parameter d.name d.type)
        = f.params := List.map_id' _
    have hlocals : (Scope.localsOfAll [] 0 f.body).map Entry.decl = Stmt.localsOf f.body :=
      Scope.map_decl_localsOfAll [] 0 f.body
    rw [hof.entries, List.map_append, List.map_map, hparams, hlocals, Function.variables]
  refine ⟨_, List.getElem?_eq_getElem hi, hof.backing, fun name => ?_⟩
  unfold Scope.lookup VarDecl.named?
  split
  · rfl
  · rw [← hdecls, List.find?_map]
    rfl

theorem names {name : String} {l : Located} {b : Bool} (hl : t.resolveName i name = some (l, b)) :
    p.Names f name l.entry.type := by
  obtain ⟨s, hs, hbacking, hlookup⟩ := h.exists_scope
  have hname := hlookup name
  unfold resolveName at hl
  simp only [hs, hbacking] at hl
  cases he : s.lookup name with
  | some e =>
    rw [he] at hl hname
    cases hl
    exact .variable hname.symm
  | none =>
    rw [he] at hl hname
    simp only at hl
    split at hl
    · rename_i hm
      obtain ⟨l', hl', heq⟩ := Option.map_eq_some_iff.1 hl
      cases heq
      have hfinds := finds_member (declares_of_scopes h.scopes) h.acyclic f.className name
      rw [hl'] at hfinds
      exact .member hname.symm hm hfinds
    · cases hl

theorem candidates {shown : String} {recv : Expr} {name : String} {isNew : Bool} {found : List ℕ}
    (hc : t.candidates i shown recv name isNew = .ok found) (hne : found ≠ []) :
    p.Candidates f recv name isNew found := by
  have hwhere : ∀ P, t.functionsWhere P = p.positions P := by
    intro P
    rw [← h.program]
    rfl
  have hmethods := fun c => finds_methods (declares_of_scopes h.scopes) h.acyclic
    (by rw [h.program]) c name
  unfold Table.candidates at hc
  simp only [hwhere, h.signature?_caller] at hc
  cases isNew with
  | true =>
    rw [if_pos rfl] at hc
    split at hc
    · cases hc
    · cases hc
      exact .constructors
  | false =>
    rw [if_neg Bool.false_ne_true] at hc
    cases hr : recv.isMissing with
    | false =>
      rw [hr, if_pos (by decide)] at hc
      split at hc
      · rename_i c htype
        cases hc
        obtain ⟨found, hfound, heq⟩ := hmethods c
        rw [heq]
        exact .methods hr htype hfound
      · cases hc
    | true =>
      rw [hr, if_neg (by decide)] at hc
      split at hc
      · rename_i g hnone hg
        cases hg
        cases hc
        split
        · rename_i hm
          obtain ⟨found, hfound, heq⟩ := hmethods f.className
          rw [heq]
          exact .own hr hnone hm hfound
        · rename_i hm
          rw [if_neg hm] at hne
          exact absurd rfl hne
      · rename_i found' o hno
        cases hc
        refine .free hr fun hnil => ?_
        exact hno _ hnil rfl

theorem call {recv : Expr} {name : String} {args : List Expr} {isNew : Bool} {k : ℕ}
    (hk : t.Means i recv name (args.map Expr.type) isNew k) :
    p.Annotates f (.call recv name args isNew (t.callType name isNew k) (some k)) := by
  obtain ⟨shown, found, hfound, hpick⟩ := hk
  obtain ⟨hm, g, hg, hlen⟩ := of_pickOverload hpick
  rw [signature?_eq h.program] at hg
  refine ⟨found, k, g, h.candidates hfound (List.ne_nil_of_mem hm), rfl, hg, ?_,
    chooses_of_pickOverload h.program hpick, ?_⟩
  · rw [hlen, List.length_map]
  · rw [callType, signature?_eq h.program, hg]
    rfl

end From

section

variable {p : Program} {f : Function} {t : Table} {i : ℕ}

mutual

/-- Every node of a completed expression says what it should. -/
theorem From.nodes (h : From p f t i) : ∀ {e e₁ : Expr}, t.complete i e = .ok e₁ →
    e.isBare = true → ∀ n ∈ e₁.nodes, p.Annotates f n
  | .missing, _, he, _ => (complete_missing.1 he).elim
  | .int v, _, he, _ => by
    obtain rfl := complete_int.1 he
    exact List.forall_mem_singleton.2 trivial
  | .float text, _, he, _ => by
    obtain rfl := complete_float.1 he
    exact List.forall_mem_singleton.2 trivial
  | .var name type, _, he, hb => by
    obtain ⟨l, b, hl, rfl⟩ := complete_var.1 he
    rw [orElse_of_isUnset hb]
    exact List.forall_mem_singleton.2 (h.names hl)
  | .dot left member type, _, he, hb => by
    rw [Expr.isBare, Bool.and_eq_true] at hb
    obtain ⟨left₁, c, l, hleft, htype, hl, rfl⟩ := complete_dot.1 he
    have hfinds := finds_member (declares_of_scopes h.scopes) h.acyclic c member
    rw [hl] at hfinds
    rw [orElse_of_isUnset hb.2]
    exact List.forall_mem_cons.2 ⟨⟨c, _, htype, hfinds, rfl⟩, h.nodes hleft hb.1⟩
  | .index base indices type, _, he, hb => by
    rw [Expr.isBare, Bool.and_eq_true, Bool.and_eq_true] at hb
    obtain ⟨base₁, indices₁, hbase, hindices, hne, hle, rfl⟩ := complete_index.1 he
    rw [orElse_of_isUnset hb.2]
    exact List.forall_mem_cons.2 ⟨⟨hne, hle, rfl⟩,
      List.forall_mem_append.2 ⟨h.nodes hbase hb.1.1, h.nodesOf hindices hb.1.2⟩⟩
  | .call recv name args isNew type target, _, he, hb => by
    rw [Expr.isBare, Bool.and_eq_true, Bool.and_eq_true, Bool.and_eq_true,
      Option.isNone_iff_eq_none] at hb
    obtain ⟨⟨⟨hbr, hba⟩, hbt⟩, rfl⟩ := hb
    obtain ⟨recv₁, args₁, k, hrecv, hargs, hk, rfl⟩ := complete_call.1 he
    have hrecv' : ∀ n ∈ recv₁.nodes, p.Annotates f n := by
      rcases completeReceiver_eq_ok.1 hrecv with ⟨-, rfl⟩ | hrecv
      · exact List.forall_mem_nil _
      · exact h.nodes hrecv hbr
    rw [orElse_callType hbt]
    exact List.forall_mem_cons.2 ⟨h.call hk, List.forall_mem_append.2 ⟨hrecv', h.nodesOf hargs hba⟩⟩
  | .unary op operand type, _, he, hb => by
    rw [Expr.isBare, Bool.and_eq_true] at hb
    obtain ⟨operand₁, hop, rfl⟩ := complete_unary.1 he
    rw [orElse_of_isUnset hb.2]
    exact List.forall_mem_cons.2 ⟨rfl, h.nodes hop hb.1⟩
  | .binary op left right type, _, he, hb => by
    rw [Expr.isBare, Bool.and_eq_true, Bool.and_eq_true] at hb
    obtain ⟨left₁, right₁, hleft, hright, rfl⟩ := complete_binary.1 he
    rw [orElse_of_isUnset hb.2]
    exact List.forall_mem_cons.2 ⟨rfl,
      List.forall_mem_append.2 ⟨h.nodes hleft hb.1.1, h.nodes hright hb.1.2⟩⟩

theorem From.nodesOf (h : From p f t i) : ∀ {es es₁ : List Expr}, t.completeAll i es = .ok es₁ →
    Expr.areBare es = true → ∀ n ∈ Expr.nodesOf es₁, p.Annotates f n
  | [], _, he, _ => by
    obtain rfl := completeAll_nil.1 he
    exact List.forall_mem_nil _
  | e :: es, _, he, hb => by
    rw [Expr.areBare, Bool.and_eq_true] at hb
    obtain ⟨e₁, es₁, h1, h2, rfl⟩ := completeAll_cons.1 he
    exact List.forall_mem_append.2 ⟨h.nodes h1 hb.1, h.nodesOf h2 hb.2⟩

end

theorem From.nodes_receiver (h : From p f t i) {e e₁ : Expr}
    (he : t.completeReceiver i e = .ok e₁) (hb : e.isBare = true) :
    ∀ n ∈ e₁.nodes, p.Annotates f n := by
  rcases completeReceiver_eq_ok.1 he with ⟨-, rfl⟩ | he
  · exact List.forall_mem_nil _
  · exact h.nodes he hb

mutual

theorem From.nodes_stmt (h : From p f t i) : ∀ {st st₁ : Stmt}, t.completeStmt i st = .ok st₁ →
    st.isBare = true → ∀ n ∈ st₁.nodes, p.Annotates f n
  | .declare d init, _, hs, hb => by
    obtain ⟨init₁, h1, rfl⟩ := completeStmt_declare.1 hs
    exact h.nodes_receiver h1 hb
  | .assign target value, _, hs, hb => by
    rw [Stmt.isBare, Bool.and_eq_true] at hb
    obtain ⟨target₁, value₁, h1, h2, rfl⟩ := completeStmt_assign.1 hs
    exact List.forall_mem_append.2 ⟨h.nodes h1 hb.1, h.nodes h2 hb.2⟩
  | .when cond body, _, hs, hb => by
    rw [Stmt.isBare, Bool.and_eq_true] at hb
    obtain ⟨cond₁, body₁, h1, h2, rfl⟩ := completeStmt_when.1 hs
    exact List.forall_mem_append.2 ⟨h.nodes h1 hb.1, h.nodes_stmts h2 hb.2⟩
  | .branch cond yes no, _, hs, hb => by
    rw [Stmt.isBare, Bool.and_eq_true, Bool.and_eq_true] at hb
    obtain ⟨cond₁, yes₁, no₁, h1, h2, h3, rfl⟩ := completeStmt_branch.1 hs
    exact List.forall_mem_append.2 ⟨List.forall_mem_append.2
      ⟨h.nodes h1 hb.1.1, h.nodes_stmts h2 hb.1.2⟩, h.nodes_stmts h3 hb.2⟩
  | .loop cond body, _, hs, hb => by
    rw [Stmt.isBare, Bool.and_eq_true] at hb
    obtain ⟨cond₁, body₁, h1, h2, rfl⟩ := completeStmt_loop.1 hs
    exact List.forall_mem_append.2 ⟨h.nodes h1 hb.1, h.nodes_stmts h2 hb.2⟩
  | .write value, _, hs, hb => by
    obtain ⟨value₁, h1, rfl⟩ := completeStmt_write.1 hs
    exact h.nodes h1 hb
  | .read target, _, hs, hb => by
    obtain ⟨target₁, h1, rfl⟩ := completeStmt_read.1 hs
    exact h.nodes h1 hb
  | .ret value, _, hs, hb => by
    obtain ⟨value₁, h1, rfl⟩ := completeStmt_ret.1 hs
    exact h.nodes_receiver h1 hb
  | .call c, _, hs, hb => by
    obtain ⟨c₁, h1, rfl⟩ := completeStmt_call.1 hs
    exact h.nodes h1 hb

theorem From.nodes_stmts (h : From p f t i) : ∀ {sts sts₁ : List Stmt},
    t.completeStmts i sts = .ok sts₁ → Stmt.areBare sts = true →
      ∀ n ∈ Stmt.nodesOf sts₁, p.Annotates f n
  | [], _, hs, _ => by
    obtain rfl := completeStmts_nil.1 hs
    exact List.forall_mem_nil _
  | st :: sts, _, hs, hb => by
    rw [Stmt.areBare, Bool.and_eq_true] at hb
    obtain ⟨st₁, sts₁, h1, h2, rfl⟩ := completeStmts_cons.1 hs
    exact List.forall_mem_append.2 ⟨h.nodes_stmt h1 hb.1, h.nodes_stmts h2 hb.2⟩

end

end

/-- Building the table of a program without annotations, whose inheritance runs in no circle, leaves
its tree as it is but for types and call targets, and these are right at every node of every
function body. -/
theorem build_annotates {p : Program} {t : Table} (hb : build p = .ok t) (hbare : p.isBare = true)
    (hac : p.AcyclicInheritance) : p.FilledBy t.program
      ∧ ∀ (i : ℕ) f f', p.functions[i]? = some f → t.program.functions[i]? = some f' →
        ∀ n ∈ Stmt.nodesOf f'.body, p.Annotates f n := by
  obtain ⟨t₀, fs, hscopes, hfs, rfl⟩ := build_eq_ok.1 hb
  refine ⟨⟨rfl, filledBy_completeFunctions hfs⟩, fun i f f' hf hf' => ?_⟩
  obtain ⟨body, hbody, hat⟩ := (of_completeFunctions hfs).2 i f hf
  cases hf'.symm.trans hat
  rw [Nat.zero_add] at hbody
  have hfrom : From p f t₀ i := ⟨hscopes, hac, hf⟩
  exact hfrom.nodes_stmts hbody (List.all_eq_true.1 hbare f (List.mem_of_getElem? hf))

end Table

/-- Inherited members and methods, an overloaded function, a constructor and nested indices. -/
def gallery : Program :=
  ⟨[⟨"Shape", [], [⟨"id", .integer⟩]⟩,
      ⟨"Grid", ["Shape"], [⟨"cells", ⟨.integer, [2, 3]⟩⟩, ⟨"scale", .float⟩]⟩],
    [{ name := "area", className := "Shape", isConstructor := false, params := [],
       returns := .integer, body := [.ret (.var "id" .void)] },
     { name := "Grid", className := "Grid", isConstructor := true, params := [⟨"s", .float⟩],
       returns := .void, body := [.assign (.var "scale" .void) (.var "s" .void)] },
     { name := "twice", className := "", isConstructor := false, params := [⟨"v", .integer⟩],
       returns := .integer, body := [.ret (.binary .add (.var "v" .void) (.var "v" .void) .void)] },
     { name := "twice", className := "", isConstructor := false, params := [⟨"v", .float⟩],
       returns := .float, body := [.ret (.binary .add (.var "v" .void) (.var "v" .void) .void)] },
     { name := "total", className := "Grid", isConstructor := false, params := [],
       returns := .integer,
       body := [.ret (.binary .add (.call .missing "area" [] false .void none)
         (.index (.index (.var "cells" .void) [.int 1] .void) [.int 2] .void) .void)] },
     { name := "main", className := "", isConstructor := false, params := [], returns := .void,
       body := [.declare ⟨"g", .object "Grid"⟩ (.call .missing "Grid" [.float "1.5"] true (.object "Grid") none),
         .when (.binary .lt (.dot (.var "g" .void) "id" .void) (.int 1) .void)
           [.write (.call .missing "twice" [.call (.var "g" .void) "total" [] false .void none]
             false .void none)]] }]⟩

/-- The outer call means the function for integers, because the method inside it returns one. -/
theorem build_annotates_gallery : ∃ t, Table.build gallery = .ok t ∧ gallery.FilledBy t.program
    ∧ (∀ (i : ℕ) f f', gallery.functions[i]? = some f → t.program.functions[i]? = some f' →
      ∀ n ∈ Stmt.nodesOf f'.body, gallery.Annotates f n)
    ∧ (t.program.functions[5]?).any fun f => match f.body with
      | [_, .when _ [.write (.call _ _ [.call _ _ _ _ _ inner] _ type outer)]] =>
        inner == some 4 && outer == some 2 && type == .integer
      | _ => false := by
  obtain ⟨t, hb, hcheck⟩ := of_tableChecks gallery (fun t =>
    (t.program.functions[5]?).any fun f => match f.body with
      | [_, .when _ [.write (.call _ _ [.call _ _ _ _ _ inner] _ type outer)]] =>
        inner == some 4 && outer == some 2 && type == .integer
      | _ => false) (by cbv)
  have hac : gallery.AcyclicInheritance := by
    refine Program.acyclicInheritance_of_lt (fun c => if c = "Grid" then 1 else 0) ?_
    decide
  obtain ⟨hfilled, hnodes⟩ := Table.build_annotates hb (by decide) hac
  exact ⟨t, hb, hfilled, hnodes, hcheck⟩

end MoonBackend
