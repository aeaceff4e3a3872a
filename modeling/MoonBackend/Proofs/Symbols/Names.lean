import MoonBackend.Proofs.Symbols.Completed
import MoonBackend.Proofs.Text.Numeral

/-!
# The names in a program

What a comment shows of a program is made of the names in it, and completion only adds types and
targets: the names stay.
-/

namespace MoonBackend

open Text

/-- The name of the class of a type, the empty name for every other type. -/
def Ty.names (t : Ty) : List String := [t.base.className]

def VarDecl.names (d : VarDecl) : List String := d.name :: d.type.names

mutual

def Expr.names : Expr → List String
  | .missing | .int _ | .float _ => []
  | .var name _ => [name]
  | .dot left member _ => left.names ++ [member]
  | .index base indices _ => base.names ++ Expr.namesOf indices
  | .call recv name args _ _ _ => recv.names ++ name :: Expr.namesOf args
  | .unary _ operand _ => operand.names
  | .binary _ left right _ => left.names ++ right.names

def Expr.namesOf : List Expr → List String
  | [] => []
  | e :: es => e.names ++ Expr.namesOf es

end

mutual

def Stmt.names : Stmt → List String
  | .declare d e => d.names ++ e.names
  | .write e | .read e | .ret e | .call e => e.names
  | .assign target value => target.names ++ value.names
  | .when cond body | .loop cond body => cond.names ++ Stmt.namesOf body
  | .branch cond yes no => cond.names ++ Stmt.namesOf yes ++ Stmt.namesOf no

def Stmt.namesOf : List Stmt → List String
  | [] => []
  | st :: sts => st.names ++ Stmt.namesOf sts

end

def Signature.names (f : Signature) : List String :=
  f.name :: f.className :: f.params.flatMap VarDecl.names ++ f.returns.names

def ClassDecl.names (c : ClassDecl) : List String :=
  c.name :: c.bases ++ c.attributes.flatMap VarDecl.names

def Program.names (p : Program) : List String :=
  p.classes.flatMap ClassDecl.names
    ++ p.functions.flatMap fun f => f.toSignature.names ++ Stmt.namesOf f.body

/-- No name has a line feed. -/
def OneLiners (names : List String) : Prop := ∀ s ∈ names, OneLine s

instance (names : List String) : Decidable (OneLiners names) :=
  inferInstanceAs (Decidable (∀ s ∈ names, '\n' ∉ s.toList))

theorem oneLiners_append {l l' : List String} :
    OneLiners (l ++ l') ↔ OneLiners l ∧ OneLiners l' := List.forall_mem_append

theorem oneLiners_cons {s : String} {l : List String} :
    OneLiners (s :: l) ↔ OneLine s ∧ OneLiners l := List.forall_mem_cons

/-! ### Texts -/

theorem Ty.oneLine_text {t : Ty} (h : OneLiners t.names) : OneLine t.text := by
  rw [Ty.text, oneLine_append]
  constructor
  · cases hb : t.base with
    | object name => exact h name (by simp [Ty.names, hb, Base.className])
    | _ => decide
  · refine oneLine_join fun s hs => ?_
    obtain ⟨d, -, rfl⟩ := List.mem_map.1 hs
    rw [Ty.dimText, oneLine_append, oneLine_append]
    exact ⟨⟨by decide, oneLine_decimal _⟩, by decide⟩

theorem VarDecl.oneLine_text {d : VarDecl} (h : OneLiners d.names) : OneLine d.text := by
  rw [VarDecl.names, oneLiners_cons] at h
  rw [VarDecl.text, oneLine_append, oneLine_append]
  exact ⟨⟨h.1, by decide⟩, Ty.oneLine_text h.2⟩

theorem Signature.oneLine_text {f : Signature} (h : OneLiners f.names) : OneLine f.text := by
  rw [Signature.names, oneLiners_append, oneLiners_cons, oneLiners_cons] at h
  obtain ⟨⟨hname, hclass, hparams⟩, hreturns⟩ := h
  have hqualified : OneLine f.qualifiedName := by
    rw [Signature.qualifiedName]
    split
    · rw [oneLine_append, oneLine_append]
      exact ⟨⟨hclass, by decide⟩, hname⟩
    · exact hname
  simp only [Signature.text, oneLine_append]
  refine ⟨⟨⟨⟨⟨by decide, hqualified⟩, by decide⟩, ?_⟩, by decide⟩, Ty.oneLine_text hreturns⟩
  refine oneLine_intercalate fun s hs => ?_
  obtain ⟨d, hd, rfl⟩ := List.mem_map.1 hs
  exact VarDecl.oneLine_text fun s hs => hparams s (List.mem_flatMap.2 ⟨d, hd, hs⟩)

theorem Decimal.oneLine_of_parse {text : String} {v : Decimal} (h : Decimal.parse text = .ok v) :
    OneLine text := by
  intro hm
  unfold Decimal.parse at h
  simp only at h
  generalize hb : (if (text.toList.head? == some '-') = true then text.toList.tail
    else text.toList) = body at h
  -- a line feed is neither the sign nor the point, so it would be one of the digits
  have hbody : '\n' ∈ body := by
    rw [← hb]
    split
    · rename_i hsign
      obtain ⟨cs, hcs⟩ := List.head?_eq_some_iff.1 (eq_of_beq hsign)
      rw [hcs] at hm ⊢
      exact (List.mem_cons.1 hm).resolve_left (by decide)
    · exact hm
  have hpart : '\n' ∈ body.takeWhile (· != '.') ++ (body.dropWhile (· != '.')).drop 1 := by
    rw [← List.takeWhile_append_dropWhile (p := (· != '.')) (l := body)] at hbody
    refine List.mem_append.2 ((List.mem_append.1 hbody).imp id fun hrest => ?_)
    cases hd : body.dropWhile (· != '.') with
    | nil =>
      rw [hd] at hrest
      cases hrest
    | cons c cs =>
      have hc : c = '.' := by
        have := List.head?_dropWhile_not (· != '.') body
        rw [hd] at this
        simpa using this
      rw [hd, hc] at hrest
      exact (List.mem_cons.1 hrest).resolve_left (by decide)
  split at h
  · cases h
  · rename_i hdigits
    simp only [Bool.or_eq_true, not_or, Bool.not_eq_true, Bool.not_eq_false'] at hdigits
    exact absurd (List.all_eq_true.1 hdigits.2 _ hpart) (by decide)

/-! ### Completion keeps names -/

section

variable {t : Table} {i : ℕ}

mutual

theorem Table.names_complete : ∀ {e e₁ : Expr}, t.complete i e = .ok e₁ → e₁.names = e.names
  | .missing, _, he => (Table.complete_missing.1 he).elim
  | .int _, _, he => by
    obtain rfl := Table.complete_int.1 he
    rfl
  | .float _, _, he => by
    obtain rfl := Table.complete_float.1 he
    rfl
  | .var name type, _, he => by
    obtain ⟨_, _, -, rfl⟩ := Table.complete_var.1 he
    rfl
  | .dot left member type, _, he => by
    obtain ⟨left₁, _, _, hleft, -, -, rfl⟩ := Table.complete_dot.1 he
    rw [Expr.names, Expr.names, Table.names_complete hleft]
  | .index base indices type, _, he => by
    obtain ⟨base₁, indices₁, hbase, hindices, -, -, rfl⟩ := Table.complete_index.1 he
    rw [Expr.names, Expr.names, Table.names_complete hbase, Table.names_completeAll hindices]
  | .call recv name args isNew type target, _, he => by
    obtain ⟨recv₁, args₁, _, hrecv, hargs, -, rfl⟩ := Table.complete_call.1 he
    have hnames : recv₁.names = recv.names := by
      rcases Table.completeReceiver_eq_ok.1 hrecv with ⟨rfl, rfl⟩ | hrecv
      · rfl
      · exact Table.names_complete hrecv
    rw [Expr.names, Expr.names, hnames, Table.names_completeAll hargs]
  | .unary op operand type, _, he => by
    obtain ⟨operand₁, hop, rfl⟩ := Table.complete_unary.1 he
    rw [Expr.names, Expr.names, Table.names_complete hop]
  | .binary op left right type, _, he => by
    obtain ⟨left₁, right₁, hleft, hright, rfl⟩ := Table.complete_binary.1 he
    rw [Expr.names, Expr.names, Table.names_complete hleft, Table.names_complete hright]

theorem Table.names_completeAll : ∀ {es es₁ : List Expr}, t.completeAll i es = .ok es₁ →
    Expr.namesOf es₁ = Expr.namesOf es
  | [], _, he => by
    obtain rfl := Table.completeAll_nil.1 he
    rfl
  | e :: es, _, he => by
    obtain ⟨e₁, es₁, h1, h2, rfl⟩ := Table.completeAll_cons.1 he
    rw [Expr.namesOf, Expr.namesOf, Table.names_complete h1, Table.names_completeAll h2]

end

theorem Table.names_completeReceiver {e e₁ : Expr} (he : t.completeReceiver i e = .ok e₁) :
    e₁.names = e.names := by
  rcases Table.completeReceiver_eq_ok.1 he with ⟨rfl, rfl⟩ | he
  · rfl
  · exact Table.names_complete he

mutual

theorem Table.names_completeStmt : ∀ {st st₁ : Stmt}, t.completeStmt i st = .ok st₁ →
    st₁.names = st.names
  | .declare d init, _, he => by
    obtain ⟨init₁, h1, rfl⟩ := Table.completeStmt_declare.1 he
    rw [Stmt.names, Stmt.names, Table.names_completeReceiver h1]
  | .ret value, _, he => by
    obtain ⟨value₁, h1, rfl⟩ := Table.completeStmt_ret.1 he
    exact Table.names_completeReceiver h1
  | .assign target value, _, he => by
    obtain ⟨target₁, value₁, h1, h2, rfl⟩ := Table.completeStmt_assign.1 he
    rw [Stmt.names, Stmt.names, Table.names_complete h1, Table.names_complete h2]
  | .when cond body, _, he => by
    obtain ⟨cond₁, body₁, h1, h2, rfl⟩ := Table.completeStmt_when.1 he
    rw [Stmt.names, Stmt.names, Table.names_complete h1, Table.names_completeStmts h2]
  | .loop cond body, _, he => by
    obtain ⟨cond₁, body₁, h1, h2, rfl⟩ := Table.completeStmt_loop.1 he
    rw [Stmt.names, Stmt.names, Table.names_complete h1, Table.names_completeStmts h2]
  | .branch cond yes no, _, he => by
    obtain ⟨cond₁, yes₁, no₁, h1, h2, h3, rfl⟩ := Table.completeStmt_branch.1 he
    rw [Stmt.names, Stmt.names, Table.names_complete h1, Table.names_completeStmts h2,
      Table.names_completeStmts h3]
  | .write e, _, he => by
    obtain ⟨e₁, h1, rfl⟩ := Table.completeStmt_write.1 he
    exact Table.names_complete h1
  | .read e, _, he => by
    obtain ⟨e₁, h1, rfl⟩ := Table.completeStmt_read.1 he
    exact Table.names_complete h1
  | .call e, _, he => by
    obtain ⟨e₁, h1, rfl⟩ := Table.completeStmt_call.1 he
    exact Table.names_complete h1

theorem Table.names_completeStmts : ∀ {sts sts₁ : List Stmt}, t.completeStmts i sts = .ok sts₁ →
    Stmt.namesOf sts₁ = Stmt.namesOf sts
  | [], _, he => by
    obtain rfl := Table.completeStmts_nil.1 he
    rfl
  | st :: sts, _, he => by
    obtain ⟨st₁, sts₁, h1, h2, rfl⟩ := Table.completeStmts_cons.1 he
    rw [Stmt.namesOf, Stmt.namesOf, Table.names_completeStmt h1, Table.names_completeStmts h2]

end

end

theorem Table.names_of_build {p : Program} {t : Table} (hb : Table.build p = .ok t) {f : Function}
    (hf : f ∈ t.program.functions) : ∃ f₀ ∈ p.functions, f.toSignature = f₀.toSignature
      ∧ Stmt.namesOf f.body = Stmt.namesOf f₀.body := by
  obtain ⟨_, -, hcomp, -⟩ := Table.of_build hb
  obtain ⟨hlen, hfun⟩ := Table.of_completeFunctions hcomp
  obtain ⟨i, hi, rfl⟩ := List.mem_iff_getElem.1 hf
  have hlt : i < p.functions.length := hlen ▸ hi
  obtain ⟨body, hbody, hf'⟩ := hfun i _ (List.getElem?_eq_getElem hlt)
  refine ⟨p.functions[i], List.getElem_mem hlt, ?_⟩
  have heq := (List.getElem?_eq_getElem hi).symm.trans hf'
  rw [Option.some.inj heq]
  exact ⟨rfl, Table.names_completeStmts hbody⟩

end MoonBackend
