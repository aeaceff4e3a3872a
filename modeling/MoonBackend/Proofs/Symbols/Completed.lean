import MoonBackend.Proofs.Symbols.Reorder
import MoonBackend.Tree.Decode

/-!
# Completed trees

What building a table leaves in the tree of a program that came without types: every expression has
the type that its parts give it, every name and member is declared, and every call means a function
that its receiver sees.
-/

namespace MoonBackend

open Layout

theorem Expr.eq_missing {e : Expr} (h : e.isMissing = true) : e = .missing := by
  cases e with
  | missing => rfl
  | _ => cases h

/-! ### Trees without types -/

mutual

/-- No call target is written down, and no type but that of an object where it is constructed. -/
def Expr.isBare : Expr → Bool
  | .missing | .int _ | .float _ => true
  | .var _ type => type.isUnset
  | .dot left _ type => left.isBare && type.isUnset
  | .index base indices type => base.isBare && Expr.areBare indices && type.isUnset
  | .call recv name args isNew type target =>
    recv.isBare && Expr.areBare args && (type.isUnset || isNew && type == .object name)
      && target.isNone
  | .unary _ operand type => operand.isBare && type.isUnset
  | .binary _ left right type => left.isBare && right.isBare && type.isUnset

def Expr.areBare : List Expr → Bool
  | [] => true
  | e :: es => e.isBare && Expr.areBare es

end

mutual

def Stmt.isBare : Stmt → Bool
  | .declare _ e | .write e | .read e | .ret e | .call e => e.isBare
  | .assign target value => target.isBare && value.isBare
  | .when cond body | .loop cond body => cond.isBare && Stmt.areBare body
  | .branch cond yes no => cond.isBare && Stmt.areBare yes && Stmt.areBare no

def Stmt.areBare : List Stmt → Bool
  | [] => true
  | st :: sts => st.isBare && Stmt.areBare sts

end

/-- A program without type annotations. -/
def Program.isBare (p : Program) : Bool := p.functions.all fun f => Stmt.areBare f.body

namespace Decode.CallForm

theorem isBare_call (c : CallForm) (type : Ty) :
    (c.call type).isBare = (c.receiver.isBare && Expr.areBare c.args && type.isUnset) := by
  simp [call, Expr.isBare]

/-- The type that a document gives a constructor call is no annotation of its own. -/
theorem isBare_new (c : CallForm) :
    c.new.isBare = (c.receiver.isBare && Expr.areBare c.args) := by
  simp [new, Expr.isBare]

end Decode.CallForm

/-! ### Completed trees -/

namespace Table

/-- The function at a position is one that a call with the given receiver may mean. -/
def Sees (t : Table) (caller : ℕ) (recv : Expr) (name : String) (isNew : Bool) (k : ℕ)
    (f : Signature) : Prop :=
  if isNew then f.isConstructor = true ∧ f.className = name
  else if recv.isMissing then f.isFree name = true
    ∨ ∃ g, t.signature? caller = some g ∧ g.isMember = true ∧ k ∈ t.methods g.className name
  else ∃ className, recv.type = .object className ∧ k ∈ t.methods className name

end Table

mutual

/-- Every part of the expression has its type. -/
def Expr.Completed (t : Table) (caller : ℕ) : Expr → Prop
  | .missing => False
  | .int _ | .float _ => True
  | .var name type => (t.resolveName caller name).map (fun x => x.1.entry.type) = some type
  | .dot left member type => left.Completed t caller
      ∧ ∃ className, left.type = .object className
        ∧ (t.member? className member).map (fun l => l.entry.type) = some type
  | .index base indices type => base.Completed t caller ∧ Expr.AllCompleted t caller indices
      ∧ indices ≠ [] ∧ indices.length ≤ base.type.dims.length
      ∧ type = ⟨base.type.base, base.type.dims.drop indices.length⟩
  | .call recv name args isNew type target => (recv.isMissing = true ∨ recv.Completed t caller)
      ∧ Expr.AllCompleted t caller args ∧ ∃ k f, target = some k ∧ t.signature? k = some f
        ∧ f.params.length = args.length ∧ t.Sees caller recv name isNew k f
        ∧ type = if isNew then .object name else f.returns
  | .unary op operand type => operand.Completed t caller
      ∧ type = if op = .not then .integer else operand.type
  | .binary op left right type => left.Completed t caller ∧ right.Completed t caller
      ∧ type = if op.isTruth then .integer else left.type

def Expr.AllCompleted (t : Table) (caller : ℕ) : List Expr → Prop
  | [] => True
  | e :: es => e.Completed t caller ∧ Expr.AllCompleted t caller es

end

mutual

def Stmt.Completed (t : Table) (caller : ℕ) : Stmt → Prop
  | .declare _ e | .ret e => e.isMissing = true ∨ e.Completed t caller
  | .assign target value => target.Completed t caller ∧ value.Completed t caller
  | .when cond body | .loop cond body => cond.Completed t caller ∧ Stmt.AllCompleted t caller body
  | .branch cond yes no =>
    cond.Completed t caller ∧ Stmt.AllCompleted t caller yes ∧ Stmt.AllCompleted t caller no
  | .write e | .read e | .call e => e.Completed t caller

def Stmt.AllCompleted (t : Table) (caller : ℕ) : List Stmt → Prop
  | [] => True
  | st :: sts => st.Completed t caller ∧ Stmt.AllCompleted t caller sts

end

/-! ### Tables with the same names -/

namespace Table

/-- The tables answer the questions of completion alike. -/
structure Agrees (t t' : Table) : Prop where
  name : ∀ i name, (t'.resolveName i name).map view = (t.resolveName i name).map view
  member : ∀ c name, (t'.member? c name).map (·.entry.type) = (t.member? c name).map (·.entry.type)
  heads : t'.program.functions.map Function.toSignature
    = t.program.functions.map Function.toSignature
  methods : ∀ c name k, k ∈ t'.methods c name ↔ k ∈ t.methods c name

namespace Agrees

variable {t t' t'' : Table}

theorem trans (h : Agrees t t') (h' : Agrees t' t'') : Agrees t t'' :=
  ⟨fun i name => (h'.name i name).trans (h.name i name),
    fun c name => (h'.member c name).trans (h.member c name), h'.heads.trans h.heads,
    fun c name k => (h'.methods c name k).trans (h.methods c name k)⟩

theorem signature? (h : Agrees t t') (i : ℕ) : t'.signature? i = t.signature? i := by
  unfold Table.signature?
  rw [← List.getElem?_map, ← List.getElem?_map, h.heads]

theorem sees (h : Agrees t t') {caller k : ℕ} {recv : Expr} {name : String} {isNew : Bool}
    {f : Signature} (hs : t.Sees caller recv name isNew k f) :
    t'.Sees caller recv name isNew k f := by
  simpa only [Sees, h.signature?, h.methods] using hs

end Agrees

/-! ### What a call means -/

section

variable {t : Table}

theorem mem_functionsWhere {P : Signature → Bool} {k : ℕ} (h : k ∈ t.functionsWhere P) {f : Signature}
    (hf : t.signature? k = some f) : P f = true := by
  obtain ⟨g, hg, hP⟩ := (Option.any_eq_true _ _).1 (List.mem_filter.1 h).2
  rw [signature?, hg] at hf
  cases hf
  exact hP

theorem of_pickOverload {call name : String} {types : List Ty} {found : List ℕ} {k : ℕ}
    (h : t.pickOverload call name types found = .ok k) :
    k ∈ found ∧ ∃ f, t.signature? k = some f ∧ f.params.length = types.length := by
  have harity : ∀ {k}, (k ∈ found.filter fun i =>
      (t.signature? i).any fun f => f.params.length == types.length) →
      k ∈ found ∧ ∃ f, t.signature? k = some f ∧ f.params.length = types.length := by
    intro k hk
    obtain ⟨hm, hany⟩ := List.mem_filter.1 hk
    obtain ⟨f, hf, hlen⟩ := (Option.any_eq_true _ _).1 hany
    exact ⟨hm, f, hf, eq_of_beq hlen⟩
  unfold pickOverload at h
  simp only at h
  split at h
  · rename_i i hi
    cases h
    exact harity (List.mem_of_mem_filter (hi ▸ List.mem_singleton_self k))
  · rename_i i hi
    cases h
    exact harity (hi ▸ List.mem_singleton_self k)
  · split at h
    · cases h
    · cases h

theorem sees_of_candidates {caller k : ℕ} {call : String} {recv : Expr} {name : String} {isNew : Bool}
    {found : List ℕ} (h : t.candidates caller call recv name isNew = .ok found) (hk : k ∈ found)
    {f : Signature} (hf : t.signature? k = some f) : t.Sees caller recv name isNew k f := by
  unfold candidates at h
  unfold Sees
  by_cases hnew : isNew = true
  · rw [if_pos hnew] at h ⊢
    split at h
    · cases h
    · cases h
      have := mem_functionsWhere hk hf
      simpa using this
  · rw [if_neg hnew] at h ⊢
    by_cases hr : recv.isMissing = true
    · simp only [hr, Bool.not_true, Bool.false_eq_true, if_false, if_true] at h ⊢
      split at h
      · rename_i g _ hg
        cases h
        split at hk
        · exact .inr ⟨g, hg, ‹_›, hk⟩
        · cases hk
      · cases h
        exact .inl (mem_functionsWhere hk hf)
    · simp only [hr, Bool.not_false, if_true, Bool.false_eq_true, if_false] at h ⊢
      split at h
      · rename_i className htype
        cases h
        exact ⟨className, htype, hk⟩
      · cases h

end

/-! ### Completion gives types -/

theorem orElse_of_isUnset {type own : Ty} (h : type.isUnset = true) : type.orElse own = own :=
  if_pos h

/-- The type that a constructor call comes with is the one that it is given. -/
theorem orElse_callType {t : Table} {type : Ty} {name : String} {isNew : Bool}
    (h : (type.isUnset || isNew && type == .object name) = true) (k : ℕ) :
    type.orElse (t.callType name isNew k) = t.callType name isNew k := by
  rw [Bool.or_eq_true, Bool.and_eq_true, beq_iff_eq] at h
  rcases h with hunset | ⟨rfl, rfl⟩
  · exact orElse_of_isUnset hunset
  · exact ite_self _

section

variable {t t' : Table} {i : ℕ}

mutual

theorem Agrees.completed (hag : Agrees t t') : ∀ {e e₁ : Expr}, t.complete i e = .ok e₁ → e.isBare = true →
    e₁.Completed t' i
  | .missing, _, he, _ => (complete_missing.1 he).elim
  | .int _, _, he, _ => by
    obtain rfl := complete_int.1 he
    trivial
  | .float _, _, he, _ => by
    obtain rfl := complete_float.1 he
    trivial
  | .var name type, _, he, hb => by
    obtain ⟨l, b, hl, rfl⟩ := complete_var.1 he
    rw [orElse_of_isUnset hb, Expr.Completed]
    have hn := hag.name i name
    rw [hl, Option.map_some, Option.map_eq_some_iff] at hn
    obtain ⟨x, hx, hv⟩ := hn
    rw [hx]
    exact congrArg (fun v => some v.1) hv
  | .dot left member type, _, he, hb => by
    rw [Expr.isBare, Bool.and_eq_true] at hb
    obtain ⟨left₁, cls, l, hleft, htype, hl, rfl⟩ := complete_dot.1 he
    rw [orElse_of_isUnset hb.2, Expr.Completed]
    refine ⟨hag.completed hleft hb.1, cls, htype, ?_⟩
    rw [hag.member, hl]
    rfl
  | .index base indices type, _, he, hb => by
    rw [Expr.isBare, Bool.and_eq_true, Bool.and_eq_true] at hb
    obtain ⟨base₁, indices₁, hbase, hindices, hne, hle, rfl⟩ := complete_index.1 he
    rw [orElse_of_isUnset hb.2, Expr.Completed]
    exact ⟨hag.completed hbase hb.1.1, hag.completedAll hindices hb.1.2, hne, hle, rfl⟩
  | .call recv name args isNew type target, _, he, hb => by
    rw [Expr.isBare, Bool.and_eq_true, Bool.and_eq_true, Bool.and_eq_true,
      Option.isNone_iff_eq_none] at hb
    obtain ⟨⟨⟨hbr, hba⟩, hbt⟩, rfl⟩ := hb
    obtain ⟨recv₁, args₁, k, hrecv, hargs, ⟨_, found, hfound, hk⟩, rfl⟩ := complete_call.1 he
    obtain ⟨hmem, f, hf, hlen⟩ := of_pickOverload hk
    have hrecv' : recv₁.isMissing = true ∨ recv₁.Completed t' i := by
      rcases completeReceiver_eq_ok.1 hrecv with ⟨-, rfl⟩ | hrecv
      · exact .inl rfl
      · exact .inr (hag.completed hrecv hbr)
    rw [orElse_callType hbt, callType, hf, Expr.Completed]
    refine ⟨hrecv', hag.completedAll hargs hba, k, f, rfl,
      (hag.signature? k).trans hf, ?_, hag.sees (sees_of_candidates hfound hmem hf), rfl⟩
    rw [hlen, List.length_map]
  | .unary op operand type, _, he, hb => by
    rw [Expr.isBare, Bool.and_eq_true] at hb
    obtain ⟨operand₁, hop, rfl⟩ := complete_unary.1 he
    rw [orElse_of_isUnset hb.2, Expr.Completed]
    exact ⟨hag.completed hop hb.1, rfl⟩
  | .binary op left right type, _, he, hb => by
    rw [Expr.isBare, Bool.and_eq_true, Bool.and_eq_true] at hb
    obtain ⟨left₁, right₁, hleft, hright, rfl⟩ := complete_binary.1 he
    rw [orElse_of_isUnset hb.2, Expr.Completed]
    exact ⟨hag.completed hleft hb.1.1, hag.completed hright hb.1.2, rfl⟩

theorem Agrees.completedAll (hag : Agrees t t') : ∀ {es es₁ : List Expr}, t.completeAll i es = .ok es₁ →
    Expr.areBare es = true → Expr.AllCompleted t' i es₁
  | [], _, he, _ => by
    obtain rfl := completeAll_nil.1 he
    trivial
  | e :: es, _, he, hb => by
    rw [Expr.areBare, Bool.and_eq_true] at hb
    obtain ⟨e₁, es₁, h1, h2, rfl⟩ := completeAll_cons.1 he
    exact ⟨hag.completed h1 hb.1, hag.completedAll h2 hb.2⟩

end

theorem Agrees.completedReceiver (hag : Agrees t t') {e e₁ : Expr}
    (he : t.completeReceiver i e = .ok e₁) (hb : e.isBare = true) :
    e₁.isMissing = true ∨ e₁.Completed t' i := by
  rcases completeReceiver_eq_ok.1 he with ⟨-, rfl⟩ | he
  · exact .inl rfl
  · exact .inr (hag.completed he hb)

mutual

theorem Agrees.completedStmt (hag : Agrees t t') : ∀ {st st₁ : Stmt}, t.completeStmt i st = .ok st₁ →
    st.isBare = true → st₁.Completed t' i
  | .declare d init, _, he, hb => by
    obtain ⟨init₁, h1, rfl⟩ := completeStmt_declare.1 he
    exact hag.completedReceiver h1 hb
  | .ret value, _, he, hb => by
    obtain ⟨value₁, h1, rfl⟩ := completeStmt_ret.1 he
    exact hag.completedReceiver h1 hb
  | .assign target value, _, he, hb => by
    rw [Stmt.isBare, Bool.and_eq_true] at hb
    obtain ⟨target₁, value₁, h1, h2, rfl⟩ := completeStmt_assign.1 he
    exact ⟨hag.completed h1 hb.1, hag.completed h2 hb.2⟩
  | .when cond body, _, he, hb => by
    rw [Stmt.isBare, Bool.and_eq_true] at hb
    obtain ⟨cond₁, body₁, h1, h2, rfl⟩ := completeStmt_when.1 he
    exact ⟨hag.completed h1 hb.1, hag.completedStmts h2 hb.2⟩
  | .loop cond body, _, he, hb => by
    rw [Stmt.isBare, Bool.and_eq_true] at hb
    obtain ⟨cond₁, body₁, h1, h2, rfl⟩ := completeStmt_loop.1 he
    exact ⟨hag.completed h1 hb.1, hag.completedStmts h2 hb.2⟩
  | .branch cond yes no, _, he, hb => by
    rw [Stmt.isBare, Bool.and_eq_true, Bool.and_eq_true] at hb
    obtain ⟨cond₁, yes₁, no₁, h1, h2, h3, rfl⟩ := completeStmt_branch.1 he
    exact ⟨hag.completed h1 hb.1.1, hag.completedStmts h2 hb.1.2,
      hag.completedStmts h3 hb.2⟩
  | .write e, _, he, hb => by
    obtain ⟨e₁, h1, rfl⟩ := completeStmt_write.1 he
    exact hag.completed h1 hb
  | .read e, _, he, hb => by
    obtain ⟨e₁, h1, rfl⟩ := completeStmt_read.1 he
    exact hag.completed h1 hb
  | .call e, _, he, hb => by
    obtain ⟨e₁, h1, rfl⟩ := completeStmt_call.1 he
    exact hag.completed h1 hb

theorem Agrees.completedStmts (hag : Agrees t t') : ∀ {sts sts₁ : List Stmt}, t.completeStmts i sts = .ok sts₁ →
    Stmt.areBare sts = true → Stmt.AllCompleted t' i sts₁
  | [], _, he, _ => by
    obtain rfl := completeStmts_nil.1 he
    trivial
  | st :: sts, _, he, hb => by
    rw [Stmt.areBare, Bool.and_eq_true] at hb
    obtain ⟨st₁, sts₁, h1, h2, rfl⟩ := completeStmts_cons.1 he
    exact ⟨hag.completedStmt h1 hb.1, hag.completedStmts h2 hb.2⟩

end

end

/-! ### A resolved table names what the built one does -/

/-- The second scope belongs to the same declaration and gives names the same types. -/
structure SameNames (s s' : Scope) : Prop where
  backing : s'.backing = s.backing
  lookup : ∀ name, (s'.lookup name).map Entry.type = (s.lookup name).map Entry.type

theorem agrees_of_declares {p : Program} {t t' : Table} (hd : Declares p t) (hd' : Declares p t')
    (hheads : t'.program.functions.map Function.toSignature
      = t.program.functions.map Function.toSignature)
    (hscopes : ∀ i : ℕ, Option.Rel SameNames t.functions[i]? t'.functions[i]?) : Agrees t t' := by
  have hdepth : t'.depth = t.depth := by rw [depth, depth, hd.count, hd'.count]
  have hmember : ∀ c name, (t'.member? c name).map (·.entry.type)
      = (t.member? c name).map (·.entry.type) := by
    intro c name
    unfold member?
    rw [hdepth]
    exact hd.memberFrom_perm hd' (.refl _) t.depth c name
  have hwhere : ∀ P, t'.functionsWhere P = t.functionsWhere P := Program.positions_congr hheads
  refine ⟨fun i name => ?_, hmember, hheads, fun c name k => ?_⟩
  · unfold resolveName
    have hrel := hscopes i
    cases hs : t.functions[i]? with
    | none =>
      rw [hs] at hrel
      rw [of_rel_none hrel]
    | some s =>
      rw [hs] at hrel
      obtain ⟨s', hs', hsame⟩ := of_rel_some hrel
      have hlook := hsame.lookup name
      simp only [hs', hsame.backing]
      cases hl : s.lookup name with
      | some e =>
        rw [hl, Option.map_some, Option.map_eq_some_iff] at hlook
        obtain ⟨e', he', htype⟩ := hlook
        rw [he']
        exact congrArg (fun ty => some (ty, false)) htype
      | none =>
        rw [hl, Option.map_none, Option.map_eq_none_iff] at hlook
        rw [hlook]
        simp only
        split
        · rename_i head _
          split
          · have hm := congrArg (Option.map fun ty => (ty, true)) (hmember head.className name)
            simp only [Option.map_map] at hm ⊢
            exact hm
          · rfl
        · rfl
  · unfold methods
    rw [hdepth]
    have hwhere' : ∀ P, (t'.functionsWhere P).Perm ((t.functionsWhere P).map (Equiv.refl ℕ)) := by
      intro P
      rw [hwhere P]
      simp
    have hperm := hd.methodsFrom_perm hd' (.refl _) hwhere' t.depth c name
    rw [hperm.mem_iff]
    simp

theorem sameNames_withSlots (t : Table) (entryName : String) (i : ℕ) (s : Scope) :
    SameNames s (withSlots t entryName i s) := by
  refine ⟨rfl, fun name => congrArg _ ?_⟩
  unfold Scope.lookup
  split
  · rfl
  · rename_i hne
    unfold withSlots
    cases t.program.functions[i]? with
    | none => simp only [List.append_nil]
    | some f =>
      have hnone : ((Demand.ofFunction t entryName i f).map demanded).find? (·.name == name)
          = none := by
        refine List.find?_eq_none.2 fun e he heq => hne ?_
        obtain ⟨d, -, rfl⟩ := List.mem_map.1 he
        rw [← eq_of_beq heq]
        rfl
      simp only [List.find?_append, hnone, Option.or_none]

theorem SameNames.of_later {s s' : Scope} (h : s.Later s') : SameNames s s' := by
  refine ⟨h.backing, fun name => ?_⟩
  have hrel := h.lookup name
  cases hl : s.lookup name with
  | none =>
    rw [hl] at hrel
    rw [of_rel_none hrel]
  | some e =>
    rw [hl] at hrel
    obtain ⟨e', he', hlater⟩ := of_rel_some hrel
    rw [he']
    exact congrArg some hlater.type

theorem SameNames.trans {s₁ s₂ s₃ : Scope} (h : SameNames s₁ s₂) (h' : SameNames s₂ s₃) :
    SameNames s₁ s₃ :=
  ⟨h'.backing.trans h.backing, fun name => (h'.lookup name).trans (h.lookup name)⟩

theorem agrees_of_later {p : Program} {t t' : Table} {entryName : String} (hd : Declares p t)
    (hl : (supplied t entryName).Later t') : Agrees t t' := by
  have hprogram : t'.program = t.program := hl.program
  refine agrees_of_declares hd ((hd.supplied entryName).later hl) (by rw [hprogram]) fun j => ?_
  have hrel := rel_getElem? hl.functions j
  rw [getElem?_supplied] at hrel
  cases hs : t.functions[j]? with
  | none =>
    rw [hs] at hrel
    rw [of_rel_none hrel]
    exact .none
  | some s =>
    rw [hs] at hrel
    obtain ⟨s', hs', hlater⟩ := of_rel_some hrel
    rw [hs']
    exact .some ((sameNames_withSlots t entryName j s).trans (.of_later hlater))

theorem heads_completeFunctions {t : Table} {i : ℕ} {fs fs' : List Function}
    (h : t.completeFunctions i fs = .ok fs') :
    fs'.map Function.toSignature = fs.map Function.toSignature := by
  induction fs generalizing i fs' with
  | nil =>
    obtain rfl := completeFunctions_nil.1 h
    rfl
  | cons f fs ih =>
    obtain ⟨body, rest, -, hrest, rfl⟩ := completeFunctions_cons.1 h
    rw [List.map_cons, List.map_cons, ih hrest]

theorem agrees_of_build {p : Program} {t₀ : Table} {fs : List Function} (h : scopes p = .ok t₀)
    (hfs : t₀.completeFunctions 0 p.functions = .ok fs) :
    Agrees t₀ { t₀ with program := { p with functions := fs } } := by
  have hd := declares_of_build (build_eq_ok.2 ⟨t₀, fs, h, hfs, rfl⟩)
  refine agrees_of_declares (declares_of_scopes h) hd ?_ fun i => ?_
  · rw [(hasScopes h).program]
    exact heads_completeFunctions hfs
  · cases t₀.functions[i]? with
    | none => exact .none
    | some s => exact .some ⟨rfl, fun _ => rfl⟩

/-- The tree that a resolved layout holds is completed. -/
theorem completed_of_later {p : Program} {t t' : Table} {entryName : String}
    (hb : build p = .ok t) (hbare : p.isBare = true) (hl : (supplied t entryName).Later t') {i : ℕ}
    {f : Function} (hf : t'.program.functions[i]? = some f) : Stmt.AllCompleted t' i f.body := by
  obtain ⟨t₀, fs, hscopes, hfs, rfl⟩ := build_eq_ok.1 hb
  have hag : Agrees t₀ t' :=
    (agrees_of_build hscopes hfs).trans (agrees_of_later (declares_of_build hb) hl)
  obtain ⟨hlen, hbodies⟩ := of_completeFunctions hfs
  rw [hl.program] at hf
  have hi : i < p.functions.length := by
    rw [← hlen]
    exact (List.getElem?_eq_some_iff.1 hf).1
  obtain ⟨body, hbody, hf'⟩ := hbodies i _ (List.getElem?_eq_getElem hi)
  cases hf.symm.trans hf'
  rw [Nat.zero_add] at hbody
  refine hag.completedStmts hbody ?_
  exact List.all_eq_true.1 hbare _ (List.getElem_mem hi)

end Table

end MoonBackend
