import Mathlib.Data.List.Nodup
import MoonBackend.Proofs.Symbols.Built

/-!
# Programs that can be declared

A program has scopes just when its declarations fit together: no name is used twice in one scope,
and the classes that it refers to are declared.
-/

namespace MoonBackend

theorem not_exists_ok {α ε : Type} {e : ε} : ¬∃ a : α, Except.error e = .ok a := by
  rintro ⟨a, h⟩
  cases h

/-! ### Local variables -/

mutual

def Stmt.locals : Stmt → List VarDecl
  | .declare d _ => [d]
  | .when _ body => localsOf body
  | .branch _ yes no => localsOf yes ++ localsOf no
  | .loop _ body => localsOf body
  | _ => []

def Stmt.localsOf : List Stmt → List VarDecl
  | [] => []
  | st :: sts => st.locals ++ localsOf sts

end

def Function.variables (f : Function) : List VarDecl := f.params ++ Stmt.localsOf f.body

namespace Scope

theorem decl_localEntry (path : Path) (d : VarDecl) :
    VarDecl.mk (localEntry path d).name (localEntry path d).type = d := by
  unfold localEntry
  split
  · rename_i hname
    obtain ⟨name, type⟩ := d
    obtain rfl : name = "" := eq_of_beq hname
    rfl
  · rfl

mutual

theorem map_decl_localsOf (path : Path) (st : Stmt) :
    (localsOf path st).map (fun e => VarDecl.mk e.name e.type) = st.locals := by
  cases st with
  | declare d init => simp [localsOf, Stmt.locals, decl_localEntry]
  | «when» cond body => rw [localsOf, Stmt.locals, map_decl_localsOfAll]
  | branch cond yes no =>
    rw [localsOf, Stmt.locals, List.map_append, map_decl_localsOfAll, map_decl_localsOfAll]
  | loop cond body => rw [localsOf, Stmt.locals, map_decl_localsOfAll]
  | _ => simp [localsOf, Stmt.locals]

theorem map_decl_localsOfAll (path : Path) (i : ℕ) (sts : List Stmt) :
    (localsOfAll path i sts).map (fun e => VarDecl.mk e.name e.type) = Stmt.localsOf sts := by
  cases sts with
  | nil => rfl
  | cons st sts =>
    rw [localsOfAll, Stmt.localsOf, List.map_append, map_decl_localsOf, map_decl_localsOfAll]

end

/-! ### Names that are used once -/

/-- No name is used twice; what has no name may stand there any number of times. -/
def UsedOnce (names : List String) : Prop := names.Pairwise fun a b => a ≠ "" → a ≠ b

instance (names : List String) : Decidable (UsedOnce names) :=
  inferInstanceAs (Decidable (names.Pairwise fun a b => a ≠ "" → a ≠ b))

theorem usedOnce_snoc {names : List String} {name : String} :
    UsedOnce (names ++ [name]) ↔ UsedOnce names ∧ ¬(name ≠ "" ∧ name ∈ names) := by
  unfold UsedOnce
  rw [List.pairwise_append]
  simp only [List.pairwise_singleton, List.mem_singleton, forall_eq, true_and]
  refine and_congr_right fun _ => ⟨?_, ?_⟩
  · rintro h ⟨hne, hm⟩
    exact h name hm hne rfl
  · rintro h a ha hne rfl
    exact h ⟨hne, ha⟩

theorem usedOnce_left {names names' : List String} (h : UsedOnce (names ++ names')) :
    UsedOnce names :=
  (List.pairwise_append.1 h).1

theorem lookup_isSome_iff {s : Scope} {name : String} :
    (s.lookup name).isSome = true ↔ name ≠ "" ∧ name ∈ s.entries.map Entry.name := by
  unfold lookup
  by_cases hname : name = ""
  · simp [hname]
  · simp [hname]

def names (s : Scope) : List String := s.entries.map Entry.name

theorem names_append (s : Scope) (e : Entry) : (s.append e).names = s.names ++ [e.name] := by
  rw [names, names, append, List.map_append, List.map_singleton]

/-- One entry more leaves names that are used once just when its name is not taken. -/
theorem usedOnce_append_iff {s : Scope} (hs : UsedOnce s.names) (name : String) :
    UsedOnce (s.names ++ [name]) ↔ (s.lookup name).isSome = false := by
  rw [usedOnce_snoc, ← Bool.not_eq_true, lookup_isSome_iff, names]
  exact and_iff_right hs

theorem exists_declareAll_iff (kind : EntryKind) (twice : String → BuildError) (ds : List VarDecl)
    {s : Scope} (hs : UsedOnce s.names) :
    (∃ s', s.declareAll kind twice ds = .ok s') ↔ UsedOnce (s.names ++ ds.map VarDecl.name) := by
  induction ds generalizing s with
  | nil =>
    rw [List.map_nil, List.append_nil]
    exact ⟨fun _ => hs, fun _ => ⟨s, rfl⟩⟩
  | cons d ds ih =>
    have hnew := usedOnce_append_iff hs d.name
    rw [declareAll, List.map_cons, ← List.singleton_append, ← List.append_assoc]
    cases htaken : (s.lookup d.name).isSome with
    | true =>
      rw [if_pos rfl]
      refine ⟨fun h => (not_exists_ok h).elim, fun h => ?_⟩
      have hfree := hnew.1 (usedOnce_left h)
      rw [htaken] at hfree
      cases hfree
    | false =>
      rw [if_neg Bool.false_ne_true]
      have hnames : (s.append (.named kind d.name d.type)).names = s.names ++ [d.name] :=
        names_append s _
      rw [← hnames]
      exact ih (by rw [hnames]; exact hnew.2 htaken)

theorem names_declareAll {kind : EntryKind} {twice : String → BuildError} {ds : List VarDecl}
    {s s' : Scope} (h : s.declareAll kind twice ds = .ok s') :
    s'.names = s.names ++ ds.map VarDecl.name := by
  rw [of_declareAll h, names, names, List.map_append, List.map_map]
  rfl

theorem names_declareStmts {path : Path} {i : ℕ} {sts : List Stmt} {s s' : Scope}
    (h : declareStmts path i sts s = .ok s') :
    s'.names = s.names ++ (Stmt.localsOf sts).map VarDecl.name := by
  rw [of_declareStmts h, names, names, List.map_append, ← map_decl_localsOfAll path i, List.map_map]
  rfl

theorem names_declareStmt {path : Path} {st : Stmt} {s s' : Scope}
    (h : declareStmt path st s = .ok s') :
    s'.names = s.names ++ st.locals.map VarDecl.name := by
  rw [of_declareStmt h, names, names, List.map_append, ← map_decl_localsOf path, List.map_map]
  rfl

theorem exists_bind_iff {ε : Type} {x : Except ε Scope} {f : Scope → Except ε Scope}
    {names first second : List String}
    (hx : (∃ s, x = .ok s) ↔ UsedOnce (names ++ first))
    (hnames : ∀ s, x = .ok s → s.names = names ++ first)
    (hf : ∀ s, UsedOnce s.names → ((∃ s', f s = .ok s') ↔ UsedOnce (s.names ++ second))) :
    (∃ s', (x >>= f) = .ok s') ↔ UsedOnce (names ++ (first ++ second)) := by
  rw [← List.append_assoc]
  constructor
  · rintro ⟨s', h⟩
    obtain ⟨s, hs, h⟩ := except_bind_eq_ok.1 h
    have honce : UsedOnce s.names := by
      rw [hnames s hs]
      exact hx.1 ⟨s, hs⟩
    rw [← hnames s hs]
    exact (hf s honce).1 ⟨s', h⟩
  · intro h
    obtain ⟨s, hs⟩ := hx.2 (usedOnce_left h)
    rw [← hnames s hs] at h
    obtain ⟨s', h'⟩ := (hf s (usedOnce_left h)).2 h
    exact ⟨s', except_bind_eq_ok.2 ⟨s, hs, h'⟩⟩

mutual

theorem exists_declareStmt_iff (path : Path) (st : Stmt) {s : Scope} (hs : UsedOnce s.names) :
    (∃ s', declareStmt path st s = .ok s') ↔
      UsedOnce (s.names ++ st.locals.map VarDecl.name) := by
  cases st with
  | declare d init =>
    rw [declareStmt, Stmt.locals, List.map_singleton, usedOnce_append_iff hs]
    cases (s.lookup d.name).isSome with
    | true =>
      rw [if_pos rfl]
      exact ⟨fun h => (not_exists_ok h).elim, fun h => absurd h.symm Bool.false_ne_true⟩
    | false =>
      rw [if_neg Bool.false_ne_true]
      refine ⟨fun _ => rfl, fun _ => ?_⟩
      split
      · exact ⟨_, rfl⟩
      · exact ⟨_, rfl⟩
  | «when» cond body | loop cond body =>
    rw [declareStmt, Stmt.locals]
    exact exists_declareStmts_iff _ _ body hs
  | branch cond yes no =>
    rw [declareStmt, Stmt.locals, List.map_append]
    exact exists_bind_iff (exists_declareStmts_iff _ _ yes hs) (fun _ => names_declareStmts)
      fun _ => exists_declareStmts_iff _ _ no
  | _ =>
    rw [declareStmt, Stmt.locals, List.map_nil, List.append_nil]
    · exact ⟨fun _ => hs, fun _ => ⟨s, rfl⟩⟩
    all_goals nofun

theorem exists_declareStmts_iff (path : Path) (i : ℕ) (sts : List Stmt) {s : Scope}
    (hs : UsedOnce s.names) : (∃ s', declareStmts path i sts s = .ok s') ↔
      UsedOnce (s.names ++ (Stmt.localsOf sts).map VarDecl.name) := by
  cases sts with
  | nil =>
    rw [Stmt.localsOf, List.map_nil, List.append_nil]
    exact ⟨fun _ => hs, fun _ => ⟨s, rfl⟩⟩
  | cons st sts =>
    rw [declareStmts, Stmt.localsOf, List.map_append]
    exact exists_bind_iff (exists_declareStmt_iff _ st hs) (fun _ => names_declareStmt)
      fun _ => exists_declareStmts_iff _ _ sts

end

end Scope

/-! ### Programs -/

/-- The declarations of the program fit together. -/
structure Program.Declarable (p : Program) : Prop where
  classNames : (p.classes.map ClassDecl.name).Nodup
  attributes : ∀ c ∈ p.classes, Scope.UsedOnce (c.attributes.map VarDecl.name)
  bases : ∀ c ∈ p.classes, ∀ b ∈ c.bases, b ∈ p.classes.map ClassDecl.name
  owners : ∀ f ∈ p.functions, f.isMember = true → f.className ∈ p.classes.map ClassDecl.name
  locals : ∀ f ∈ p.functions, Scope.UsedOnce (f.variables.map VarDecl.name)

theorem forM_of_ok {α ε : Type} {f : α → Except ε Unit} {as : List α} (h : ∀ a ∈ as, f a = .ok ()) :
    as.forM f = .ok () := by
  induction as with
  | nil => rfl
  | cons a as ih =>
    have ha := h a List.mem_cons_self
    have has := ih fun b hb => h b (List.mem_cons_of_mem _ hb)
    exact except_bind_eq_ok.2 ⟨(), ha, has⟩

namespace Table

theorem exists_addClass_iff {t : Table} {c : ClassDecl} : (∃ t', t.addClass c = .ok t') ↔
    c.name ∉ t.classes.map Scope.name ∧ Scope.UsedOnce (c.attributes.map VarDecl.name) := by
  have hempty : Scope.UsedOnce (freshClass t.classes.length c).names := List.Pairwise.nil
  have hdeclare := Scope.exists_declareAll_iff .member (.memberTwice c.name) c.attributes hempty
  have hnew : c.name ∉ t.classes.map Scope.name ↔ (t.class? c.name).isSome = false := by
    rw [← class?_isSome_iff, Bool.not_eq_true]
  rw [hnew]
  constructor
  · rintro ⟨t', h⟩
    obtain ⟨hfree, s, hs, -⟩ := addClass_eq_ok.1 h
    exact ⟨hfree, hdeclare.1 ⟨s, hs⟩⟩
  · rintro ⟨hfree, honce⟩
    obtain ⟨s, hs⟩ := hdeclare.2 honce
    exact ⟨_, addClass_eq_ok.2 ⟨hfree, s, hs, rfl⟩⟩

theorem map_name_addClass {t t' : Table} {c : ClassDecl} (h : t.addClass c = .ok t') :
    t'.classes.map Scope.name = t.classes.map Scope.name ++ [c.name] := by
  obtain ⟨-, s, hs, rfl⟩ := addClass_eq_ok.1 h
  rw [List.map_append, List.map_singleton, Scope.of_declareAll hs]
  rfl

theorem exists_classes_iff (cs : List ClassDecl) {t : Table}
    (ht : (t.classes.map Scope.name).Nodup) : (∃ t', cs.foldlM addClass t = .ok t') ↔
      (t.classes.map Scope.name ++ cs.map ClassDecl.name).Nodup
        ∧ ∀ c ∈ cs, Scope.UsedOnce (c.attributes.map VarDecl.name) := by
  induction cs generalizing t with
  | nil =>
    rw [List.map_nil, List.append_nil]
    exact ⟨fun _ => ⟨ht, nofun⟩, fun _ => ⟨t, rfl⟩⟩
  | cons c cs ih =>
    have hsnoc : c.name ∉ t.classes.map Scope.name ↔ (t.classes.map Scope.name ++ [c.name]).Nodup := by
      rw [List.nodup_append_comm, List.singleton_append, List.nodup_cons, and_iff_left ht]
    rw [List.foldlM_cons, List.map_cons, ← List.singleton_append, ← List.append_assoc,
      List.forall_mem_cons]
    constructor
    · rintro ⟨t', h⟩
      obtain ⟨t₁, h1, h2⟩ := except_bind_eq_ok.1 h
      obtain ⟨hfree, hc⟩ := exists_addClass_iff.1 ⟨t₁, h1⟩
      have hnames := map_name_addClass h1
      rw [← hnames]
      obtain ⟨hnodup, hcs⟩ := (ih (hnames ▸ hsnoc.1 hfree)).1 ⟨t', h2⟩
      exact ⟨hnodup, hc, hcs⟩
    · rintro ⟨hnodup, hc, hcs⟩
      have hfree := (List.nodup_append.1 hnodup).1
      obtain ⟨t₁, h1⟩ := exists_addClass_iff.2 ⟨hsnoc.2 hfree, hc⟩
      rw [← map_name_addClass h1] at hnodup hfree
      obtain ⟨t', h2⟩ := (ih hfree).2 ⟨hnodup, hcs⟩
      exact ⟨t', except_bind_eq_ok.2 ⟨t₁, h1, h2⟩⟩

theorem classIndex?_isSome_iff {t : Table} {name : String} :
    (t.classIndex? name).isSome = true ↔ name ∈ t.classes.map Scope.name := by
  rw [classIndex?, List.findIdx?_isSome, List.any_eq_true, List.mem_map]
  simp only [beq_iff_eq]

theorem exists_around?_iff {t : Table} {f : Signature} : (∃ parent, t.around? f = some parent) ↔
    (f.isMember = true → f.className ∈ t.classes.map Scope.name) := by
  rw [← classIndex?_isSome_iff, around?]
  split
  · rename_i hm
    rw [← Option.isSome_iff_exists, Option.isSome_map]
    exact ⟨fun h _ => h, fun h => h hm⟩
  · rename_i hm
    exact ⟨fun _ h => absurd h hm, fun _ => ⟨_, rfl⟩⟩

theorem exists_addFunction_iff {t : Table} {f : Function} : (∃ t', t.addFunction f = .ok t') ↔
    (f.isMember = true → f.className ∈ t.classes.map Scope.name)
      ∧ Scope.UsedOnce (f.variables.map VarDecl.name) := by
  rw [← exists_around?_iff (t := t), Function.variables, List.map_append]
  constructor
  · rintro ⟨t', h⟩
    obtain ⟨parent, s₀, s, hparent, hs₀, hs, -⟩ := addFunction_eq_ok.1 h
    have hempty : Scope.UsedOnce (freshFunction t.functions.length f.toSignature parent).names :=
      List.Pairwise.nil
    have honce := (Scope.exists_declareAll_iff _ _ _ hempty).1 ⟨s₀, hs₀⟩
    have hnames := Scope.names_declareAll hs₀
    rw [← hnames] at honce
    have hlocals := (Scope.exists_declareStmts_iff [] 0 f.body honce).1 ⟨s, hs⟩
    rw [hnames] at hlocals
    exact ⟨⟨parent, hparent⟩, hlocals⟩
  · rintro ⟨⟨parent, hparent⟩, honce⟩
    have hempty : Scope.UsedOnce (freshFunction t.functions.length f.toSignature parent).names :=
      List.Pairwise.nil
    obtain ⟨s₀, hs₀⟩ := (Scope.exists_declareAll_iff .parameter (.parameterTwice f.qualifiedName)
      f.params hempty).2 (Scope.usedOnce_left honce)
    have hnames : s₀.names = f.params.map VarDecl.name := Scope.names_declareAll hs₀
    rw [← hnames] at honce
    obtain ⟨s, hs⟩ := (Scope.exists_declareStmts_iff [] 0 f.body (Scope.usedOnce_left honce)).2 honce
    exact ⟨_, addFunction_eq_ok.2 ⟨parent, s₀, s, hparent, hs₀, hs, rfl⟩⟩

theorem map_name_addFunction {t t' : Table} {f : Function} (h : t.addFunction f = .ok t') :
    t'.classes.map Scope.name = t.classes.map Scope.name := by
  obtain ⟨parent, s, hparent, -, -, rfl⟩ := of_addFunction h
  exact map_name_marked hparent

theorem exists_functions_iff {fs : List Function} {t : Table} :
    (∃ t', fs.foldlM addFunction t = .ok t') ↔
      ∀ f ∈ fs, (f.isMember = true → f.className ∈ t.classes.map Scope.name)
        ∧ Scope.UsedOnce (f.variables.map VarDecl.name) := by
  induction fs generalizing t with
  | nil => exact ⟨fun _ => nofun, fun _ => ⟨t, rfl⟩⟩
  | cons f fs ih =>
    rw [List.foldlM_cons, List.forall_mem_cons]
    constructor
    · rintro ⟨t', h⟩
      obtain ⟨t₁, h1, h2⟩ := except_bind_eq_ok.1 h
      rw [← map_name_addFunction h1]
      exact ⟨map_name_addFunction h1 ▸ exists_addFunction_iff.1 ⟨t₁, h1⟩, ih.1 ⟨t', h2⟩⟩
    · rintro ⟨hf, hfs⟩
      obtain ⟨t₁, h1⟩ := exists_addFunction_iff.2 hf
      rw [← map_name_addFunction h1] at hfs
      obtain ⟨t', h2⟩ := ih.2 hfs
      exact ⟨t', except_bind_eq_ok.2 ⟨t₁, h1, h2⟩⟩

/-- A program has scopes just when its declarations fit together. -/
theorem exists_scopes_iff {p : Program} : (∃ t, scopes p = .ok t) ↔ p.Declarable := by
  have hstart := exists_classes_iff p.classes (t := initial p) List.nodup_nil
  have hchecked : ∀ {t₁ : Table}, p.classes.foldlM addClass (initial p) = .ok t₁ →
      t₁.classes.map Scope.name = p.classes.map ClassDecl.name := fun h =>
    (hasScopes_classes h).map_name
  constructor
  · rintro ⟨t, h⟩
    obtain ⟨t₁, h1, h2, h3⟩ := scopes_eq_ok.1 h
    obtain ⟨hnodup, hattributes⟩ := hstart.1 ⟨t₁, h1⟩
    have hfunctions := exists_functions_iff.1 ⟨t, h3⟩
    rw [hchecked h1] at hfunctions
    refine ⟨hnodup, hattributes, fun c hc b hb => ?_, fun f hf => (hfunctions f hf).1,
      fun f hf => (hfunctions f hf).2⟩
    rw [← hchecked h1, ← class?_isSome_iff]
    exact checkBases_eq_ok.1 (forM_ok h2 c hc) b hb
  · intro h
    obtain ⟨t₁, h1⟩ := hstart.2 ⟨h.classNames, h.attributes⟩
    have h2 : p.classes.forM t₁.checkBases = .ok () := by
      refine forM_of_ok fun c hc => checkBases_eq_ok.2 fun b hb => ?_
      rw [class?_isSome_iff, hchecked h1]
      exact h.bases c hc b hb
    obtain ⟨t, h3⟩ := exists_functions_iff (t := t₁).2 fun f hf => by
      rw [hchecked h1]
      exact ⟨h.owners f hf, h.locals f hf⟩
    exact ⟨t, scopes_eq_ok.2 ⟨t₁, h1, h2, h3⟩⟩

end Table

end MoonBackend
