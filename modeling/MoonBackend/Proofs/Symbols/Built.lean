import MoonBackend.Symbols.Build

/-!
# The scopes of a built table

What `Table.build` leaves behind: a scope for each class with its attributes, a scope for each
function with its parameters and the local variables of its body in the order in which they stand,
and the completed bodies. Nothing is sized or placed.
-/

namespace MoonBackend

/-- An invariant of a fold that may fail, over the elements gone through so far. -/
theorem foldlM_ok {α σ ε : Type} {f : σ → α → Except ε σ} {P : List α → σ → Prop} {s s' : σ}
    {as : List α} (h0 : P [] s)
    (hstep : ∀ done a s s', P done s → f s a = .ok s' → P (done ++ [a]) s')
    (h : as.foldlM f s = .ok s') : P as s' := by
  suffices hgen : ∀ (as done : List α) (s : σ), P done s → as.foldlM f s = .ok s' →
      P (done ++ as) s' from hgen as [] s h0 h
  intro as
  induction as with
  | nil =>
    intro done s hp h
    cases h
    simpa using hp
  | cons a as ih =>
    intro done s hp h
    rw [List.foldlM_cons] at h
    cases hs : f s a with
    | error e =>
      rw [hs] at h
      cases h
    | ok s₁ =>
      rw [hs] at h
      have hrest := ih (done ++ [a]) s₁ (hstep done a s s₁ hp hs) h
      simpa using hrest

theorem forM_ok {α ε : Type} {f : α → Except ε Unit} {as : List α} (h : as.forM f = .ok ()) :
    ∀ a ∈ as, f a = .ok () := by
  induction as with
  | nil => exact fun _ ha => by cases ha
  | cons b as ih =>
    have h' : (f b >>= fun _ => as.forM f) = .ok () := h
    intro a ha
    cases hb : f b with
    | error e =>
      rw [hb] at h'
      cases h'
    | ok u =>
      rw [hb] at h'
      rcases List.mem_cons.1 ha with rfl | ha
      · exact hb
      · exact ih h' a ha

theorem except_bind_eq_ok {α β ε : Type} {x : Except ε α} {f : α → Except ε β} {b : β} :
    (x >>= f) = .ok b ↔ ∃ a, x = .ok a ∧ f a = .ok b := by
  cases x with
  | error e =>
    constructor
    · intro h
      cases h
    · rintro ⟨a, h, -⟩
      cases h
  | ok a =>
    constructor
    · intro h
      exact ⟨a, rfl, h⟩
    · rintro ⟨a', h, hf⟩
      cases h
      exact hf

namespace Scope

def localEntry (path : Path) (d : VarDecl) : Entry :=
  if d.name == "" then .backed .localVar d.type (some (.localVar path d))
  else .named .localVar d.name d.type

mutual

def localsOf (path : Path) : Stmt → List Entry
  | .declare d _ => [localEntry path d]
  | .when _ body => localsOfAll (1 :: path) 0 body
  | .branch _ yes no => localsOfAll (1 :: path) 0 yes ++ localsOfAll (2 :: path) 0 no
  | .loop _ body => localsOfAll (1 :: path) 0 body
  | _ => []

def localsOfAll (path : Path) (i : Nat) : List Stmt → List Entry
  | [] => []
  | st :: sts => localsOf (i :: path) st ++ localsOfAll path (i + 1) sts

end

theorem of_declareAll {kind : EntryKind} {twice : String → BuildError} {ds : List VarDecl}
    {s s' : Scope} (h : s.declareAll kind twice ds = .ok s') :
    s' = { s with entries := s.entries ++ ds.map fun d => .named kind d.name d.type } := by
  induction ds generalizing s with
  | nil =>
    cases h
    simp
  | cons d ds ih =>
    unfold declareAll at h
    split at h
    · cases h
    · rw [ih h]
      simp [append]

mutual

theorem of_declareStmt {path : Path} {st : Stmt} {s s' : Scope}
    (h : declareStmt path st s = .ok s') :
    s' = { s with entries := s.entries ++ localsOf path st } := by
  cases st with
  | declare d init =>
    unfold declareStmt at h
    split at h
    · cases h
    · split at h
      · rename_i hd
        cases h
        simp [localsOf, localEntry, hd, append]
      · rename_i hd
        cases h
        simp [localsOf, localEntry, hd, append]
  | «when» cond body =>
    rw [declareStmt] at h
    rw [of_declareStmts h, localsOf]
  | branch cond yes no =>
    rw [declareStmt] at h
    obtain ⟨s₁, h1, h2⟩ := except_bind_eq_ok.1 h
    rw [of_declareStmts h2, of_declareStmts h1, localsOf]
    simp
  | loop cond body =>
    rw [declareStmt] at h
    rw [of_declareStmts h, localsOf]
  | _ =>
    rw [declareStmt] at h
    · cases h
      simp [localsOf]
    all_goals simp

theorem of_declareStmts {path : Path} {i : Nat} {sts : List Stmt} {s s' : Scope}
    (h : declareStmts path i sts s = .ok s') :
    s' = { s with entries := s.entries ++ localsOfAll path i sts } := by
  cases sts with
  | nil =>
    rw [declareStmts] at h
    cases h
    simp [localsOfAll]
  | cons st sts =>
    rw [declareStmts] at h
    obtain ⟨s₁, h1, h2⟩ := except_bind_eq_ok.1 h
    rw [of_declareStmts h2, of_declareStmt h1, localsOfAll]
    simp

end

def NamedOnce (s : Scope) : Prop := ∀ e ∈ s.entries, e.name ≠ "" → s.lookup e.name = some e

theorem lookup_append (s : Scope) (e : Entry) {name : String} (hn : name ≠ "") :
    (s.append e).lookup name = (s.lookup name).or (if e.name = name then some e else none) := by
  simp only [lookup, append, beq_iff_eq, hn, if_false, List.find?_append]
  by_cases he : e.name = name
  · simp [he]
  · simp [he]

theorem NamedOnce.append {s : Scope} (h : s.NamedOnce) {e : Entry} (hnew : s.lookup e.name = none) :
    (s.append e).NamedOnce := by
  intro x hx hn
  rw [lookup_append s e hn]
  rcases List.mem_append.1 hx with hx | hx
  · rw [h x hx hn]
    rfl
  · obtain rfl := List.mem_singleton.1 hx
    rw [hnew, if_pos rfl]
    rfl

theorem NamedOnce.declareAll {kind : EntryKind} {twice : String → BuildError} {ds : List VarDecl}
    {s s' : Scope} (hs : s.NamedOnce) (h : s.declareAll kind twice ds = .ok s') : s'.NamedOnce := by
  induction ds generalizing s with
  | nil =>
    cases h
    exact hs
  | cons d ds ih =>
    unfold Scope.declareAll at h
    split at h
    · cases h
    · rename_i hnew
      have hnone : s.lookup d.name = none := by simpa using hnew
      exact ih (hs.append (e := .named kind d.name d.type) hnone) h

mutual

theorem NamedOnce.declareStmt {path : Path} {st : Stmt} {s s' : Scope} (hs : s.NamedOnce)
    (h : Scope.declareStmt path st s = .ok s') : s'.NamedOnce := by
  cases st with
  | declare d init =>
    unfold Scope.declareStmt at h
    split at h
    · cases h
    · rename_i hnew
      have hnone : s.lookup d.name = none := by simpa using hnew
      split at h
      · cases h
        exact hs.append rfl
      · cases h
        exact hs.append (e := .named .localVar d.name d.type) hnone
  | «when» cond body =>
    rw [Scope.declareStmt] at h
    exact hs.declareStmts h
  | branch cond yes no =>
    rw [Scope.declareStmt] at h
    obtain ⟨s₁, h1, h2⟩ := except_bind_eq_ok.1 h
    exact (hs.declareStmts h1).declareStmts h2
  | loop cond body =>
    rw [Scope.declareStmt] at h
    exact hs.declareStmts h
  | _ =>
    rw [Scope.declareStmt] at h
    · cases h
      exact hs
    all_goals simp

theorem NamedOnce.declareStmts {path : Path} {i : Nat} {sts : List Stmt} {s s' : Scope}
    (hs : s.NamedOnce) (h : Scope.declareStmts path i sts s = .ok s') : s'.NamedOnce := by
  cases sts with
  | nil =>
    rw [Scope.declareStmts] at h
    cases h
    exact hs
  | cons st sts =>
    rw [Scope.declareStmts] at h
    obtain ⟨s₁, h1, h2⟩ := except_bind_eq_ok.1 h
    exact (hs.declareStmt h1).declareStmts h2

end

def IsMarker (e : Entry) : Prop :=
  e.kind = .function ∧ e.name = "" ∧ e.size = none ∧ e.offset = none

/-- The scope of a class: its attributes, then the markers of its functions. -/
structure OfClass (i : Nat) (c : ClassDecl) (s : Scope) : Prop where
  name : s.name = c.name
  backing : s.backing = .classDecl i c
  placed : s.placed = false
  size : s.size = none
  entries : ∃ marks : List Entry, (∀ e ∈ marks, IsMarker e)
    ∧ s.entries = (c.attributes.map fun d => .named .member d.name d.type) ++ marks

/-- The scope of a function: its parameters, then its local variables. -/
structure OfFunction (i : Nat) (f : Function) (s : Scope) : Prop where
  name : s.name = f.qualifiedName
  backing : s.backing = .function i f.toSignature
  placed : s.placed = false
  size : s.size = none
  entries : s.entries = (f.params.map fun d => .named .parameter d.name d.type)
    ++ localsOfAll [] 0 f.body
  once : s.NamedOnce

theorem OfClass.mark {i : Nat} {c : ClassDecl} {s : Scope} (h : OfClass i c s) {e : Entry}
    (he : IsMarker e) : OfClass i c (s.append e) := by
  obtain ⟨marks, hm, hs⟩ := h.entries
  refine ⟨h.name, h.backing, h.placed, h.size, marks ++ [e], ?_, ?_⟩
  · intro x hx
    rcases List.mem_append.1 hx with hx | hx
    · exact hm x hx
    · rw [List.mem_singleton.1 hx]
      exact he
  · simp [append, hs]

end Scope

namespace Table

/-- The classes that were gone through have their scopes, and the functions too. -/
structure HasScopes (p : Program) (classes : List ClassDecl) (functions : List Function)
    (t : Table) : Prop where
  program : t.program = p
  classCount : t.classes.length = classes.length
  classScope : ∀ i s, t.classes[i]? = some s → ∃ c, classes[i]? = some c ∧ Scope.OfClass i c s
  classNames : (t.classes.map Scope.name).Nodup
  functionCount : t.functions.length = functions.length
  functionScope : ∀ i s, t.functions[i]? = some s →
    ∃ f, functions[i]? = some f ∧ Scope.OfFunction i f s
  memberClass : ∀ f ∈ functions, f.isMember = true → (t.classIndex? f.className).isSome = true

theorem HasScopes.map_name {p : Program} {cs : List ClassDecl} {fs : List Function} {t : Table}
    (h : HasScopes p cs fs t) : t.classes.map Scope.name = cs.map ClassDecl.name := by
  apply List.ext_getElem?
  intro i
  rw [List.getElem?_map, List.getElem?_map]
  cases hs : t.classes[i]? with
  | none =>
    have hle := List.getElem?_eq_none_iff.1 hs
    rw [List.getElem?_eq_none (by rw [← h.classCount]; exact hle)]
    rfl
  | some s =>
    obtain ⟨c, hc, hof⟩ := h.classScope i s hs
    rw [hc]
    exact congrArg some hof.name

theorem getElem?_append_singleton {α : Type} {l : List α} {a b : α} {i : Nat}
    (h : (l ++ [a])[i]? = some b) : l[i]? = some b ∨ (i = l.length ∧ b = a) := by
  rcases Nat.lt_trichotomy i l.length with hlt | rfl | hgt
  · rw [List.getElem?_append_left hlt] at h
    exact .inl h
  · rw [List.getElem?_append_right (Nat.le_refl _), Nat.sub_self] at h
    exact .inr ⟨rfl, (Option.some.inj h).symm⟩
  · rw [List.getElem?_append_right (Nat.le_of_lt hgt)] at h
    rw [List.getElem?_eq_none (by simp; omega)] at h
    cases h

theorem class?_isSome_iff {t : Table} {name : String} :
    (t.class? name).isSome = true ↔ name ∈ t.classes.map Scope.name := by
  simp only [Table.class?, List.find?_isSome, List.mem_map, beq_iff_eq]

def freshClass (i : Nat) (c : ClassDecl) : Scope :=
  { name := c.name, owner := .classDecl, parent := some .global, backing := .classDecl i c }

def classMarker (i : Nat) (c : ClassDecl) : Entry :=
  { Entry.named .classDecl c.name (.object c.name) with backing := some (.classDecl i c) }

theorem addClass_eq_ok {t t' : Table} {c : ClassDecl} : t.addClass c = .ok t' ↔
    (t.class? c.name).isSome = false
      ∧ ∃ s, (freshClass t.classes.length c).declareAll .member (.memberTwice c.name) c.attributes
          = .ok s
        ∧ t' = { t with global := t.global.append (classMarker t.classes.length c)
                        classes := t.classes ++ [s] } := by
  unfold Table.addClass
  cases (t.class? c.name).isSome with
  | true => exact ⟨nofun, nofun⟩
  | false =>
    rw [if_neg Bool.false_ne_true, eq_self, true_and]
    refine except_bind_eq_ok.trans (exists_congr fun s => and_congr_right fun _ => ?_)
    show Except.ok _ = Except.ok t' ↔ _
    rw [Except.ok.injEq, eq_comm]
    rfl

theorem HasScopes.addClass {p : Program} {cs : List ClassDecl} {t t' : Table} {c : ClassDecl}
    (h : HasScopes p cs [] t) (ha : t.addClass c = .ok t') : HasScopes p (cs ++ [c]) [] t' := by
  obtain ⟨hnew, s, hs, rfl⟩ := addClass_eq_ok.1 ha
  have hs' := Scope.of_declareAll hs
  have hclass : Scope.OfClass t.classes.length c s := by
    subst hs'
    exact ⟨rfl, rfl, rfl, rfl, [], by simp, by simp [freshClass]⟩
  rw [← Bool.not_eq_true, class?_isSome_iff] at hnew
  constructor
  · exact h.program
  · simp [h.classCount]
  · intro i x hx
    rcases getElem?_append_singleton hx with hx | ⟨rfl, rfl⟩
    · obtain ⟨d, hd, hof⟩ := h.classScope i x hx
      have hlt := (List.getElem?_eq_some_iff.1 hd).1
      exact ⟨d, by rw [List.getElem?_append_left hlt, hd], hof⟩
    · refine ⟨c, ?_, hclass⟩
      rw [h.classCount, List.getElem?_append_right (Nat.le_refl _), Nat.sub_self]
      rfl
  · rw [List.map_append, List.nodup_append]
    refine ⟨h.classNames, by simp, ?_⟩
    intro a ha b hb
    rw [List.map_singleton, List.mem_singleton, hclass.name] at hb
    rw [hb]
    rintro rfl
    exact hnew ha
  · exact h.functionCount
  · exact h.functionScope
  · exact fun f hf => by cases hf

theorem map_name_mark {t : Table} {i : Nat} {s : Scope} (hs : t.classes[i]? = some s) (e : Entry) :
    (t.classes.set i (s.append e)).map Scope.name = t.classes.map Scope.name := by
  apply List.ext_getElem?
  intro j
  rw [List.getElem?_map, List.getElem?_map]
  by_cases hij : i = j
  · subst hij
    have hlt := (List.getElem?_eq_some_iff.1 hs).1
    rw [List.getElem?_set_self hlt, hs]
    rfl
  · rw [List.getElem?_set_ne hij]

theorem classIndex?_congr {t t' : Table} (h : t'.classes.map Scope.name = t.classes.map Scope.name)
    (name : String) : t'.classIndex? name = t.classIndex? name := by
  have hmap : ∀ l : List Scope, l.findIdx? (·.name == name)
      = (l.map Scope.name).findIdx? (· == name) := by
    intro l
    rw [List.findIdx?_map]
    rfl
  unfold Table.classIndex?
  rw [hmap, hmap, h]

theorem HasScopes.mark {p : Program} {cs : List ClassDecl} {fs : List Function} {t : Table}
    (h : HasScopes p cs fs t) {id : ScopeId} {s : Scope} (hs : t.scope? id = some s) {e : Entry}
    (he : Scope.IsMarker e) (hid : ∀ i, id ≠ .ofFunction i) :
    HasScopes p cs fs (t.setScope id (s.append e)) := by
  cases id with
  | global =>
    exact ⟨h.program, h.classCount, h.classScope, h.classNames, h.functionCount, h.functionScope,
      h.memberClass⟩
  | ofFunction i => exact absurd rfl (hid i)
  | ofClass i =>
    have hnames := map_name_mark hs e
    constructor
    · exact h.program
    · exact (List.length_set ..).trans h.classCount
    · intro j x hx
      have hx' : (t.classes.set i (s.append e))[j]? = some x := hx
      by_cases hij : i = j
      · subst hij
        have hlt := (List.getElem?_eq_some_iff.1 hs).1
        rw [List.getElem?_set_self hlt] at hx'
        obtain ⟨c, hc, hof⟩ := h.classScope i s hs
        cases hx'
        exact ⟨c, hc, hof.mark he⟩
      · rw [List.getElem?_set_ne hij] at hx'
        exact h.classScope j x hx'
    · show ((t.classes.set i (s.append e)).map Scope.name).Nodup
      rw [hnames]
      exact h.classNames
    · exact h.functionCount
    · exact h.functionScope
    · intro f hf hm
      rw [classIndex?_congr hnames]
      exact h.memberClass f hf hm

theorem HasScopes.withFunction {p : Program} {cs : List ClassDecl} {fs : List Function}
    {t : Table} (h : HasScopes p cs fs t) {f : Function} {s : Scope}
    (hs : Scope.OfFunction t.functions.length f s)
    (hm : f.isMember = true → (t.classIndex? f.className).isSome = true) :
    HasScopes p cs (fs ++ [f]) { t with functions := t.functions ++ [s] } := by
  constructor
  · exact h.program
  · exact h.classCount
  · exact h.classScope
  · exact h.classNames
  · simp [h.functionCount]
  · intro i x hx
    rcases getElem?_append_singleton hx with hx | ⟨rfl, rfl⟩
    · obtain ⟨g, hg, hof⟩ := h.functionScope i x hx
      have hlt := (List.getElem?_eq_some_iff.1 hg).1
      exact ⟨g, by rw [List.getElem?_append_left hlt, hg], hof⟩
    · refine ⟨f, ?_, hs⟩
      rw [h.functionCount, List.getElem?_append_right (Nat.le_refl _), Nat.sub_self]
      rfl
  · intro g hg hgm
    rcases List.mem_append.1 hg with hg | hg
    · exact h.memberClass g hg hgm
    · rw [List.mem_singleton.1 hg] at hgm ⊢
      exact hm hgm

/-- The table with the marker of its next function in the scope around it. -/
def marked (t : Table) (f : Function) (parent : ScopeId) : Table :=
  match t.scope? parent with
  | some s => t.setScope parent
      (s.append (.backed .function f.returns (some (.function t.functions.length f.toSignature))))
  | none => t

def around? (t : Table) (f : Signature) : Option ScopeId :=
  if f.isMember then (t.classIndex? f.className).map .ofClass else some .global

def freshFunction (i : Nat) (f : Signature) (parent : ScopeId) : Scope :=
  { name := f.qualifiedName,
    owner := if f.isMember && f.isConstructor then .constructor else .function,
    parent := some parent, backing := .function i f }

theorem declareIn_eq_ok (t t' : Table) (f : Function) (parent : ScopeId) : (do
      let s ← Scope.declareAll .parameter (.parameterTwice f.qualifiedName) f.params
        (freshFunction t.functions.length f.toSignature parent)
      match Scope.declareStmts [] 0 f.body s with
      | .ok s => return { t.marked f parent with functions := (t.marked f parent).functions ++ [s] }
      | .error cause => throw (BuildError.inFunction f.qualifiedName cause)) = Except.ok t' ↔
      ∃ s₀ s, (freshFunction t.functions.length f.toSignature parent).declareAll .parameter
          (.parameterTwice f.qualifiedName) f.params = .ok s₀
        ∧ Scope.declareStmts [] 0 f.body s₀ = .ok s
        ∧ t' = { t.marked f parent with functions := (t.marked f parent).functions ++ [s] } := by
  rw [except_bind_eq_ok]
  refine exists_congr fun s₀ => ?_
  rw [exists_and_left]
  refine and_congr_right fun _ => ?_
  cases Scope.declareStmts [] 0 f.body s₀ with
  | error cause =>
    constructor
    · intro h
      cases h
    · rintro ⟨_, h, -⟩
      cases h
  | ok s =>
    constructor
    · intro h
      exact ⟨s, rfl, (Except.ok.inj h).symm⟩
    · rintro ⟨_, hs, rfl⟩
      cases hs
      rfl

theorem addFunction_eq_ok {t t' : Table} {f : Function} : t.addFunction f = .ok t' ↔
    ∃ parent s₀ s, t.around? f.toSignature = some parent
      ∧ (freshFunction t.functions.length f.toSignature parent).declareAll .parameter
          (.parameterTwice f.qualifiedName) f.params = .ok s₀
      ∧ Scope.declareStmts [] 0 f.body s₀ = .ok s
      ∧ t' = { t.marked f parent with functions := (t.marked f parent).functions ++ [s] } := by
  have hrest := declareIn_eq_ok t t' f
  unfold addFunction around?
  unfold marked freshFunction at hrest ⊢
  simp only at hrest ⊢
  split
  · split
    · rename_i i hi
      rw [hi, Option.map_some]
      simp only [Option.some.injEq, exists_and_left, exists_eq_left'] at hrest ⊢
      exact hrest (.ofClass i)
    · rename_i hi
      rw [hi]
      simp only [Option.map_none, reduceCtorEq, false_and, exists_false, iff_false]
      intro h
      cases h
  · simp only [Option.some.injEq, exists_and_left, exists_eq_left'] at hrest ⊢
    exact hrest .global

theorem of_around? {t : Table} {f : Signature} {parent : ScopeId}
    (h : t.around? f = some parent) : (∀ i, parent ≠ .ofFunction i)
      ∧ (f.isMember = true → (t.classIndex? f.className).isSome = true) := by
  unfold around? at h
  split at h
  · obtain ⟨i, hi, rfl⟩ := Option.map_eq_some_iff.1 h
    exact ⟨nofun, fun _ => by rw [hi]; rfl⟩
  · rename_i hm
    cases h
    exact ⟨nofun, fun hc => absurd hc hm⟩

theorem of_addFunction {t t' : Table} {f : Function} (ha : t.addFunction f = .ok t') :
    ∃ parent s, (∀ i, parent ≠ .ofFunction i)
      ∧ (f.isMember = true → (t.classIndex? f.className).isSome = true)
      ∧ Scope.OfFunction t.functions.length f s
      ∧ t' = { t.marked f parent with functions := (t.marked f parent).functions ++ [s] } := by
  obtain ⟨parent, s₀, s, hparent, hs₀, hs, ht⟩ := addFunction_eq_ok.1 ha
  obtain ⟨hout, hmember⟩ := of_around? hparent
  have honce : s.NamedOnce := by
    refine Scope.NamedOnce.declareStmts (Scope.NamedOnce.declareAll ?_ hs₀) hs
    exact fun _ he => by cases he
  refine ⟨parent, s, hout, hmember, ?_, ht⟩
  have hs₀' := Scope.of_declareAll hs₀
  rw [Scope.of_declareStmts hs, hs₀'] at honce ⊢
  exact ⟨rfl, rfl, rfl, rfl, by simp [freshFunction], honce⟩

theorem map_name_marked {t : Table} {f : Function} {parent : ScopeId}
    (hparent : ∀ i, parent ≠ .ofFunction i) :
    (t.marked f parent).classes.map Scope.name = t.classes.map Scope.name := by
  unfold marked
  split
  · rename_i outer hout
    cases parent with
    | global => rfl
    | ofFunction i => exact absurd rfl (hparent i)
    | ofClass i => exact map_name_mark hout _
  · rfl

theorem HasScopes.addFunction {p : Program} {cs : List ClassDecl} {fs : List Function} {t t' : Table}
    {f : Function} (h : HasScopes p cs fs t) (ha : t.addFunction f = .ok t') :
    HasScopes p cs (fs ++ [f]) t' := by
  obtain ⟨parent, s, hpar, hm, hs, rfl⟩ := of_addFunction ha
  have hmarked : HasScopes p cs fs (t.marked f parent) := by
    unfold marked
    split
    · rename_i outer hout
      exact h.mark hout ⟨rfl, rfl, rfl, rfl⟩ hpar
    · exact h
  have hlen : (t.marked f parent).functions.length = t.functions.length := by
    rw [hmarked.functionCount, h.functionCount]
  refine hmarked.withFunction (by rw [hlen]; exact hs) ?_
  rw [classIndex?_congr (map_name_marked hpar)]
  exact hm

def initial (p : Program) : Table :=
  { program := p, classes := [], functions := []
    global := { name := "global", owner := .global, parent := none,
                backing := .program p.classes.length p.functions.length } }

theorem scopes_eq_ok {p : Program} {t : Table} : Table.scopes p = .ok t ↔
    ∃ t₁, p.classes.foldlM addClass (initial p) = .ok t₁
      ∧ p.classes.forM t₁.checkBases = .ok () ∧ p.functions.foldlM addFunction t₁ = .ok t := by
  refine except_bind_eq_ok.trans (exists_congr fun t₁ => and_congr_right fun _ => ?_)
  refine except_bind_eq_ok.trans ⟨?_, ?_⟩
  · rintro ⟨⟨⟩, hb, hf⟩
    exact ⟨hb, hf⟩
  · rintro ⟨hb, hf⟩
    exact ⟨(), hb, hf⟩

theorem hasScopes_classes {p : Program} {t : Table}
    (h : p.classes.foldlM addClass (initial p) = .ok t) : HasScopes p p.classes [] t := by
  refine foldlM_ok (P := fun cs t => HasScopes p cs [] t) ?_ ?_ h
  · exact ⟨rfl, rfl, by simp [initial], by simp [initial], rfl, by simp [initial], by simp⟩
  · exact fun done c t t' ht hc => ht.addClass hc

theorem hasScopes {p : Program} {t : Table} (h : Table.scopes p = .ok t) :
    HasScopes p p.classes p.functions t := by
  obtain ⟨t₁, h1, -, h2⟩ := scopes_eq_ok.1 h
  refine foldlM_ok (P := fun fs t => HasScopes p p.classes fs t) (hasScopes_classes h1) ?_ h2
  exact fun done f t t' ht hf => ht.addFunction hf

/-! ### Completed bodies -/

theorem of_completeFunctions {t : Table} {i : Nat} {fs fs' : List Function}
    (h : t.completeFunctions i fs = .ok fs') :
    fs'.length = fs.length ∧ ∀ j f, fs[j]? = some f →
      ∃ body, t.completeStmts (i + j) f.body = .ok body ∧ fs'[j]? = some { f with body := body } := by
  induction fs generalizing i fs' with
  | nil =>
    cases h
    exact ⟨rfl, fun j f hf => by simp at hf⟩
  | cons f fs ih =>
    unfold completeFunctions at h
    split at h
    · cases h
    · rename_i body hbody
      obtain ⟨rest, hrest, h⟩ := except_bind_eq_ok.1 h
      cases h
      obtain ⟨hlen, hall⟩ := ih hrest
      refine ⟨by simp [hlen], fun j g hg => ?_⟩
      cases j with
      | zero =>
        have he : g = f := by simpa using hg.symm
        subst he
        exact ⟨body, hbody, rfl⟩
      | succ j =>
        obtain ⟨b, hb, hat⟩ := hall j g (by simpa using hg)
        exact ⟨b, by rw [show i + (j + 1) = i + 1 + j by omega]; exact hb, by simpa using hat⟩

/-- A built table has the scopes of its program, and the bodies as the scopes complete them. -/
theorem of_build {p : Program} {t : Table} (h : Table.build p = .ok t) :
    ∃ t₀, HasScopes p p.classes p.functions t₀
      ∧ t₀.completeFunctions 0 p.functions = .ok t.program.functions
      ∧ t = { t₀ with program := { p with functions := t.program.functions } } := by
  unfold Table.build at h
  obtain ⟨t₀, h0, h⟩ := except_bind_eq_ok.1 h
  obtain ⟨fs, h1, h⟩ := except_bind_eq_ok.1 h
  cases h
  exact ⟨t₀, hasScopes h0, h1, rfl⟩

theorem checkBases_eq_ok {t : Table} {c : ClassDecl} :
    t.checkBases c = .ok () ↔ ∀ b ∈ c.bases, (t.class? b).isSome = true := by
  unfold checkBases
  split
  · rename_i b hb
    refine ⟨nofun, fun h => ?_⟩
    have hnone := List.find?_some hb
    rw [Option.isNone_iff_eq_none] at hnone
    have hsome := h b (List.mem_of_find?_eq_some hb)
    rw [hnone] at hsome
    cases hsome
  · rename_i hall
    refine ⟨fun _ b hb => ?_, fun _ => rfl⟩
    rw [Option.isSome_iff_ne_none]
    simpa using List.find?_eq_none.1 hall b hb

theorem classes_of_scopes {p : Program} {t : Table} (h : Table.scopes p = .ok t) :
    (p.classes.map ClassDecl.name).Nodup
      ∧ ∀ c ∈ p.classes, ∀ b ∈ c.bases, ∃ k ∈ p.classes, k.name = b := by
  obtain ⟨t₁, h1, h2, -⟩ := scopes_eq_ok.1 h
  have hclasses := hasScopes_classes h1
  have hnames := hclasses.map_name
  refine ⟨hnames ▸ hclasses.classNames, fun c hc b hb => ?_⟩
  have hsome := checkBases_eq_ok.1 (forM_ok h2 c hc) b hb
  rw [class?_isSome_iff, hnames] at hsome
  exact List.mem_map.1 hsome

end Table

end MoonBackend
