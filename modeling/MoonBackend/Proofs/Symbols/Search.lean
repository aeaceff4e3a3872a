import Mathlib.Data.Finset.Card
import MoonBackend.Proofs.Symbols.Reorder

/-!
# Searching the inheritance of a class

A search looks at the class itself first and then at its bases, in order and depth first. Where
inheritance runs in no circle, the look-ups of a table find what this search finds: no chain of
bases is longer than the depth to which they look.
-/

namespace MoonBackend

/-! ### Inheritance -/

/-- A class lists another one among its bases. -/
def Program.Isa (p : Program) (c b : String) : Prop := ∃ k ∈ p.classes, k.name = c ∧ b ∈ k.bases

/-- No class inherits from itself. -/
def Program.AcyclicInheritance (p : Program) : Prop := ∀ c, ¬ Relation.TransGen p.Isa c c

theorem Program.acyclicInheritance_of_lt {p : Program} (height : String → ℕ)
    (h : ∀ c ∈ p.classes, ∀ b ∈ c.bases, height b < height c.name) : p.AcyclicInheritance := by
  have hlt : ∀ {c b}, Relation.TransGen p.Isa c b → height b < height c := by
    intro c b hcb
    induction hcb with
    | single hisa =>
      obtain ⟨k, hk, rfl, hb⟩ := hisa
      exact h k hk _ hb
    | tail _ hisa ih =>
      obtain ⟨k, hk, rfl, hb⟩ := hisa
      exact (h k hk _ hb).trans ih
  exact fun c hc => Nat.lt_irrefl _ (hlt hc)

open Classical in
/-- The number of classes that a class inherits from, over any number of steps. -/
noncomputable def Program.rank (p : Program) (c : String) : ℕ :=
  ((p.classes.map ClassDecl.name).toFinset.filter (Relation.TransGen p.Isa c)).card

section

variable {p : Program} {t : Table} (hd : Table.Declares p t)

include hd

theorem rank_lt (hac : p.AcyclicInheritance) {c b : String} (h : p.Isa c b) :
    p.rank b < p.rank c := by
  classical
  obtain ⟨k, hk, hn, hb⟩ := h
  obtain ⟨k', hk', rfl⟩ := hd.bases k hk b hb
  have hisa : p.Isa c k'.name := ⟨k, hk, hn, hb⟩
  refine Finset.card_lt_card ⟨fun x hx => ?_, fun hsub => ?_⟩
  · obtain ⟨hx, hreach⟩ := Finset.mem_filter.1 hx
    exact Finset.mem_filter.2 ⟨hx, .head hisa hreach⟩
  · have hself := hsub (Finset.mem_filter.2
      ⟨List.mem_toFinset.2 (List.mem_map_of_mem hk'), .single hisa⟩)
    exact hac _ (Finset.mem_filter.1 hself).2

theorem rank_lt_depth (c : String) : p.rank c < t.depth := by
  classical
  have hle : p.rank c ≤ (p.classes.map ClassDecl.name).toFinset.card :=
    Finset.card_le_card (Finset.filter_subset _ _)
  have hlen := (p.classes.map ClassDecl.name).toFinset_card_le
  rw [List.length_map, ← hd.count] at hlen
  unfold Table.depth
  omega

end

/-! ### What a search finds -/

section

variable {α : Type} (p : Program) (own : ClassDecl → Option α)

mutual

/-- What a search finds for a class: what the class itself has, else what its bases give. -/
inductive Program.Finds : String → Option α → Prop
  | undeclared {c : String} (hc : p.class? c = none) : Finds c none
  | own {c : String} {k : ClassDecl} {a : α} (hc : p.class? c = some k) (ha : own k = some a) :
    Finds c (some a)
  | bases {c : String} {k : ClassDecl} {r : Option α} (hc : p.class? c = some k)
    (hown : own k = none) (h : FindsAmong k.bases r) : Finds c r

inductive Program.FindsAmong : List String → Option α → Prop
  | nil : FindsAmong [] none
  | first {b : String} {bs : List String} {a : α} (h : Finds b (some a)) :
    FindsAmong (b :: bs) (some a)
  | later {b : String} {bs : List String} {r : Option α} (h : Finds b none)
    (hr : FindsAmong bs r) : FindsAmong (b :: bs) r

end

end

section

variable {α : Type} {p : Program} {own : ClassDecl → Option α}

mutual

theorem Program.Finds.unique : ∀ {c : String} {r r' : Option α}, p.Finds own c r →
    p.Finds own c r' → r' = r
  | _, _, _, .undeclared hc, h' => by
    cases h' with
    | undeclared => rfl
    | own hc' => cases hc.symm.trans hc'
    | bases hc' => cases hc.symm.trans hc'
  | _, _, _, .own hc ha, h' => by
    cases h' with
    | undeclared hc' => cases hc.symm.trans hc'
    | own hc' ha' =>
      cases hc.symm.trans hc'
      exact ha'.symm.trans ha
    | bases hc' hown' =>
      cases hc.symm.trans hc'
      cases ha.symm.trans hown'
  | _, _, _, .bases hc hown h, h' => by
    cases h' with
    | undeclared hc' => cases hc.symm.trans hc'
    | own hc' ha' =>
      cases hc.symm.trans hc'
      cases hown.symm.trans ha'
    | bases hc' _ hr' =>
      cases hc.symm.trans hc'
      exact h.unique hr'

theorem Program.FindsAmong.unique : ∀ {bs : List String} {r r' : Option α},
    p.FindsAmong own bs r → p.FindsAmong own bs r' → r' = r
  | _, _, _, .nil, h' => by
    cases h'
    rfl
  | _, _, _, .first h, h' => by
    cases h' with
    | first hf => exact h.unique hf
    | later hf => cases h.unique hf
  | _, _, _, .later h hr, h' => by
    cases h' with
    | first hf => cases h.unique hf
    | later _ hr' => exact hr.unique hr'

end

end

/-! ### The searches of a table -/

/-- The declaration of a name among others. What has no name is not found. -/
def VarDecl.named? (ds : List VarDecl) (name : String) : Option VarDecl :=
  if name == "" then none else ds.find? (·.name == name)

def ClassDecl.attribute? (name : String) (c : ClassDecl) : Option VarDecl :=
  VarDecl.named? c.attributes name

def nonempty? (found : List ℕ) : Option (List ℕ) := if found.isEmpty then none else some found

def Program.methods? (p : Program) (name : String) (c : ClassDecl) : Option (List ℕ) :=
  nonempty? (p.positions fun f => f.className == c.name && f.name == name && !f.isConstructor)

def Entry.decl (e : Entry) : VarDecl := ⟨e.name, e.type⟩

theorem Scope.Declares.attribute? {c : ClassDecl} {s : Scope} (h : Scope.Declares c s)
    (name : String) :
    ((s.lookup name).filter (·.kind == .member)).map Entry.decl = c.attribute? name := by
  have hlookup := congrArg (Option.map fun o => VarDecl.mk o.2.1 o.2.2) (h.lookup name)
  rw [Option.map_map] at hlookup
  refine hlookup.trans ?_
  unfold ClassDecl.attribute? VarDecl.named?
  split
  · rfl
  · rw [List.find?_map, Option.map_map]
    exact Option.map_id'

theorem getD_nonempty? (found : List ℕ) : (nonempty? found).getD [] = found := by
  cases found <;> rfl

theorem nonempty?_getD {α : Type} (look : α → List ℕ) (as : List α) :
    nonempty? ((as.findSome? fun a => nonempty? (look a)).getD [])
      = as.findSome? fun a => nonempty? (look a) := by
  cases hf : as.findSome? fun a => nonempty? (look a) with
  | none => rfl
  | some found =>
    obtain ⟨a, -, ha⟩ := List.exists_of_findSome?_eq_some hf
    unfold nonempty? at ha
    split at ha
    · cases ha
    · rename_i hne
      cases ha
      exact if_neg hne

namespace Table

section

variable {p : Program} {t : Table} (hd : Declares p t) (hac : p.AcyclicInheritance)

include hd hac

/-- Looking up to a depth, first at a class and then at its bases, is a search if the depth is
beyond the reach of the bases. -/
theorem finds_of_look {α : Type} {own : ClassDecl → Option α} (look : ℕ → String → Option α)
    (hnone : ∀ depth c, t.class? c = none → look (depth + 1) c = none)
    (hsome : ∀ depth c s k, t.class? c = some s → p.class? c = some k →
      look (depth + 1) c = (own k).or (k.bases.findSome? (look depth)))
    {depth : ℕ} {c : String} (h : p.rank c < depth) : p.Finds own c (look depth c) := by
  induction depth generalizing c with
  | zero => cases h
  | succ depth ih =>
    cases hs : t.class? c with
    | none =>
      rw [hnone depth c hs]
      refine .undeclared (Option.eq_none_iff_forall_ne_some.2 fun k hk => ?_)
      obtain ⟨s, hs'⟩ := hd.exists_class? ⟨k, (Program.class?_eq_some_iff hd.nodup).1 hk⟩
      rw [hs] at hs'
      cases hs'
    | some s =>
      obtain ⟨-, -, k, hk, -⟩ := hd.of_class? hs
      obtain ⟨hkm, hkn⟩ := (Program.class?_eq_some_iff hd.nodup).1 hk
      rw [hsome depth c s k hs hk]
      cases ha : own k with
      | some a => exact .own hk ha
      | none =>
        rw [Option.none_or]
        refine .bases hk ha ?_
        have hlt : ∀ b ∈ k.bases, p.rank b < depth := fun b hb => by
          have := rank_lt hd hac ⟨k, hkm, hkn, hb⟩
          omega
        clear hs ha hk hkn hkm
        generalize k.bases = bs at hlt
        induction bs with
        | nil => exact .nil
        | cons b bs ihb =>
          have hb := ih (hlt b List.mem_cons_self)
          have hbs := ihb fun x hx => hlt x (List.mem_cons_of_mem _ hx)
          rw [List.findSome?_cons]
          cases hf : look depth b with
          | some a => exact .first (hf ▸ hb)
          | none => exact .later (hf ▸ hb) hbs

theorem finds_member (c name : String) :
    p.Finds (ClassDecl.attribute? name) c ((t.member? c name).map (·.entry.decl)) := by
  refine finds_of_look hd hac (fun depth c => (t.memberFrom depth c name).map (·.entry.decl))
    (fun depth c hc => ?_) (fun depth c s k hs hk => ?_) (rank_lt_depth hd c)
  · rw [memberFrom_succ, hc]
    rfl
  · obtain ⟨-, -, k', hk', hdec⟩ := hd.of_class? hs
    cases hk.symm.trans hk'
    rw [memberFrom_succ, ← hdec.attribute?,
      ← hd.baseNames ((Program.class?_eq_some_iff hd.nodup).1 hk).1 hdec]
    simp only [hs]
    cases (s.lookup name).filter (·.kind == .member) with
    | some e => rfl
    | none => exact List.map_findSome? ..

theorem finds_methods (hp : t.program.functions.map Function.toSignature
      = p.functions.map Function.toSignature) (c name : String) :
    ∃ found, p.Finds (p.methods? name) c found ∧ t.methods c name = found.getD [] := by
  have hwhere : ∀ P, t.functionsWhere P = p.positions P := Program.positions_congr hp
  refine ⟨_, finds_of_look hd hac (fun depth c => nonempty? (t.methodsFrom depth c name))
    (fun depth c hc => ?_) (fun depth c s k hs hk => ?_) (rank_lt_depth hd c),
    (getD_nonempty? _).symm⟩
  · rw [methodsFrom, hc]
    rfl
  · obtain ⟨-, -, k', hk', hdec⟩ := hd.of_class? hs
    cases hk.symm.trans hk'
    obtain ⟨hkm, rfl⟩ := (Program.class?_eq_some_iff hd.nodup).1 hk
    have hbelow := nonempty?_getD (fun b => t.methodsFrom depth b name) k.bases
    rw [methodsFrom, Program.methods?]
    simp only [hs, hd.baseNames hkm hdec, hwhere]
    split
    · rename_i hempty
      have hown : nonempty? (p.positions fun f => f.className == k.name && f.name == name
          && !f.isConstructor) = none := if_pos hempty
      rw [hown, Option.none_or]
      exact hbelow
    · rename_i hne
      have hown : nonempty? (p.positions fun f => f.className == k.name && f.name == name
          && !f.isConstructor) = some _ := if_neg hne
      rw [hown]
      rfl

end

end Table

end MoonBackend
