import Mathlib
import MoonBackend.Config.Basic
import MoonBackend.Symbols.Entry

/-!
# Sizes as natural numbers

The size that a type, an entry or a class of a program has by the rules of the layout, as a natural
number and without a look at any table: a class takes its bases and its attributes, an array its
element times its dimensions. What a class takes is computed to a depth; it has a size at some depth
exactly if everything that it is made of can be sized and it does not contain itself.
-/

namespace MoonBackend

/-! ### Sums that may be open -/

/-- The sum over a list, none while a summand is open. -/
def total {α : Type} (f : α → Option ℕ) (l : List α) : Option ℕ :=
  if l.all fun a => (f a).isSome then some (l.map fun a => (f a).getD 0).sum else none

def Refines {α : Type} (f g : α → Option ℕ) : Prop := ∀ a n, f a = some n → g a = some n

section

variable {α : Type} {f g : α → Option ℕ} {l : List α} {n : ℕ}

theorem total_eq_some :
    total f l = some n ↔ (∀ a ∈ l, ∃ m, f a = some m) ∧ n = (l.map fun a => (f a).getD 0).sum := by
  unfold total
  split
  · rename_i h
    simp only [List.all_eq_true, Option.isSome_iff_exists] at h
    simp only [Option.some.injEq]
    constructor
    · rintro rfl
      exact ⟨h, rfl⟩
    · rintro ⟨-, rfl⟩
      rfl
  · rename_i h
    simp only [List.all_eq_true, Option.isSome_iff_exists] at h
    constructor
    · intro hc
      cases hc
    · rintro ⟨h', -⟩
      exact absurd h' h

@[simp] theorem total_nil : total f [] = some 0 := rfl

theorem total_cons {a : α} :
    total f (a :: l) = some n ↔ ∃ k m, f a = some k ∧ total f l = some m ∧ n = k + m := by
  rw [total_eq_some]
  constructor
  · rintro ⟨hall, rfl⟩
    obtain ⟨k, hk⟩ := hall a List.mem_cons_self
    refine ⟨k, _, hk, total_eq_some.2 ⟨fun b hb => hall b (List.mem_cons_of_mem _ hb), rfl⟩, ?_⟩
    simp [hk]
  · rintro ⟨k, m, hk, hm, rfl⟩
    obtain ⟨hall, rfl⟩ := total_eq_some.1 hm
    refine ⟨fun b hb => ?_, by simp [hk]⟩
    rcases List.mem_cons.1 hb with rfl | hb
    · exact ⟨k, hk⟩
    · exact hall b hb

theorem total_refines (h : ∀ a ∈ l, ∀ m, f a = some m → g a = some m) (ht : total f l = some n) :
    total g l = some n := by
  induction l generalizing n with
  | nil => exact ht
  | cons a l ih =>
    obtain ⟨k, m, hk, hm, rfl⟩ := total_cons.1 ht
    refine total_cons.2 ⟨k, m, h a List.mem_cons_self k hk, ?_, rfl⟩
    exact ih (fun b hb => h b (List.mem_cons_of_mem _ hb)) hm

theorem le_of_total (ht : total f l = some n) {a : α} (ha : a ∈ l) {k : ℕ} (hk : f a = some k) :
    k ≤ n := by
  induction l generalizing n with
  | nil => cases ha
  | cons b l ih =>
    obtain ⟨k', m, hk', hm, rfl⟩ := total_cons.1 ht
    rcases List.mem_cons.1 ha with rfl | ha
    · rw [hk] at hk'
      cases hk'
      exact Nat.le_add_right _ _
    · exact (ih hm ha).trans (Nat.le_add_left _ _)

end

/-! ### Sizes by the rules -/

def Sizes.wordBytes (sizes : Sizes) : ℕ := sizes.word.toInt.toNat

/-- The bytes of one element, given those of the classes. A float takes two words. -/
def Base.bytes (sizes : Sizes) (classes : String → Option ℕ) : Base → Option ℕ
  | .void => none
  | .integer => some sizes.wordBytes
  | .float => some (2 * sizes.wordBytes)
  | .boolean => some sizes.boolean.toInt.toNat
  | .object name => classes name

def dimensions (dims : List Int64) : ℕ := (dims.map fun d => d.toInt.toNat).prod

/-- Dimensions are looked at one by one, not all words there are. -/
instance decidablePositive (dims : List Int64) : Decidable (∀ d ∈ dims, 0 < d) := List.decidableBAll (0 < ·) dims

/-- The bytes of a type: its element times its dimensions, which must be positive. -/
def Ty.bytes (sizes : Sizes) (classes : String → Option ℕ) (t : Ty) : Option ℕ :=
  if ∀ d ∈ t.dims, 0 < d then (t.base.bytes sizes classes).map (· * dimensions t.dims) else none

def EntryKind.isAddress : EntryKind → Bool
  | .returnAddress | .reference => true
  | _ => false

/-- The bytes of an entry: an address takes a word, everything else what its type takes. -/
def Entry.bytes (sizes : Sizes) (classes : String → Option ℕ) (e : Entry) : Option ℕ :=
  if e.kind.isAddress then some sizes.wordBytes else e.type.bytes sizes classes

theorem Entry.bytes_of_address {sizes : Sizes} {classes : String → Option ℕ} {e : Entry}
    (h : e.kind.isAddress = true) : e.bytes sizes classes = some sizes.wordBytes := if_pos h

theorem Entry.bytes_of_value {sizes : Sizes} {classes : String → Option ℕ} {e : Entry}
    (h : e.kind.isAddress = false) : e.bytes sizes classes = e.type.bytes sizes classes :=
  if_neg (Bool.eq_false_iff.1 h)

/-- The bytes of a class, whose bases and attributes are looked at to a depth. -/
def Program.classBytes (p : Program) (sizes : Sizes) : ℕ → String → Option ℕ
  | 0, _ => none
  | depth + 1, name =>
    match p.class? name with
    | none => none
    | some c => do
      let below ← total (p.classBytes sizes depth) c.bases
      let own ← total (fun d => d.type.bytes sizes (p.classBytes sizes depth)) c.attributes
      return below + own

/-- A class has another as a base, or an attribute of it with whatever dimensions. -/
def Program.Contains (p : Program) (c d : String) : Prop :=
  ∃ k ∈ p.classes, k.name = c ∧ (d ∈ k.bases ∨ ∃ a ∈ k.attributes, a.type.base = .object d)

/-- No class contains itself. -/
def Program.Acyclic (p : Program) : Prop := ∀ c, ¬ Relation.TransGen p.Contains c c

/-- A type that takes space: no void, only positive dimensions, and the class is declared. -/
structure Ty.Sizable (p : Program) (t : Ty) : Prop where
  notVoid : t.base ≠ .void
  dims : ∀ d ∈ t.dims, 0 < d
  declared : ∀ name, t.base = .object name → ∃ c ∈ p.classes, c.name = name

section

variable {p : Program} {sizes : Sizes} {classes classes' : String → Option ℕ}

theorem Ty.bytes_eq_some {t : Ty} {n : ℕ} : t.bytes sizes classes = some n ↔
    (∀ d ∈ t.dims, 0 < d) ∧ ∃ k, t.base.bytes sizes classes = some k ∧ n = k * dimensions t.dims := by
  unfold Ty.bytes
  split
  · rename_i h
    rw [Option.map_eq_some_iff]
    constructor
    · rintro ⟨k, hk, rfl⟩
      exact ⟨h, k, hk, rfl⟩
    · rintro ⟨-, k, hk, rfl⟩
      exact ⟨k, hk, rfl⟩
  · rename_i h
    constructor
    · intro hc
      cases hc
    · rintro ⟨h', -⟩
      exact absurd h' h

theorem Ty.bytes_refines (h : Refines classes classes') :
    Refines (Ty.bytes sizes classes) (Ty.bytes sizes classes') := by
  intro t n hn
  obtain ⟨hd, k, hk, rfl⟩ := Ty.bytes_eq_some.1 hn
  refine Ty.bytes_eq_some.2 ⟨hd, k, ?_, rfl⟩
  cases hb : t.base with
  | object name =>
    rw [hb] at hk
    exact h name k hk
  | _ =>
    rw [hb] at hk
    exact hk

theorem Entry.bytes_refines (h : Refines classes classes') :
    Refines (Entry.bytes sizes classes) (Entry.bytes sizes classes') := by
  intro e n hn
  unfold Entry.bytes at hn ⊢
  split
  · rename_i hk
    rwa [if_pos hk] at hn
  · rename_i hk
    rw [if_neg hk] at hn
    exact Ty.bytes_refines h _ n hn

theorem Program.classBytes_succ {depth : ℕ} {name : String} {n : ℕ} :
    p.classBytes sizes (depth + 1) name = some n ↔ ∃ c below own, p.class? name = some c
      ∧ total (p.classBytes sizes depth) c.bases = some below
      ∧ total (fun d => d.type.bytes sizes (p.classBytes sizes depth)) c.attributes = some own
      ∧ n = below + own := by
  rw [classBytes]
  cases p.class? name with
  | none => simp
  | some c =>
    simp only [bind, Option.bind_eq_some_iff, pure, Option.some.injEq]
    constructor
    · rintro ⟨below, hb, own, ho, rfl⟩
      exact ⟨c, below, own, rfl, hb, ho, rfl⟩
    · rintro ⟨_, below, own, rfl, hb, ho, rfl⟩
      exact ⟨below, hb, own, ho, rfl⟩

theorem Program.classBytes_refines {d d' : ℕ} (h : d ≤ d') :
    Refines (p.classBytes sizes d) (p.classBytes sizes d') := by
  induction d generalizing d' with
  | zero =>
    intro name n hn
    cases hn
  | succ d ih =>
    obtain ⟨d', rfl⟩ : ∃ k, d' = k + 1 := ⟨d' - 1, by omega⟩
    have ih := ih (Nat.le_of_succ_le_succ h)
    intro name n hn
    obtain ⟨c, below, own, hc, hb, ho, rfl⟩ := classBytes_succ.1 hn
    exact classBytes_succ.2 ⟨c, below, own, hc, total_refines (fun a _ => ih a) hb,
      total_refines (fun a _ => Ty.bytes_refines ih a.type) ho, rfl⟩

theorem Program.classBytes_unique {α : Type} {f : (String → Option ℕ) → α → Option ℕ}
    (hf : ∀ classes classes', Refines classes classes' → Refines (f classes) (f classes')) {d d' : ℕ}
    {a : α} {m n : ℕ} (h : f (p.classBytes sizes d) a = some m)
    (h' : f (p.classBytes sizes d') a = some n) : m = n := by
  have h1 := hf _ _ (classBytes_refines (Nat.le_max_left d d')) a m h
  have h2 := hf _ _ (classBytes_refines (Nat.le_max_right d d')) a n h'
  rw [h1] at h2
  exact Option.some.inj h2

/-- A check of what is known at one depth is a check of what is known at any. -/
theorem Program.check_of_any {α : Type} {f : (String → Option ℕ) → α → Option ℕ}
    (hf : ∀ classes classes', Refines classes classes' → Refines (f classes) (f classes'))
    {depth d n : ℕ} {a : α} {check : ℕ → Bool}
    (hany : (f (p.classBytes sizes depth) a).any check = true)
    (hn : f (p.classBytes sizes d) a = some n) : check n = true := by
  obtain ⟨m, hm, hcheck⟩ := (Option.any_eq_true _ _).1 hany
  rwa [Program.classBytes_unique hf hn hm]

theorem Program.check_of_classes {depth d n : ℕ} {name : String} {check : ℕ → Bool}
    (hall : ∀ c ∈ p.classes, (p.classBytes sizes depth c.name).any check = true)
    (hn : p.classBytes sizes d name = some n) : check n = true := by
  cases d with
  | zero => cases hn
  | succ d =>
    obtain ⟨c, -, -, hc, -⟩ := Program.classBytes_succ.1 hn
    have hname : c.name = name := by simpa using List.find?_some hc
    exact check_of_any (f := fun classes => classes) (fun _ _ h => h)
      (hname ▸ hall c (List.mem_of_find?_eq_some hc)) hn

theorem Program.total_of_forall {α : Type} {f : (String → Option ℕ) → α → Option ℕ}
    (hf : ∀ classes classes', Refines classes classes' → Refines (f classes) (f classes'))
    {l : List α} {v : α → ℕ} (h : ∀ a ∈ l, ∃ d, f (p.classBytes sizes d) a = some (v a)) :
    ∃ d, total (f (p.classBytes sizes d)) l = some (l.map v).sum := by
  induction l with
  | nil => exact ⟨0, rfl⟩
  | cons a l ih =>
    obtain ⟨d, hd⟩ := h a List.mem_cons_self
    obtain ⟨d', hd'⟩ := ih fun b hb => h b (List.mem_cons_of_mem _ hb)
    refine ⟨max d d', total_cons.2 ⟨v a, (l.map v).sum, ?_, ?_, by simp⟩⟩
    · exact hf _ _ (classBytes_refines (Nat.le_max_left d d')) a _ hd
    · exact total_refines (fun b _ => hf _ _ (classBytes_refines (Nat.le_max_right d d')) b) hd'

/-! ### Containment -/

theorem Program.class?_eq_some_iff (hn : (p.classes.map ClassDecl.name).Nodup) {name : String}
    {c : ClassDecl} : p.class? name = some c ↔ c ∈ p.classes ∧ c.name = name := by
  unfold class?
  constructor
  · intro h
    exact ⟨List.mem_of_find?_eq_some h, by simpa using List.find?_some h⟩
  · rintro ⟨hc, rfl⟩
    obtain ⟨k, hk⟩ := Option.isSome_iff_exists.1
      (List.find?_isSome (p := fun x => x.name == c.name).2 ⟨c, hc, by simp⟩)
    have hname : k.name = c.name := by simpa using List.find?_some hk
    rw [hk]
    exact congrArg some (List.inj_on_of_nodup_map hn (List.mem_of_find?_eq_some hk) hc hname)

theorem Program.isSome_of_contains (hn : (p.classes.map ClassDecl.name).Nodup) {c d : String}
    (h : p.Contains c d) {depth : ℕ} (hs : (p.classBytes sizes (depth + 1) c).isSome = true) :
    (p.classBytes sizes depth d).isSome = true := by
  obtain ⟨n, hn'⟩ := Option.isSome_iff_exists.1 hs
  obtain ⟨k, below, own, hk, hb, ho, -⟩ := classBytes_succ.1 hn'
  obtain ⟨k', hk', hname, huse⟩ := h
  obtain rfl : k' = k := Option.some.inj (((class?_eq_some_iff hn).2 ⟨hk', hname⟩).symm.trans hk)
  rcases huse with hbase | ⟨a, ha, hobj⟩
  · exact Option.isSome_iff_exists.2 ((total_eq_some.1 hb).1 d hbase)
  · obtain ⟨m, hm⟩ := (total_eq_some.1 ho).1 a ha
    obtain ⟨-, e, he, -⟩ := Ty.bytes_eq_some.1 hm
    rw [hobj] at he
    exact Option.isSome_iff_exists.2 ⟨e, he⟩

theorem Program.acyclic_of_classBytes (hn : (p.classes.map ClassDecl.name).Nodup)
    (h : ∀ c ∈ p.classes, ∃ d n, p.classBytes sizes d c.name = some n) : p.Acyclic := by
  -- the depth goes down along a chain of containment
  have hchain : ∀ c d, Relation.TransGen p.Contains c d → ∀ depth,
      (p.classBytes sizes depth c).isSome = true →
        ∃ depth', depth' < depth ∧ (p.classBytes sizes depth' d).isSome = true := by
    intro c d hcd
    induction hcd with
    | single hcd =>
      intro depth hs
      cases depth with
      | zero => cases hs
      | succ depth => exact ⟨depth, Nat.lt_succ_self _, isSome_of_contains hn hcd hs⟩
    | tail _ hde ih =>
      intro depth hs
      obtain ⟨depth', hlt, hs'⟩ := ih depth hs
      cases depth' with
      | zero => cases hs'
      | succ depth' =>
        exact ⟨depth', Nat.lt_of_succ_lt hlt, isSome_of_contains hn hde hs'⟩
  have hnever : ∀ depth c, Relation.TransGen p.Contains c c →
      ¬ (p.classBytes sizes depth c).isSome = true := by
    intro depth
    induction depth using Nat.strong_induction_on with
    | _ depth ih =>
      intro c hc hs
      obtain ⟨depth', hlt, hs'⟩ := hchain c c hc depth hs
      exact ih depth' hlt c hc hs'
  intro c hc
  obtain ⟨k, hk, hname⟩ : ∃ k ∈ p.classes, k.name = c := by
    obtain ⟨d, ⟨k, hk, hname, -⟩, -⟩ := Relation.TransGen.head'_iff.1 hc
    exact ⟨k, hk, hname⟩
  obtain ⟨d, n, hd⟩ := h k hk
  rw [hname] at hd
  exact hnever d c hc (Option.isSome_iff_exists.2 ⟨n, hd⟩)

theorem Ty.Sizable.bytes {t : Ty} (h : t.Sizable p)
    (hc : ∀ name, t.base = .object name → ∃ n, classes name = some n) :
    ∃ n, t.bytes sizes classes = some n := by
  have hbase : ∃ k, t.base.bytes sizes classes = some k := by
    cases hb : t.base with
    | void => exact absurd hb h.notVoid
    | object name => exact hc name hb
    | integer => exact ⟨_, rfl⟩
    | float => exact ⟨_, rfl⟩
    | boolean => exact ⟨_, rfl⟩
  obtain ⟨k, hk⟩ := hbase
  exact ⟨_, Ty.bytes_eq_some.2 ⟨h.dims, k, hk, rfl⟩⟩

theorem Ty.sizable_of_bytes {t : Ty} {n : ℕ} (h : t.bytes sizes classes = some n)
    (hc : ∀ name k, classes name = some k → ∃ c ∈ p.classes, c.name = name) : t.Sizable p := by
  obtain ⟨hd, k, hk, -⟩ := Ty.bytes_eq_some.1 h
  refine ⟨fun hv => ?_, hd, fun name hname => ?_⟩
  · rw [hv] at hk
    cases hk
  · rw [hname] at hk
    exact hc name k hk

/-- Classes that do not contain themselves have sizes, if their bases are declared and their
attributes take space. -/
theorem Program.classBytes_of_acyclic (hn : (p.classes.map ClassDecl.name).Nodup)
    (hb : ∀ c ∈ p.classes, ∀ b ∈ c.bases, ∃ k ∈ p.classes, k.name = b)
    (ha : ∀ c ∈ p.classes, ∀ a ∈ c.attributes, a.type.Sizable p) (h : p.Acyclic) :
    ∀ c ∈ p.classes, ∃ d n, p.classBytes sizes d c.name = some n := by
  let below : {c // c ∈ p.classes} → {c // c ∈ p.classes} → Prop := fun x y =>
    Relation.TransGen p.Contains y.1.name x.1.name
  have : Finite {c // c ∈ p.classes} := (List.finite_toSet p.classes).to_subtype
  have : IsTrans _ below := ⟨fun x y z hxy hyz => hyz.trans hxy⟩
  have : Std.Irrefl below := ⟨fun x hx => h _ hx⟩
  have hwf : WellFounded below := Finite.wellFounded_of_trans_of_irrefl below
  suffices hall : ∀ x : {c // c ∈ p.classes}, ∃ d n, p.classBytes sizes d x.1.name = some n from
    fun c hc => hall ⟨c, hc⟩
  intro x
  induction x using hwf.induction with
  | _ x ih =>
    obtain ⟨c, hc⟩ := x
    have hused : ∀ name, p.Contains c.name name → (∃ k ∈ p.classes, k.name = name) →
        ∃ d n, p.classBytes sizes d name = some n := by
      rintro name hcon ⟨k, hk, rfl⟩
      exact ih ⟨k, hk⟩ (.single hcon)
    have hbases : ∀ b ∈ c.bases, ∃ d, ∃ n, p.classBytes sizes d b = some n := fun b hbm =>
      hused b ⟨c, hc, rfl, .inl hbm⟩ (hb c hc b hbm)
    have hattrs : ∀ a ∈ c.attributes, ∃ d, ∃ n,
        a.type.bytes sizes (p.classBytes sizes d) = some n := by
      intro a ham
      have hs := ha c hc a ham
      cases hobj : a.type.base with
      | object name =>
        obtain ⟨d, n, hd⟩ := hused name ⟨c, hc, rfl, .inr ⟨a, ham, hobj⟩⟩ (hs.declared name hobj)
        refine ⟨d, hs.bytes fun name' hname' => ?_⟩
        rw [hobj] at hname'
        cases hname'
        exact ⟨n, hd⟩
      | _ =>
        refine ⟨0, hs.bytes fun name' hname' => ?_⟩
        rw [hobj] at hname'
        cases hname'
    have htotal : ∀ {α : Type} (f : (String → Option ℕ) → α → Option ℕ)
        (_ : ∀ classes classes', Refines classes classes' → Refines (f classes) (f classes'))
        (l : List α), (∀ a ∈ l, ∃ d, ∃ n, f (p.classBytes sizes d) a = some n) →
          ∃ d n, total (f (p.classBytes sizes d)) l = some n := by
      intro α f hf l hl
      choose! d v hv using hl
      obtain ⟨e, he⟩ := total_of_forall hf (v := v) fun a ha =>
        ⟨d a, hv a ha⟩
      exact ⟨e, _, he⟩
    obtain ⟨d, m, hd⟩ := htotal (fun classes => classes) (fun _ _ h => h) c.bases hbases
    obtain ⟨d', m', hd'⟩ := htotal (fun classes (a : VarDecl) => a.type.bytes sizes classes)
      (fun _ _ h a => Ty.bytes_refines h a.type) c.attributes hattrs
    refine ⟨max d d' + 1, m + m', classBytes_succ.2
      ⟨c, m, m', (class?_eq_some_iff hn).2 ⟨hc, rfl⟩, ?_, ?_, rfl⟩⟩
    · exact total_refines (fun b _ => classBytes_refines (Nat.le_max_left d d') b) hd
    · exact total_refines (fun a _ => Ty.bytes_refines
        (classBytes_refines (Nat.le_max_right d d')) a.type) hd'

end

end MoonBackend
