import MoonBackend.Proofs.Layout.Resolved

/-!
# Classes are laid out on their own

Sizing and placing a class looks at classes only. So what succeeds for the classes of a program
alone succeeds for them among functions, and a program can be laid out if its classes can and each
of its functions can.
-/

namespace MoonBackend

/-- The table of the classes alone. -/
def Table.withoutFunctions (t : Table) : Table :=
  { t with functions := [], program := { t.program with functions := [] } }

namespace Layout

variable {α β : Type}

structure Beside (l l' : Layout) : Prop where
  classes : l'.table.classes = l.table.classes
  sizes : l'.sizes = l.sizes

structure Alike (l l' : Layout) : Prop where
  functions : l'.table.functions = l.table.functions
  program : l'.table.program = l.table.program

theorem Alike.refl (l : Layout) : l.Alike l := ⟨rfl, rfl⟩

theorem Alike.trans {l₁ l₂ l₃ : Layout} (h : l₁.Alike l₂) (h' : l₂.Alike l₃) : l₁.Alike l₃ :=
  ⟨h'.functions.trans h.functions, h'.program.trans h.program⟩

/-- Where the first step succeeds, the second does on every layout with the same classes, with the
same answer and without a look at the functions. -/
def Mimics (x y : Resolving α) : Prop :=
  ∀ l l' a l₁, l.Beside l' → x.run l = (.ok a, l₁) →
    ∃ l₁', y.run l' = (.ok a, l₁') ∧ l₁.Beside l₁' ∧ l'.Alike l₁'

namespace Mimics

theorem pure (a : α) : Mimics (pure a : Resolving α) (pure a) := by
  intro l l' b l₁ hb h
  cases h
  exact ⟨l', rfl, hb, .refl l'⟩

theorem bind {x y : Resolving α} {f g : α → Resolving β} (hx : Mimics x y)
    (hf : ∀ a, Mimics (f a) (g a)) : Mimics (x >>= f) (y >>= g) := by
  intro l l' b l₂ hb h
  obtain ⟨a, l₁, h1, h2⟩ := run_bind_eq_ok.1 h
  obtain ⟨l₁', hy, hb', hs⟩ := hx l l' a l₁ hb h1
  obtain ⟨l₂', hg, hb'', hs'⟩ := hf a l₁ l₁' b l₂ hb' h2
  exact ⟨l₂', run_bind_eq_ok.2 ⟨a, l₁', hy, hg⟩, hb'', hs.trans hs'⟩

theorem get_bind {f g : Layout → Resolving β} (hf : ∀ l l', l.Beside l' → Mimics (f l) (g l')) :
    Mimics (get >>= f) (get >>= g) := by
  intro l l' b l₁ hb h
  obtain ⟨l₀, l₀, h0, h1⟩ := run_bind_eq_ok.1 h
  cases h0
  obtain ⟨l₁', hg, hrest⟩ := hf l l' hb l l' b l₁ hb h1
  exact ⟨l₁', run_bind_eq_ok.2 ⟨l', l', rfl, hg⟩, hrest⟩

theorem modify {f g : Layout → Layout} (hf : ∀ l, (f l).table = l.table ∧ (f l).sizes = l.sizes)
    (hg : ∀ l, (g l).table = l.table ∧ (g l).sizes = l.sizes) :
    Mimics (modify f : Resolving Unit) (modify g) := by
  intro l l' u l₁ hb h
  cases h
  refine ⟨g l', rfl, ⟨?_, ?_⟩, ⟨?_, ?_⟩⟩
  · rw [(hf l).1, (hg l').1]
    exact hb.classes
  · rw [(hf l).2, (hg l').2]
    exact hb.sizes
  · rw [(hg l').1]
  · rw [(hg l').1]

theorem report (m m' : String) (as as' : List (String × LogValue)) :
    Mimics (report m as) (report m' as') :=
  modify (fun _ => ⟨rfl, rfl⟩) fun _ => ⟨rfl, rfl⟩

theorem forM {γ : Type} {f : γ → Resolving Unit} (hf : ∀ c, Mimics (f c) (f c)) (cs : List γ) :
    Mimics (cs.forM f) (cs.forM f) := by
  induction cs with
  | nil => exact pure ()
  | cons c cs ih => exact bind (hf c) fun _ => ih

theorem onScope {i : Nat} {absent : α} {w w' : Table → Scope → Except Fault α × Scope}
    (hw : ∀ t t' s, t'.classes = t.classes → w' t' s = w t s) :
    Mimics (onScope (.ofClass i) absent w) (Layout.onScope (.ofClass i) absent w') := by
  intro l l' a l₁ hb h
  rcases onScope_eq_ok h with ⟨hnone, rfl, rfl⟩ | ⟨s, s', hs, hwork, rfl⟩
  · refine ⟨l', ?_, hb, .refl l'⟩
    have hnone' : l'.table.scope? (.ofClass i) = none := by
      rw [Table.scope?, hb.classes]
      exact hnone
    unfold Layout.onScope
    rw [run_bind_eq_ok]
    refine ⟨l', l', rfl, ?_⟩
    simp only [hnone']
    rfl
  · have hs' : l'.table.scope? (.ofClass i) = some s := by
      rw [Table.scope?, hb.classes]
      exact hs
    refine ⟨{ l' with table := l'.table.setScope (.ofClass i) s' }, ?_, ⟨?_, hb.sizes⟩, rfl, rfl⟩
    · unfold Layout.onScope
      rw [run_bind_eq_ok]
      refine ⟨l', l', rfl, ?_⟩
      simp only [hs', hw l.table l'.table s hb.classes, hwork]
      rfl
    · show l'.table.classes.set i s' = l.table.classes.set i s'
      rw [hb.classes]

end Mimics

/-! ### The steps on classes -/

theorem sizeScope_congr {t t' : Table} (h : t'.classes = t.classes) (sizes : Sizes) (s : Scope) :
    t'.sizeScope sizes s = t.sizeScope sizes s := by
  obtain ⟨program, globals, classes, functions⟩ := t
  obtain ⟨program', globals', classes', functions'⟩ := t'
  cases h
  rfl

def IsClass : ScopeId → Prop
  | .ofClass _ => True
  | _ => False

theorem Mimics.sizePending {ids : List ScopeId} (h : ∀ id ∈ ids, IsClass id) :
    Mimics (sizePending ids) (Layout.sizePending ids) := by
  induction ids with
  | nil => exact .pure []
  | cons id ids ih =>
    have hid := h id List.mem_cons_self
    cases id with
    | ofClass i =>
      refine Mimics.get_bind fun l l' hb => ?_
      rw [hb.sizes]
      refine Mimics.bind (.onScope fun t t' s ht => sizeScope_congr ht _ s) fun finished => ?_
      exact Mimics.bind (ih fun id' hid' => h id' (List.mem_cons_of_mem _ hid')) fun rest => .pure _
    | global => cases hid
    | ofFunction i => cases hid

theorem mem_of_sizePending {ids rest : List ScopeId} {l l' : Layout}
    (h : (sizePending ids).run l = (.ok rest, l')) : ∀ id ∈ rest, id ∈ ids := by
  induction ids generalizing l rest with
  | nil =>
    cases h
    exact fun _ hid => by cases hid
  | cons id ids ih =>
    unfold sizePending at h
    obtain ⟨l₀, l₁, h0, h⟩ := run_bind_eq_ok.1 h
    cases h0
    obtain ⟨finished, l₁, h1, h⟩ := run_bind_eq_ok.1 h
    obtain ⟨more, l₂, h2, h⟩ := run_bind_eq_ok.1 h
    cases h
    intro id' hid'
    split at hid'
    · exact List.mem_cons_of_mem _ (ih h2 id' hid')
    · rcases List.mem_cons.1 hid' with rfl | hid'
      · exact List.mem_cons_self
      · exact List.mem_cons_of_mem _ (ih h2 id' hid')

theorem sizeAll_nil (l : Layout) : (sizeAll []).run l = (.ok (), l) := by
  rw [sizeAll]
  rfl

theorem sizeAll_eq_ok {id : ScopeId} {ids : List ScopeId} {l l' : Layout} :
    (sizeAll (id :: ids)).run l = (.ok (), l') ↔
      ∃ next l₁ l₂, (sizePending (id :: ids)).run { l with passes := l.passes + 1 } = (.ok next, l₁)
        ∧ next.length < (id :: ids).length
        ∧ (report "layout pass" [("pass", .number l₁.passes),
            ("pending", .number (id :: ids).length),
            ("resolved", .number (((id :: ids).length : Int) - next.length))]).run l₁ = (.ok (), l₂)
        ∧ (sizeAll next).run l₂ = (.ok (), l') := by
  rw [sizeAll]
  simp only [List.isEmpty_cons, Bool.false_eq_true, if_false]
  constructor
  · intro h
    obtain ⟨u, l₀, h0, h⟩ := run_bind_eq_ok.1 h
    cases h0
    obtain ⟨next, l₁, h1, h⟩ := run_bind_eq_ok.1 h
    obtain ⟨l₁, l₁, h2, h⟩ := run_bind_eq_ok.1 h
    cases h2
    obtain ⟨u, l₂, h3, h⟩ := run_bind_eq_ok.1 h
    split at h
    · exact ⟨next, l₁, l₂, h1, ‹_›, h3, h⟩
    · cases h
  · rintro ⟨next, l₁, l₂, h1, hlt, h3, h⟩
    refine run_bind_eq_ok.2 ⟨(), _, rfl, run_bind_eq_ok.2 ⟨next, l₁, h1, ?_⟩⟩
    refine run_bind_eq_ok.2 ⟨l₁, l₁, rfl, run_bind_eq_ok.2 ⟨(), l₂, h3, ?_⟩⟩
    rw [dif_pos hlt]
    exact h

theorem Mimics.sizeAll (n : Nat) : ∀ {ids : List ScopeId}, ids.length ≤ n →
    (∀ id ∈ ids, IsClass id) → Mimics (sizeAll ids) (Layout.sizeAll ids) := by
  induction n with
  | zero =>
    intro ids hn _
    obtain rfl : ids = [] := List.length_eq_zero_iff.1 (Nat.le_zero.1 hn)
    rw [Layout.sizeAll]
    exact .pure ()
  | succ n ih =>
    intro ids hn hids l l' u l₁ hb h
    cases u
    cases ids with
    | nil =>
      rw [Layout.sizeAll] at h ⊢
      exact Mimics.pure () l l' () l₁ hb h
    | cons id ids =>
      obtain ⟨next, l₂, l₃, h1, hlt, h2, h3⟩ := sizeAll_eq_ok.1 h
      have hcount : Beside { l with passes := l.passes + 1 } { l' with passes := l'.passes + 1 } :=
        ⟨hb.classes, hb.sizes⟩
      obtain ⟨l₂', g1, hb1, ha1⟩ := Mimics.sizePending hids _ _ next l₂ hcount h1
      obtain ⟨l₃', g2, hb2, ha2⟩ := Mimics.report _ "layout pass" _ [("pass", .number l₂'.passes),
        ("pending", .number (id :: ids).length),
        ("resolved", .number (((id :: ids).length : Int) - next.length))] _ _ () l₃ hb1 h2
      obtain ⟨l₄', g3, hb3, ha3⟩ := ih (by omega)
        (fun id' hid' => hids id' (mem_of_sizePending h1 id' hid')) l₃ l₃' () l₁ hb2 h3
      refine ⟨l₄', sizeAll_eq_ok.2 ⟨next, l₂', l₃', g1, hlt, g2, g3⟩, hb3, ?_⟩
      have ha0 : l'.Alike { l' with passes := l'.passes + 1 } := ⟨rfl, rfl⟩
      exact ((ha0.trans ha1).trans ha2).trans ha3

theorem Mimics.placeClass (depth i : Nat) :
    Mimics (placeClass depth i) (Layout.placeClass depth i) := by
  induction depth generalizing i with
  | zero => exact .pure ()
  | succ depth ih =>
    refine Mimics.get_bind fun l l' hb => ?_
    obtain ⟨⟨program, globals, classes, functions⟩, rest⟩ := l
    obtain ⟨⟨program', globals', classes', functions'⟩, rest'⟩ := l'
    obtain ⟨rfl, -⟩ := hb
    cases hs : classes'[i]? with
    | none =>
      simp only [hs]
      exact .pure ()
    | some s =>
      simp only [hs]
      split
      · exact .pure ()
      · refine Mimics.bind (Mimics.forM ih _) fun _ => ?_
        refine Mimics.bind (.onScope fun _ _ _ _ => rfl) fun _ => ?_
        refine Mimics.bind (.modify (fun _ => ⟨rfl, rfl⟩) fun _ => ⟨rfl, rfl⟩) fun _ => ?_
        exact .report _ _ _ _

/-! ### Classes and a function -/

theorem sizePending_append {ids ids' rest rest' : List ScopeId} {l l₁ l₂ : Layout}
    (h : (sizePending ids).run l = (.ok rest, l₁)) (h' : (sizePending ids').run l₁ = (.ok rest', l₂)) :
    (sizePending (ids ++ ids')).run l = (.ok (rest ++ rest'), l₂) := by
  induction ids generalizing l rest with
  | nil =>
    cases h
    exact h'
  | cons id ids ih =>
    unfold sizePending at h
    obtain ⟨l₀, l₀, h0, h⟩ := run_bind_eq_ok.1 h
    cases h0
    obtain ⟨finished, l₃, h1, h⟩ := run_bind_eq_ok.1 h
    obtain ⟨more, l₄, h2, h⟩ := run_bind_eq_ok.1 h
    cases h
    rw [List.cons_append, sizePending]
    refine run_bind_eq_ok.2 ⟨l, l, rfl, run_bind_eq_ok.2 ⟨finished, l₃, h1, ?_⟩⟩
    refine run_bind_eq_ok.2 ⟨more ++ rest', l₂, ih h2, ?_⟩
    cases finished with
    | true => rfl
    | false => rfl

theorem onScope_of_some {id : ScopeId} {absent a : α} {w : Table → Scope → Except Fault α × Scope}
    {l : Layout} {s s' : Scope} (hs : l.table.scope? id = some s) (hw : w l.table s = (.ok a, s')) :
    (onScope id absent w).run l = (.ok a, { l with table := l.table.setScope id s' }) := by
  unfold onScope
  rw [run_bind_eq_ok]
  refine ⟨l, l, rfl, ?_⟩
  simp only [hs, hw]
  rfl

def noted (l : Layout) (message : String) (attributes : List (String × LogValue)) : Layout :=
  { l with log := l.log ++ [.debug "layout" message attributes] }

theorem run_report (message : String) (attributes : List (String × LogValue)) (l : Layout) :
    (report message attributes).run l = (.ok (), l.noted message attributes) := rfl

/-- The only function of a program can be sized at once, whatever the classes are. -/
def SizedAt (c : Sizes) (s s' : Scope) : Prop := ∀ t : Table, t.sizeScope c s = (.ok true, s')

section
variable {l l' l₁ : Layout} {s s' : Scope} {ids : List ScopeId}

theorem sizePending_function (hf : l.table.functions = [s]) (hs : SizedAt l.sizes s s') :
    ∃ l', (sizePending [.ofFunction 0]).run l = (.ok [], l') ∧ l.Beside l'
      ∧ l'.table.functions = [s'] ∧ l'.table.program = l.table.program := by
  have hscope : l.table.scope? (.ofFunction 0) = some s := by
    rw [Table.scope?, hf]
    rfl
  refine ⟨{ l with table := l.table.setScope (.ofFunction 0) s' }, ?_, ⟨rfl, rfl⟩, ?_, rfl⟩
  · refine run_bind_eq_ok.2 ⟨l, l, rfl, run_bind_eq_ok.2 ⟨true, _, ?_, rfl⟩⟩
    exact onScope_of_some hscope (hs l.table)
  · show l.table.functions.set 0 s' = [s']
    rw [hf]
    rfl

theorem sizePending_both {rest : List ScopeId} (hids : ∀ id ∈ ids, IsClass id) (hb : l.Beside l')
    (h : (sizePending ids).run l = (.ok rest, l₁)) (hf : l'.table.functions = [s])
    (hs : SizedAt l.sizes s s') :
    ∃ l₁', (sizePending (ids ++ [.ofFunction 0])).run l' = (.ok rest, l₁') ∧ l₁.Beside l₁'
      ∧ l₁'.table.functions = [s'] := by
  obtain ⟨l₂, h1, hb1, ha1⟩ := Mimics.sizePending hids l l' rest l₁ hb h
  have hsizes : l₂.sizes = l.sizes := by
    have hl := (of_sizePending h1).1.sizes
    rw [hl, hb.sizes]
  obtain ⟨l₃, h2, hb2, hf2, -⟩ := sizePending_function (ha1.functions.trans hf) (hsizes ▸ hs)
  refine ⟨l₃, ?_, ⟨hb2.classes.trans hb1.classes, hb2.sizes.trans hb1.sizes⟩, hf2⟩
  have hboth := sizePending_append h1 h2
  rwa [List.append_nil] at hboth

theorem sizeAll_both (hids : ∀ id ∈ ids, IsClass id) (hb : l.Beside l')
    (h : (sizeAll ids).run l = (.ok (), l₁)) (hf : l'.table.functions = [s])
    (hs : SizedAt l.sizes s s') :
    ∃ l₁', (sizeAll (ids ++ [.ofFunction 0])).run l' = (.ok (), l₁') ∧ l₁.Beside l₁'
      ∧ l₁'.table.functions = [s'] := by
  have hcount : Beside { l with passes := l.passes + 1 } { l' with passes := l'.passes + 1 } :=
    ⟨hb.classes, hb.sizes⟩
  cases ids with
  | nil =>
    rw [sizeAll] at h
    cases h
    obtain ⟨l₂, h1, hb1, hf1⟩ := sizePending_both hids hcount
      (show (sizePending []).run _ = (.ok [], _) from rfl) hf hs
    exact ⟨_, sizeAll_eq_ok.2 ⟨[], l₂, _, h1, Nat.zero_lt_one, run_report _ _ l₂, sizeAll_nil _⟩,
      ⟨hb1.classes, hb1.sizes⟩, hf1⟩
  | cons id ids =>
    obtain ⟨next, l₂, l₃, h1, hlt, h2, h3⟩ := sizeAll_eq_ok.1 h
    obtain ⟨l₂', g1, hb1, hf1⟩ := sizePending_both hids hcount h1 hf hs
    rw [run_report] at h2
    rw [List.cons_append] at g1
    generalize hpending : id :: (ids ++ [ScopeId.ofFunction 0]) = pending at g1
    have hb2 : Beside l₃ (l₂'.noted "layout pass" [("pass", .number l₂'.passes),
        ("pending", .number pending.length),
        ("resolved", .number ((pending.length : Int) - next.length))]) := by
      rw [← (Prod.mk.inj h2).2]
      exact ⟨hb1.classes, hb1.sizes⟩
    obtain ⟨l₄', g3, hb3, ha3⟩ := Mimics.sizeAll next.length (Nat.le_refl _)
      (fun id' hid' => hids id' (mem_of_sizePending h1 id' hid')) _ _ () l₁ hb2 h3
    refine ⟨l₄', ?_, hb3, ?_⟩
    · rw [List.cons_append, sizeAll_eq_ok, hpending]
      refine ⟨next, l₂', _, g1, ?_, run_report _ _ l₂', g3⟩
      rw [← hpending]
      simp only [List.length_cons, List.length_append] at hlt ⊢
      omega
    · rw [ha3.functions]
      exact hf1

theorem placeFunction_ok (hf : l.table.functions = [s]) (hs : s.layOut 0 = (.ok (), s')) :
    ∃ l', (placeFunction 0).run l = (.ok (), l') := by
  have hscope : l.table.scope? (.ofFunction 0) = some s := by
    rw [Table.scope?, hf]
    rfl
  have hset : l.table.functions.set 0 s' = [s'] := by
    rw [hf]
    rfl
  have hat : (l.table.setScope (.ofFunction 0) s').functions[0]? = some s' := by
    show (l.table.functions.set 0 s')[0]? = some s'
    rw [hset]
    rfl
  generalize hl : ({ l with table := l.table.setScope (.ofFunction 0) s' } : Layout) = l₁
  have h1 : (onScope (.ofFunction 0) () fun _ s => s.layOut 0).run l = (.ok (), l₁) := by
    rw [← hl]
    exact onScope_of_some hscope hs
  have hat' : l₁.table.functions[0]? = some s' := by
    rw [← hl]
    exact hat
  refine ⟨l₁.noted "frame" [("function", .text s'.name), ("size", .number (wordOfSize s'.size).toInt),
    ("entries", .number s'.storage.length)], ?_⟩
  refine run_bind_eq_ok.2 ⟨(), l₁, h1, run_bind_eq_ok.2 ⟨l₁, l₁, rfl, ?_⟩⟩
  simp only [hat']
  rfl

end

/-- A program of one function can be laid out if its classes can be, and its function. -/
theorem exists_resolve {t : Table} {c : Config} {g : Function} {s s₁ s₂ s₃ : Scope}
    (ht : t.functions = [s]) (hg : t.program.functions = [g])
    (h1 : supply (Demand.ofFunction t c.emit.entryFunction 0 g) s = (.ok (), s₁))
    (h2 : SizedAt c.sizes s₁ s₂) (h3 : s₂.layOut 0 = (.ok (), s₃))
    (hc : (ofTable t.withoutFunctions c).resolve.1 = .ok ()) :
    ∃ l, (ofTable t c).resolve = (.ok (), l) := by
  rcases hr : (ofTable t.withoutFunctions c).resolve with ⟨r, lc⟩
  rw [hr] at hc
  obtain rfl : r = .ok () := hc
  obtain ⟨_, m₁, m₂, _, k1, k2, k3, -, -⟩ := resolve_eq_ok.1 hr
  cases k1
  -- The steps for the classes alone are steps of the whole, with those of the function between.
  have hsupply : (supplyFunction 0).run (ofTable t c)
      = (.ok (), { ofTable t c with table := t.setScope (.ofFunction 0) s₁ }) := by
    refine run_bind_eq_ok.2 ⟨_, _, rfl, ?_⟩
    have hat : (ofTable t c).table.program.functions[0]? = some g := by
      show t.program.functions[0]? = some g
      rw [hg]
      rfl
    simp only [hat]
    refine onScope_of_some ?_ h1
    show t.functions[0]? = some s
    rw [ht]
    rfl
  have hfun : (t.setScope (.ofFunction 0) s₁).functions = [s₁] := by
    show t.functions.set 0 s₁ = [s₁]
    rw [ht]
    rfl
  have hids : ∀ id ∈ sizedScopes t.withoutFunctions, IsClass id := by
    intro id hid
    simp only [sizedScopes, Table.withoutFunctions, List.length_nil, List.range_zero, List.map_nil,
      List.append_nil, List.mem_map] at hid
    obtain ⟨i, -, rfl⟩ := hid
    trivial
  have hscopes : sizedScopes t = sizedScopes t.withoutFunctions ++ [.ofFunction 0] := by
    simp [sizedScopes, Table.withoutFunctions, ht, List.range_succ]
  have hlen : List.range t.functions.length = [0] := by
    rw [ht]
    rfl
  have hb : Beside (ofTable t.withoutFunctions c)
      { ofTable t c with table := t.setScope (.ofFunction 0) s₁ } := ⟨rfl, rfl⟩
  obtain ⟨n₁, g2, hb2, hf2⟩ := sizeAll_both hids hb k2 hfun h2
  obtain ⟨n₂, g3, hb3, ha3⟩ := Mimics.forM (Mimics.placeClass _) _ _ _ _ _ hb2 k3
  obtain ⟨n₃, g4⟩ := placeFunction_ok (ha3.functions.trans hf2) h3
  refine ⟨{ n₃ with resolved := true }, resolve_eq_ok.2 ⟨{ ofTable t c with
    table := t.setScope (.ofFunction 0) s₁ }, n₁, n₂, n₃, ?_, ?_, g3, ?_, rfl⟩⟩
  · rw [hlen]
    exact run_bind_eq_ok.2 ⟨(), _, hsupply, rfl⟩
  · rw [hscopes]
    exact g2
  · rw [hlen]
    exact run_bind_eq_ok.2 ⟨(), n₃, g4, rfl⟩

end Layout

end MoonBackend
