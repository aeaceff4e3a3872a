import MoonBackend.Proofs.Compiled
import MoonBackend.Proofs.Layout.Bytes

/-!
# Classes of a table and classes of its program

The scopes of a table stand for the classes of its program in every stage of the layout: they have
the same names, bases and attributes, so a look-up in the table is a look-up in the program.
-/

namespace MoonBackend

open Layout

/-- What is fixed about an entry when it is declared. -/
def Entry.outline (e : Entry) : EntryKind × String × Ty := (e.kind, e.name, e.type)

def VarDecl.outline (d : VarDecl) : EntryKind × String × Ty := (.member, d.name, d.type)

theorem map_outline_later {es es' : List Entry} (h : List.Forall₂ Entry.Later es es') :
    es'.map Entry.outline = es.map Entry.outline := by
  induction h with
  | nil => rfl
  | cons he _ ih =>
    rw [List.map_cons, List.map_cons, ih]
    simp only [Entry.outline, he.kind, he.name, he.type]

/-- The scope is that of the class. -/
structure Scope.Declares (c : ClassDecl) (s : Scope) : Prop where
  name : s.name = c.name
  backing : ∃ i, s.backing = .classDecl i c
  entries : ∃ marks, (∀ m ∈ marks, m.1 = EntryKind.function ∧ m.2.1 = "")
    ∧ s.entries.map Entry.outline = c.attributes.map VarDecl.outline ++ marks

/-- The classes of the table are those of the program. -/
structure Table.Declares (p : Program) (t : Table) : Prop where
  count : t.classes.length = p.classes.length
  scope : ∀ (i : Nat) s, t.classes[i]? = some s →
    ∃ c, p.classes[i]? = some c ∧ Scope.Declares c s
  nodup : (p.classes.map ClassDecl.name).Nodup
  bases : ∀ c ∈ p.classes, ∀ b ∈ c.bases, ∃ k ∈ p.classes, k.name = b
  functions : ∀ s ∈ t.functions, ∃ i head, s.backing = .function i head

theorem Scope.Declares.later {c : ClassDecl} {s s' : Scope} (h : Declares c s) (hl : s.Later s') :
    Declares c s' := by
  obtain ⟨marks, hm, he⟩ := h.entries
  exact ⟨hl.name.trans h.name, hl.backing ▸ h.backing, marks, hm,
    (map_outline_later hl.entries).trans he⟩

theorem Scope.Declares.storage {c : ClassDecl} {s : Scope} (h : Declares c s) :
    s.storage.map Entry.outline = c.attributes.map VarDecl.outline := by
  obtain ⟨marks, hm, he⟩ := h.entries
  have hfilter : s.storage.map Entry.outline
      = (s.entries.map Entry.outline).filter fun o => o.1.isStorage := by
    unfold Scope.storage
    rw [List.filter_map]
    rfl
  rw [hfilter, he, List.filter_append]
  have h1 : (c.attributes.map VarDecl.outline).filter (fun o => o.1.isStorage)
      = c.attributes.map VarDecl.outline := by
    refine List.filter_eq_self.2 fun o ho => ?_
    obtain ⟨d, -, rfl⟩ := List.mem_map.1 ho
    rfl
  have h2 : marks.filter (fun o => o.1.isStorage) = [] := by
    refine List.filter_eq_nil_iff.2 fun o ho => ?_
    rw [(hm o ho).1]
    decide
  rw [h1, h2, List.append_nil]

def Program.positions (p : Program) (P : Signature → Bool) : List Nat :=
  (List.range p.functions.length).filter fun i => (p.functions[i]?).any fun f => P f.toSignature

theorem Program.positions_congr {p p' : Program}
    (h : p'.functions.map Function.toSignature = p.functions.map Function.toSignature)
    (P : Signature → Bool) : p'.positions P = p.positions P := by
  have hany : ∀ (p : Program) (i : Nat), ((p.functions[i]?).any fun f => P f.toSignature)
      = ((p.functions.map Function.toSignature)[i]?).any P := by
    intro p i
    rw [List.getElem?_map, Option.any_map]
  have hlen := congrArg List.length h
  rw [List.length_map, List.length_map] at hlen
  unfold positions
  simp only [hany, h, hlen]

namespace Table

variable {p : Program} {t t' : Table}

theorem class?_cases (t : Table) (name : String) :
    (t.class? name = none ∧ t.classIndex? name = none)
      ∨ ∃ i s, t.class? name = some s ∧ t.classIndex? name = some i ∧ t.classes[i]? = some s := by
  unfold class? classIndex?
  induction t.classes with
  | nil => exact .inl ⟨rfl, rfl⟩
  | cons s ss ih =>
    rw [List.find?_cons, List.findIdx?_cons]
    cases s.name == name with
    | true => exact .inr ⟨0, s, rfl, rfl, rfl⟩
    | false =>
      rcases ih with ⟨h, h'⟩ | ⟨i, s', h, h', hi⟩
      · exact .inl ⟨h, by simp [h']⟩
      · exact .inr ⟨i + 1, s', h, by simp [h'], by simpa using hi⟩

theorem memberFrom_succ (t : Table) (depth : Nat) (className name : String) :
    t.memberFrom (depth + 1) className name
      = match t.class? className with
        | none => none
        | some s =>
          match (s.lookup name).filter (·.kind == .member) with
          | some e => some ⟨.ofClass ((t.classIndex? className).getD 0), e⟩
          | none => (t.baseNames s).findSome? fun b => t.memberFrom depth b name := by
  rw [memberFrom]
  rcases t.class?_cases className with ⟨h, h'⟩ | ⟨i, s, h, h', hi⟩
  · simp only [h, h']
  · cases he : (s.lookup name).filter (·.kind == .member) with
    | none => simp only [h, h', hi, he]
    | some e => simp only [h, h', hi, he, Option.getD_some]

theorem Declares.later (h : Declares p t) (hl : t.Later t') : Declares p t' := by
  refine ⟨by rw [← hl.classes.length_eq, h.count], fun i s' hs' => ?_, h.nodup, h.bases, ?_⟩
  · have hr := rel_getElem? hl.classes i
    rw [hs'] at hr
    cases hs : t.classes[i]? with
    | none =>
      rw [hs] at hr
      cases hr
    | some s =>
      rw [hs] at hr
      obtain ⟨c, hc, hd⟩ := h.scope i s hs
      cases hr with
      | some hl' => exact ⟨c, hc, hd.later hl'⟩
  · intro s' hs'
    obtain ⟨s, hs, hss⟩ := mem_right hl.functions hs'
    rw [hss.backing]
    exact h.functions s hs

theorem declares_of_scopes (h : scopes p = .ok t) : Declares p t := by
  obtain ⟨hnodup, hbases⟩ := classes_of_scopes h
  have hs := hasScopes h
  refine ⟨hs.classCount, fun i s hi => ?_, hnodup, hbases, fun s hm => ?_⟩
  · obtain ⟨c, hc, hof⟩ := hs.classScope i s hi
    obtain ⟨marks, hm, he⟩ := hof.entries
    refine ⟨c, hc, hof.name, ⟨i, hof.backing⟩, marks.map Entry.outline, ?_, ?_⟩
    · intro m hmem
      obtain ⟨e, he, rfl⟩ := List.mem_map.1 hmem
      exact ⟨(hm e he).1, (hm e he).2.1⟩
    · rw [he, List.map_append, List.map_map]
      rfl
  · obtain ⟨i, hi⟩ := List.mem_iff_getElem?.1 hm
    obtain ⟨f, -, hof⟩ := hs.functionScope i s hi
    exact ⟨i, _, hof.backing⟩

theorem declares_of_build (h : Table.build p = .ok t) : Declares p t := by
  obtain ⟨t₀, h0, h⟩ := except_bind_eq_ok.1 h
  obtain ⟨fs, -, h⟩ := except_bind_eq_ok.1 h
  cases h
  have hd := declares_of_scopes h0
  exact ⟨hd.count, hd.scope, hd.nodup, hd.bases, hd.functions⟩

theorem Declares.supplied (h : Declares p t) (entryName : String) :
    Declares p (Layout.supplied t entryName) := by
  refine ⟨h.count, h.scope, h.nodup, h.bases, fun s hs => ?_⟩
  obtain ⟨i, hi, rfl⟩ := List.mem_mapIdx.1 hs
  exact h.functions t.functions[i] (List.getElem_mem hi)

section
variable (h : Declares p t)
include h

theorem Declares.of_mem {s : Scope} (hs : s ∈ t.classes) :
    ∃ c ∈ p.classes, Scope.Declares c s ∧ p.class? s.name = some c := by
  obtain ⟨i, hi⟩ := List.mem_iff_getElem?.1 hs
  obtain ⟨c, hc, hd⟩ := h.scope i s hi
  have hm := List.mem_of_getElem? hc
  exact ⟨c, hm, hd, (Program.class?_eq_some_iff h.nodup).2 ⟨hm, hd.name.symm⟩⟩

theorem Declares.map_name : t.classes.map Scope.name = p.classes.map ClassDecl.name := by
  apply List.ext_getElem?
  intro i
  rw [List.getElem?_map, List.getElem?_map]
  cases hs : t.classes[i]? with
  | none =>
    have hle := List.getElem?_eq_none_iff.1 hs
    rw [List.getElem?_eq_none (by rw [← h.count]; exact hle)]
    rfl
  | some s =>
    obtain ⟨c, hc, hd⟩ := h.scope i s hs
    rw [hc]
    exact congrArg some hd.name

theorem Declares.class?_isSome {name : String} :
    (t.class? name).isSome = true ↔ ∃ c ∈ p.classes, c.name = name := by
  rw [class?_isSome_iff, h.map_name, List.mem_map]

theorem Declares.of_class? {name : String} {s : Scope} (hs : t.class? name = some s) :
    s ∈ t.classes ∧ s.name = name ∧ ∃ c, p.class? name = some c ∧ Scope.Declares c s := by
  have hm := List.mem_of_find?_eq_some hs
  have hn : s.name = name := by simpa using List.find?_some hs
  obtain ⟨c, -, hd, hc⟩ := h.of_mem hm
  exact ⟨hm, hn, c, hn ▸ hc, hd⟩

theorem Declares.exists_class? {name : String} (hc : ∃ c ∈ p.classes, c.name = name) :
    ∃ s, t.class? name = some s :=
  Option.isSome_iff_exists.1 (h.class?_isSome.2 hc)

theorem Declares.class?_of_mem {s : Scope} (hs : s ∈ t.classes) : t.class? s.name = some s := by
  obtain ⟨c, hc, hd, -⟩ := h.of_mem hs
  obtain ⟨s', hs'⟩ := h.exists_class? ⟨c, hc, hd.name.symm⟩
  have hn : (t.classes.map Scope.name).Nodup := h.map_name ▸ h.nodup
  obtain ⟨hm, hname, -⟩ := h.of_class? hs'
  rw [hs', List.inj_on_of_nodup_map hn hm hs hname]

theorem Declares.baseNames {c : ClassDecl} {s : Scope} (hc : c ∈ p.classes)
    (hs : Scope.Declares c s) : t.baseNames s = c.bases := by
  obtain ⟨i, hi⟩ := hs.backing
  unfold Table.baseNames
  rw [hi]
  exact List.filter_eq_self.2 fun b hb => h.class?_isSome.2 (h.bases c hc b hb)

theorem Declares.baseNames_function {s : Scope} (hs : s ∈ t.functions) : t.baseNames s = [] := by
  obtain ⟨i, head, hb⟩ := h.functions s hs
  unfold Table.baseNames
  rw [hb]

end

end Table

end MoonBackend
