import MoonBackend.Proofs.Emit.Steps
import MoonBackend.Proofs.Layout.Inheritance
import MoonBackend.Proofs.Symbols.Completed

/-!
# The function under way

What emission can rely on when it starts with a function: the layout is resolved, and the frame has
a slot for everything that the body asks for. Looking such a slot up gives its offset.
-/

namespace MoonBackend

open Layout

def Backed (s : Scope) (ds : List Demand) : Prop :=
  ∀ d ∈ ds, ∃ e ∈ s.entries, s.slot d.node.key d.kind = some e ∧ e.kind = d.kind ∧ e.type = d.type

theorem backed_append {s : Scope} {ds ds' : List Demand} :
    Backed s (ds ++ ds') ↔ Backed s ds ∧ Backed s ds' := by
  simp only [Backed, List.forall_mem_append]

/-- The frame of a function holds its parameters and the slots that it asks for. -/
structure Framed (t : Table) (entryName : String) (k : ℕ) (s : Scope) (f : Function) : Prop where
  backing : s.backing = .function k f.toSignature
  storage : ∀ e ∈ s.entries, e.kind.isStorage = true
  named : ∀ e ∈ s.entries, e.name ≠ "" → e.kind = .parameter ∨ e.kind = .localVar
  params : s.params.map Entry.outline = f.params.map fun d => (.parameter, d.name, d.type)
  slots : Backed s (Demand.ofFunction t entryName k f)

/-! ### Frames of a resolved layout -/

theorem kind_ofFunction {t : Table} {entryName : String} {k : ℕ} {f : Function} {d : Demand}
    (h : d ∈ Demand.ofFunction t entryName k f) :
    d.kind.isStorage = true ∧ d.kind ∉ [.member, .parameter, .localVar] := by
  rcases List.mem_append.1 h with h | h
  · unfold Demand.ofHead at h
    rcases List.mem_append.1 h with h | h
    · rcases List.mem_append.1 h with h | h
      · split at h
        · cases h
        · rw [List.mem_singleton.1 h]
          exact ⟨rfl, by simp⟩
      · split at h
        · cases h
        · rw [List.mem_singleton.1 h]
          exact ⟨rfl, by simp⟩
    · split at h
      · rw [List.mem_singleton.1 h]
        exact ⟨rfl, by simp⟩
      · cases h
  · obtain ⟨j, -, q, -, hkey | ⟨hkey, -⟩⟩ := under_ofStmts _ [] 0 f.body d h
    · rw [show d.kind = .temporary from congrArg Prod.fst hkey]
      exact ⟨rfl, by simp⟩
    · rw [show d.kind = .reference from congrArg Prod.fst hkey]
      exact ⟨rfl, by simp⟩

theorem ofFunction_agrees {t t' : Table} (h : Table.Agrees t t') (entryName : String) (k : ℕ)
    (f : Function) : Demand.ofFunction t' entryName k f = Demand.ofFunction t entryName k f := by
  have hmember : ∀ name, (t'.resolveName k name).any Prod.snd = (t.resolveName k name).any Prod.snd := by
    intro name
    have hview : ∀ o : Option (Located × Bool), o.any Prod.snd = (o.map Table.view).any Prod.snd := by
      intro o
      cases o <;> rfl
    rw [hview, hview, h.name]
  unfold Demand.ofFunction
  simp only [hmember]

theorem framed_of_later {p : Program} {t t' : Table} {entryName : String} (hb : Table.build p = .ok t)
    (hl : (supplied t entryName).Later t') {k : ℕ} {s : Scope} (hs : t'.functions[k]? = some s) :
    ∃ f, t'.program.functions[k]? = some f ∧ Framed t' entryName k s f := by
  rw [hl.program]
  show ∃ f, t.program.functions[k]? = some f ∧ _
  have hrel := rel_getElem? hl.functions k
  rw [Table.getElem?_supplied, hs] at hrel
  cases hs₀ : t.functions[k]? with
  | none =>
    rw [hs₀] at hrel
    cases hrel
  | some s₀ =>
    rw [hs₀] at hrel
    have hlater : (withSlots t entryName k s₀).Later s := by
      cases hrel with
      | some h => exact h
    obtain ⟨g, hof, body, hf⟩ := headsMatch_of_build hb k s₀ hs₀
    refine ⟨_, hf, ?_⟩
    have hentries : (withSlots t entryName k s₀).entries
        = (g.params.map fun d => Entry.named .parameter d.name d.type)
          ++ Scope.localsOfAll [] 0 g.body
          ++ (Demand.ofFunction t entryName k { g with body := body }).map demanded := by
      rw [withSlots, hf, hof.entries]
    have hlocal : ∀ e ∈ Scope.localsOfAll [] 0 g.body, e.kind = .localVar :=
      Scope.forall_localsOfAll (P := fun e => e.kind = .localVar) (fun path d => by
        unfold Scope.localEntry
        split
        · rfl
        · rfl) [] 0 g.body
    refine ⟨hlater.backing.trans hof.backing, fun e he => ?_, fun e he hname => ?_, ?_,
      fun d hd => ?_⟩
    · obtain ⟨e₀, he₀, hlate⟩ := mem_right hlater.entries he
      rw [hlate.kind]
      rw [hentries, List.mem_append, List.mem_append] at he₀
      rcases he₀ with (he₀ | he₀) | he₀
      · obtain ⟨d, -, rfl⟩ := List.mem_map.1 he₀
        rfl
      · rw [hlocal e₀ he₀]
        rfl
      · obtain ⟨d, hd, rfl⟩ := List.mem_map.1 he₀
        exact (kind_ofFunction hd).1
    · obtain ⟨e₀, he₀, hlate⟩ := mem_right hlater.entries he
      rw [hlate.name] at hname
      rw [hlate.kind]
      rw [hentries, List.mem_append, List.mem_append] at he₀
      rcases he₀ with (he₀ | he₀) | he₀
      · obtain ⟨d, -, rfl⟩ := List.mem_map.1 he₀
        exact .inl rfl
      · exact .inr (hlocal e₀ he₀)
      · obtain ⟨d, hd, rfl⟩ := List.mem_map.1 he₀
        exact absurd rfl hname
    · have hout := map_outline_later hlater.entries
      have hfilter : ∀ es : List Entry, (es.filter (·.kind == .parameter)).map Entry.outline
          = (es.map Entry.outline).filter (·.1 == .parameter) := by
        intro es
        rw [List.filter_map]
        rfl
      have hnone : ∀ es : List Entry, (∀ e ∈ es, e.kind ≠ .parameter) →
          es.filter (·.kind == .parameter) = [] := fun es h =>
        List.filter_eq_nil_iff.2 fun e he heq => h e he (eq_of_beq heq)
      unfold Scope.params
      rw [hfilter, hout, ← hfilter, hentries, List.filter_append, List.filter_append,
        hnone (Scope.localsOfAll [] 0 g.body) (fun e he => by rw [hlocal e he]; decide),
        hnone (List.map demanded _) (fun e he => by
          obtain ⟨d, hd, rfl⟩ := List.mem_map.1 he
          intro hkind
          exact (kind_ofFunction hd).2 (by simp [show d.kind = .parameter from hkind])), List.append_nil, List.append_nil, List.filter_eq_self.2]
      · rw [List.map_map]
        rfl
      · intro e he
        obtain ⟨d, -, rfl⟩ := List.mem_map.1 he
        rfl
    · rw [ofFunction_agrees (Table.agrees_of_later (Table.declares_of_build hb) hl)] at hd
      have hslot : (withSlots t entryName k s₀).slot d.node.key d.kind = some (demanded d) := by
        rw [withSlots, hf, slot_append, slot_ofFunction hof (key_ofFunction hd), Option.none_or]
        exact find_demanded (distinct_ofFunction t entryName k _) hd
      have hrel := hlater.slot d.node.key d.kind
      rw [hslot] at hrel
      obtain ⟨e, he, hlate⟩ := of_rel_some hrel
      exact ⟨e, List.mem_of_find?_eq_some he, he, hlate.kind, hlate.type⟩

namespace Emit

/-- What emission relies on in the function under way. -/
structure Standing (p : Program) (c : Context) : Prop where
  proper : c.config.sizes.Proper
  laid : LaidOut p c.config.sizes c.layout.table
  sizes : c.layout.sizes = c.config.sizes
  framed : ∀ (k : ℕ) s, c.layout.table.functions[k]? = some s →
    ∃ f, c.layout.table.program.functions[k]? = some f
      ∧ Framed c.layout.table c.config.emit.entryFunction k s f
  scope : c.layout.table.functions[c.index]? = some c.scope
  head : ∃ f, c.layout.table.program.functions[c.index]? = some f ∧ f.toSignature = c.head

/-- The function under way stands on a resolved layout. -/
theorem standing_of_resolve {p : Program} {t : Table} {config : Config} {l : Layout}
    (hb : Table.build p = .ok t) (hc : config.validate = .ok ())
    (hr : (ofTable t config).resolve = (.ok (), l)) {i : ℕ} {scope : Scope} {f : MoonBackend.Function}
    (hs : l.table.functions[i]? = some scope) (hf : l.table.program.functions[i]? = some f)
    (tags : List String) (exit : String) :
    Standing p (contextAt config l tags i f scope exit) := by
  have hp := Config.proper_of_validate hc
  obtain ⟨hlater, hsizes, -, -⟩ := of_resolve (Table.fresh_of_build hb) hr
  exact ⟨hp, laidOut_of_resolve hb hp hr, hsizes,
    fun k s hs => framed_of_later hb hlater hs, hs, f, hf, rfl⟩

namespace Standing

variable {p : Program} {c : Context} (h : Standing p c)

include h

theorem framedAt {k : ℕ} {s : Scope} {f : MoonBackend.Function} (hs : c.layout.table.functions[k]? = some s)
    (hf : c.layout.table.program.functions[k]? = some f) :
    Framed c.layout.table c.config.emit.entryFunction k s f := by
  obtain ⟨f', hf', hframed⟩ := h.framed k s hs
  cases hf.symm.trans hf'
  exact hframed

theorem offset {k : ℕ} {s : Scope} (hs : c.layout.table.functions[k]? = some s) {e : Entry}
    (he : e ∈ s.entries) : ∃ o, e.offset = some o ∧ e.getOffset = .ok o := by
  obtain ⟨f, -, hframed⟩ := h.framed k s hs
  obtain ⟨o, ho⟩ := Option.ne_none_iff_exists'.1
    (offset_of_tiled (h.laid.functions s (List.mem_of_getElem? hs)) he (hframed.storage e he))
  exact ⟨o, ho, by rw [Entry.getOffset, ho]⟩

theorem slot {d : Demand} (hb : Backed c.scope [d]) :
    ∃ e ∈ c.scope.entries, ∃ o, e.kind = d.kind ∧ e.type = d.type ∧ e.offset = some o
      ∧ c.scope.requireSlot d.node d.kind = .ok e ∧ e.getOffset = .ok o
      ∧ ∀ s, eval (slotOffset d.node d.kind) c s = (.ok o, s) := by
  obtain ⟨e, he, hslot, hkind, htype⟩ := hb d (List.mem_singleton_self d)
  obtain ⟨o, ho, hget⟩ := h.offset h.scope he
  have hreq : c.scope.requireSlot d.node d.kind = .ok e := by rw [Scope.requireSlot, hslot]
  refine ⟨e, he, o, hkind, htype, ho, hreq, hget, fun s => ?_⟩
  rw [eval_slotOffset, hreq]
  exact congrArg (·, s) hget

theorem headSlots : Backed c.scope
    (Demand.ofHead c.config.emit.entryFunction (.function c.index c.head) c.head) := by
  obtain ⟨f, hf, hhead⟩ := h.head
  rw [← hhead]
  exact (backed_append.1 (h.framedAt h.scope hf).slots).1

theorem local_of_resolveName {name : String} {l : Located}
    (hl : c.layout.table.resolveName c.index name = some (l, false)) :
    l.entry ∈ c.scope.entries ∧ c.scope.lookup name = some l.entry := by
  unfold Table.resolveName at hl
  rw [h.scope] at hl
  simp only at hl
  split at hl
  · rename_i e he
    cases hl
    refine ⟨?_, he⟩
    unfold Scope.lookup at he
    split at he
    · cases he
    · exact List.mem_of_find?_eq_some he
  · split at hl
    · split at hl
      · obtain ⟨l', -, heq⟩ := Option.map_eq_some_iff.1 hl
        cases heq
      · cases hl
    · cases hl

theorem member_of_resolveName {name : String} {l : Located}
    (hl : c.layout.table.resolveName c.index name = some (l, true)) :
    c.head.isMember = true ∧ c.layout.table.member? c.head.className name = some l := by
  obtain ⟨f, hf, hhead⟩ := h.head
  unfold Table.resolveName at hl
  rw [h.scope] at hl
  simp only [(h.framedAt h.scope hf).backing, hhead] at hl
  split at hl
  · cases hl
  · split at hl
    · obtain ⟨l', hl', heq⟩ := Option.map_eq_some_iff.1 hl
      cases heq
      exact ⟨‹_›, hl'⟩
    · cases hl

omit h in
theorem class_of_member? {t : Table} {className name : String} {l : Located}
    (hl : t.member? className name = some l) : (t.class? className).isSome = true := by
  unfold Table.member? Table.depth at hl
  rw [Table.memberFrom_succ] at hl
  split at hl
  · cases hl
  · rename_i s hs
    rw [hs]
    rfl

omit h in
theorem class_of_methods {t : Table} {className name : String} {k : ℕ}
    (hk : k ∈ t.methods className name) : (t.class? className).isSome = true := by
  unfold Table.methods Table.depth at hk
  rw [Table.methodsFrom] at hk
  split at hk
  · cases hk
  · rename_i s hs
    rw [hs]
    rfl

theorem memberOffset {className name : String} {l : Located}
    (hl : c.layout.table.member? className name = some l) :
    ∃ off, c.layout.table.memberOffset className name = .ok (off, l) := by
  have hD := h.laid.declares.class?_isSome.1 (class_of_member? hl)
  have heq := h.laid.member?_eq hD name
  rw [hl] at heq
  cases hm : c.layout.table.memberOffset className name with
  | error f =>
    rw [hm] at heq
    cases heq
  | ok x =>
    rw [hm] at heq
    cases heq
    exact ⟨x.1, rfl⟩

theorem baseOffset {className name : String} {k : ℕ} {f : Signature}
    (hk : k ∈ c.layout.table.methods className name) (hf : c.layout.table.signature? k = some f) :
    ∃ off, c.layout.table.baseOffset className f.className = .ok off := by
  have hD := h.laid.declares.class?_isSome.1 (class_of_methods hk)
  obtain ⟨g, hg, -, hderived⟩ := h.laid.methods_derived hD hk
  rw [Table.signature?, hg] at hf
  cases hf
  exact (h.laid.baseOffset_isOk_iff hD).2 hderived

/-! ### Types that take space -/

theorem sizable_of_mem {k : ℕ} {s : Scope} (hs : c.layout.table.functions[k]? = some s) {e : Entry}
    (he : e ∈ s.entries) (hk : e.kind.isAddress = false) : e.type.Sizable p := by
  obtain ⟨f, -, hframed⟩ := h.framed k s hs
  exact h.laid.sizable s (List.mem_append_right _ (List.mem_of_getElem? hs)) e
    (List.mem_filter.2 ⟨he, hframed.storage e he⟩) hk

theorem sizable_of_backed {d : Demand} (hb : Backed c.scope [d]) (hk : d.kind.isAddress = false) :
    d.type.Sizable p := by
  obtain ⟨e, he, o, hkind, htype, -⟩ := h.slot hb
  rw [← htype]
  exact h.sizable_of_mem h.scope he (hkind ▸ hk)

theorem sizable_of_member? {className name : String} {l : Located}
    (hl : c.layout.table.member? className name = some l) : l.entry.type.Sizable p := by
  have hD := h.laid.declares.class?_isSome.1 (class_of_member? hl)
  obtain ⟨off, hoff⟩ := h.memberOffset hl
  obtain ⟨before, q, after, -, -, hq, -⟩ := (h.laid.memberOffset_eq_ok hD).1 hoff
  obtain ⟨i, s, -, his, -, hmem, hkind, -⟩ := of_ownMember hq
  exact h.laid.sizable s (List.mem_append_left _ (List.mem_of_getElem? his)) l.entry
    (List.mem_filter.2 ⟨hmem, by rw [hkind]; rfl⟩) (by rw [hkind]; rfl)

theorem kind_of_lookup {name : String} {e : Entry} (hlook : c.scope.lookup name = some e) :
    e ∈ c.scope.entries ∧ (e.kind = .parameter ∨ e.kind = .localVar) := by
  obtain ⟨f, -, hframed⟩ := h.framed c.index c.scope h.scope
  unfold Scope.lookup at hlook
  split at hlook
  · cases hlook
  · rename_i hne
    have hm := List.mem_of_find?_eq_some hlook
    have heq : e.name = name := by simpa using List.find?_some hlook
    have hname : e.name ≠ "" := by simpa [heq] using hne
    exact ⟨hm, hframed.named e hm hname⟩

omit h in
theorem isAddress_of_kind {e : Entry} (hk : e.kind = .parameter ∨ e.kind = .localVar) :
    e.kind.isAddress = false := by
  rcases hk with hk | hk
  · rw [hk]
    rfl
  · rw [hk]
    rfl

theorem sizable_of_lookup {name : String} {e : Entry} (hlook : c.scope.lookup name = some e) :
    e.type.Sizable p := by
  obtain ⟨hm, hk⟩ := h.kind_of_lookup hlook
  exact h.sizable_of_mem h.scope hm (isAddress_of_kind hk)

theorem sizable_of_resolveName {name : String} {found : Located × Bool}
    (hl : c.layout.table.resolveName c.index name = some found) : found.1.entry.type.Sizable p := by
  obtain ⟨l, b⟩ := found
  cases b with
  | true => exact h.sizable_of_member? (h.member_of_resolveName hl).2
  | false => exact h.sizable_of_lookup (h.local_of_resolveName hl).2

omit h in
theorem sizable_drop {type : Ty} (hs : type.Sizable p) (n : ℕ) :
    Ty.Sizable p ⟨type.base, type.dims.drop n⟩ :=
  ⟨hs.notVoid, fun d hd => hs.dims d (List.mem_of_mem_drop hd), hs.declared⟩

end Standing

end Emit

end MoonBackend
