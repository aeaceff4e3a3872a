import MoonBackend.Proofs.Layout.Sizing
import MoonBackend.Proofs.Layout.Supply

/-!
# The placement of all scopes

Once all sizes are known nothing can go wrong with the offsets: every scope is laid out once. A class
is laid out after its bases, which do not come back to it as no class contains itself.
-/

namespace MoonBackend

open Layout

namespace Layout

/-! ### One scope -/

theorem placeEntries_ok {es : List Entry}
    (h : ∀ e ∈ es, e.kind.isStorage = true → e.offset = none ∧ e.size ≠ none) :
    ∀ off, ∃ es', Scope.placeEntries off es = (.ok (), es') := by
  induction es with
  | nil => exact fun off => ⟨[], rfl⟩
  | cons e es ih =>
    intro off
    have ih' := ih fun e he => h e (List.mem_cons_of_mem _ he)
    rw [Scope.placeEntries]
    split
    · rename_i hk
      obtain ⟨ho, hs⟩ := h e List.mem_cons_self hk
      have hset : e.setOffset off = .ok { e with offset := some off } := by
        simp [Entry.setOffset, ho, Option.isNone_iff_eq_none, hs]
      obtain ⟨es', hrest⟩ := ih' (off - wordOfSize e.size)
      rw [hset]
      simp only [hrest]
      exact ⟨_, rfl⟩
    · obtain ⟨es', hrest⟩ := ih' off
      simp only [hrest]
      exact ⟨_, rfl⟩

theorem layOut_ok {s : Scope} (h : Unplaced s) (hs : ∀ e ∈ s.storage, e.size ≠ none) (base : Int64) :
    ∃ s', s.layOut base = (.ok (), s') := by
  obtain ⟨es, hes⟩ := placeEntries_ok
    (fun e he hk => ⟨h.2 e he, hs e (List.mem_filter.2 ⟨he, hk⟩)⟩) base
  refine ⟨{ s with base := base, placed := true, entries := es }, ?_⟩
  simp [Scope.layOut, Scope.place, h.1, hes]

theorem exact_layOut {p : Program} {sizes : Sizes} {t : Table} (hx : Exact p sizes t) {id : ScopeId}
    {s s' : Scope} {base : Int64} (hid : id ≠ .global) (hs : t.scope? id = some s)
    (h : s.layOut base = (.ok (), s')) : Exact p sizes (t.setScope id s') := by
  obtain ⟨hl, -, -, -, hent⟩ := Scope.of_layOut h
  have hsize : s'.size = s.size := by
    unfold Scope.layOut Scope.place at h
    split at h
    · cases h
    · rename_i s₁ hs₁
      split at hs₁
      · cases hs₁
      · cases hs₁
        exact (congrArg (fun r => r.2.size) h).symm
  have hbytes : ∀ classes, s'.bytes sizes classes = s.bytes sizes classes :=
    Scope.bytes_of_outline (map_outline_later hl.entries) sizes
  refine hx.setScope (fun e' he' n hn => ?_) (fun i n hi hn => ?_) fun i n hi hn => ?_
  · obtain ⟨e, he, hee, hes⟩ := mem_right hent he'
    obtain ⟨hk, hc⟩ := hx.entries s (mem_of_scope? hs hid) e he n (hes ▸ hn)
    have ho : e'.outline = e.outline := by simp only [Entry.outline, hee.kind, hee.name, hee.type]
    refine ⟨hee.kind ▸ hk, ?_⟩
    simp only [Entry.bytes_of_outline ho]
    exact hc
  · subst hi
    rw [hl.name]
    exact hx.classes s (List.mem_of_getElem? hs) n (hsize ▸ hn)
  · subst hi
    simp only [hbytes]
    exact hx.functions s (List.mem_of_getElem? hs) n (hsize ▸ hn)

/-- A layout on its way from a table, of which everything is sized. A scope that is not placed has
no placed entries. -/
structure Placing (p : Program) (sizes : Sizes) (t : Table) (l : Layout) : Prop where
  later : t.Later l.table
  exact : Exact p sizes l.table
  sized : EntriesSized l.table
  tidy : ∀ s ∈ l.table.classes ++ l.table.functions, s.placed = false → Unplaced s

theorem Placing.layOut {p : Program} {sizes : Sizes} {t : Table} {l : Layout}
    (h : Placing p sizes t l) {id : ScopeId} {s : Scope}
    (hid : id ≠ .global) (hs : l.table.scope? id = some s) (hp : s.placed = false) (base : Int64) :
    ∃ l', (onScope id () fun _ s => s.layOut base).run l = (.ok (), l') ∧ Placing p sizes t l'
      ∧ l'.passes = l.passes ∧ ∀ id', id' ≠ id → l'.table.scope? id' = l.table.scope? id' := by
  have hm := mem_of_scope? hs hid
  obtain ⟨s', hs'⟩ := layOut_ok (h.tidy s hm hp) (h.sized s hm) base
  obtain ⟨hl, hplaced, -⟩ := Scope.of_layOut hs'
  have hlater := Table.Later.of_setScope hs hl
  refine ⟨_, onScope_of_some hs hs', ⟨h.later.trans hlater, exact_layOut h.exact hid hs hs', h.sized.later hlater, ?_⟩, rfl,
    fun id' hne => scope?_setScope_ne hne⟩
  intro x hx hxp
  rcases mem_setScope hx with hx | rfl
  · exact h.tidy x hx hxp
  · rw [hplaced] at hxp
    cases hxp

/-! ### Classes -/

/-- The second class is the first or contained in it, at whatever depth. -/
def Reaches (p : Program) (i k : Nat) : Prop :=
  ∃ c d, p.classes[i]? = some c ∧ p.classes[k]? = some d
    ∧ Relation.ReflTransGen p.Contains c.name d.name

theorem of_classIndex? {t : Table} {name : String} {i : Nat} (h : t.classIndex? name = some i) :
    ∃ s, t.classes[i]? = some s ∧ s.name = name := by
  obtain ⟨hlt, hp, -⟩ := List.findIdx?_eq_some_iff_getElem.1 h
  exact ⟨t.classes[i], List.getElem?_eq_getElem hlt, by simpa using hp⟩

section

variable {p : Program} {sizes : Sizes} {t : Table}

theorem forM_placeClass_ok {f : Nat → Resolving Unit}
    (hf : ∀ i l, Placing p sizes t l → ∃ l', (f i).run l = (.ok (), l') ∧ Placing p sizes t l'
      ∧ l'.passes = l.passes
      ∧ ∀ id, (∀ k, id = .ofClass k → ¬ Reaches p i k) → l'.table.scope? id = l.table.scope? id)
    (is : List Nat) {l : Layout} (h : Placing p sizes t l) :
    ∃ l', (is.forM f).run l = (.ok (), l') ∧ Placing p sizes t l' ∧ l'.passes = l.passes
      ∧ ∀ id, (∀ k, id = .ofClass k → ∀ i ∈ is, ¬ Reaches p i k) →
        l'.table.scope? id = l.table.scope? id := by
  induction is generalizing l with
  | nil => exact ⟨l, rfl, h, rfl, fun _ _ => rfl⟩
  | cons i is ih =>
    obtain ⟨l₁, h1, hp₁, hc₁, hframe₁⟩ := hf i l h
    obtain ⟨l₂, h2, hp₂, hc₂, hframe₂⟩ := ih hp₁
    refine ⟨l₂, run_bind_eq_ok.2 ⟨(), l₁, h1, h2⟩, hp₂, hc₂.trans hc₁, fun id hid => ?_⟩
    rw [hframe₂ id fun k hk j hj => hid k hk j (List.mem_cons_of_mem _ hj),
      hframe₁ id fun k hk => hid k hk i List.mem_cons_self]

/-- A class is laid out unless it was before, and nothing changes but the class and what it
contains. -/
theorem placeClass_ok (hd : Table.Declares p t) (hac : p.Acyclic) (depth i : Nat) (l : Layout)
    (h : Placing p sizes t l) :
    ∃ l', (Layout.placeClass depth i).run l = (.ok (), l') ∧ Placing p sizes t l' ∧ l'.passes = l.passes
      ∧ ∀ id, (∀ k, id = .ofClass k → ¬ Reaches p i k) →
        l'.table.scope? id = l.table.scope? id := by
  induction depth generalizing i l with
  | zero => exact ⟨l, rfl, h, rfl, fun _ _ => rfl⟩
  | succ depth ih =>
    have hdl := hd.later h.later
    cases hs : l.table.classes[i]? with
    | none =>
      refine ⟨l, run_bind_eq_ok.2 ⟨l, l, rfl, ?_⟩, h, rfl, fun _ _ => rfl⟩
      simp only [hs]
      rfl
    | some s =>
      cases hplaced : s.placed with
      | true =>
        refine ⟨l, run_bind_eq_ok.2 ⟨l, l, rfl, ?_⟩, h, rfl, fun _ _ => rfl⟩
        simp only [hs, hplaced, if_true]
        rfl
      | false =>
        obtain ⟨c, hci, hdec⟩ := hdl.scope i s hs
        have hc : c ∈ p.classes := List.mem_of_getElem? hci
        -- each base is contained in the class and does not lead back to it
        have hbase : ∀ j ∈ (l.table.baseNames s).filterMap l.table.classIndex?,
            ∃ d, p.classes[j]? = some d ∧ p.Contains c.name d.name := by
          intro j hj
          obtain ⟨b, hb, hbj⟩ := List.mem_filterMap.1 hj
          obtain ⟨sj, hsj, hname⟩ := of_classIndex? hbj
          obtain ⟨d, hdj, hdecj⟩ := hdl.scope j sj hsj
          refine ⟨d, hdj, c, hc, rfl, .inl ?_⟩
          rw [← hdecj.name, hname, ← hdl.baseNames hc hdec]
          exact hb
        obtain ⟨l₁, h1, hp₁, hc₁, hframe₁⟩ := forM_placeClass_ok ih
          ((l.table.baseNames s).filterMap l.table.classIndex?) h
        have hkeep : l₁.table.scope? (.ofClass i) = some s := by
          rw [hframe₁]
          · exact hs
          · intro k hk j hj hreach
            cases hk
            obtain ⟨d, hdj, hcon⟩ := hbase j hj
            obtain ⟨d', c', hd', hc', hstar⟩ := hreach
            rw [hdj] at hd'
            rw [hci] at hc'
            cases hd'
            cases hc'
            exact hac _ (Relation.TransGen.head' hcon hstar)
        obtain ⟨l₂, h2, hp₂, hc₂, hframe₂⟩ := hp₁.layOut (show ScopeId.ofClass i ≠ .global from nofun) hkeep hplaced
          (l.table.ownBase s)
        refine ⟨({ l₂ with classLayouts := l₂.classLayouts + 1 } : Layout).noted "class layout"
            [("class", .text s.name), ("size", .number (wordOfSize s.size).toInt),
              ("base", .number (l.table.ownBase s).toInt)],
          run_bind_eq_ok.2 ⟨l, l, rfl, ?_⟩, ⟨hp₂.later, hp₂.exact, hp₂.sized, hp₂.tidy⟩, hc₂.trans hc₁,
          fun id hid => ?_⟩
        · simp only [hs, hplaced, Bool.false_eq_true, if_false]
          refine run_bind_eq_ok.2 ⟨(), l₁, h1, run_bind_eq_ok.2 ⟨(), l₂, h2, ?_⟩⟩
          exact run_bind_eq_ok.2 ⟨(), _, rfl, run_report _ _ _⟩
        · have hne : id ≠ .ofClass i := by
            rintro rfl
            exact hid i rfl ⟨c, c, hci, hci, .refl⟩
          refine (hframe₂ id hne).trans (hframe₁ id fun k hk j hj hreach => hid k hk ?_)
          obtain ⟨d, hdj, hcon⟩ := hbase j hj
          obtain ⟨d', e, hd', he, hstar⟩ := hreach
          rw [hdj] at hd'
          cases hd'
          exact ⟨c, e, hci, he, Relation.ReflTransGen.head hcon hstar⟩

/-! ### Functions -/

theorem Placing.placeFunction {i : Nat} {l : Layout} (h : Placing p sizes t l)
    (hopen : ∀ s, l.table.functions[i]? = some s → s.placed = false) :
    ∃ l', (Layout.placeFunction i).run l = (.ok (), l') ∧ Placing p sizes t l' ∧ l'.passes = l.passes
      ∧ ∀ id', id' ≠ .ofFunction i → l'.table.scope? id' = l.table.scope? id' := by
  cases hs : l.table.functions[i]? with
  | none =>
    refine ⟨l, run_bind_eq_ok.2 ⟨(), l, run_onScope_none hs, run_bind_eq_ok.2 ⟨l, l, rfl, ?_⟩⟩, h,
      rfl, fun _ _ => rfl⟩
    rw [hs]
    rfl
  | some s =>
    obtain ⟨l₁, h1, hp₁, hc₁, hframe⟩ := h.layOut (show ScopeId.ofFunction i ≠ .global from nofun) hs
      (hopen s hs) 0
    cases hs₁ : l₁.table.functions[i]? with
    | none =>
      refine ⟨l₁, run_bind_eq_ok.2 ⟨(), l₁, h1, run_bind_eq_ok.2 ⟨l₁, l₁, rfl, ?_⟩⟩, hp₁, hc₁, hframe⟩
      rw [hs₁]
      rfl
    | some s₁ =>
      refine ⟨l₁.noted "frame" [("function", .text s₁.name),
          ("size", .number (wordOfSize s₁.size).toInt), ("entries", .number s₁.storage.length)],
        run_bind_eq_ok.2 ⟨(), l₁, h1, run_bind_eq_ok.2 ⟨l₁, l₁, rfl, ?_⟩⟩,
        ⟨hp₁.later, hp₁.exact, hp₁.sized, hp₁.tidy⟩, hc₁, hframe⟩
      rw [hs₁]
      exact run_report _ _ _

theorem placeFunctions_ok {is : List Nat} (hnodup : is.Nodup) {l : Layout} (h : Placing p sizes t l)
    (hopen : ∀ i ∈ is, ∀ s, l.table.functions[i]? = some s → s.placed = false) :
    ∃ l', (is.forM placeFunction).run l = (.ok (), l') ∧ Placing p sizes t l' ∧ l'.passes = l.passes := by
  induction is generalizing l with
  | nil => exact ⟨l, rfl, h, rfl⟩
  | cons i is ih =>
    obtain ⟨hnotin, hnodup⟩ := List.nodup_cons.1 hnodup
    obtain ⟨l₁, h1, hp₁, hc₁, hframe⟩ := h.placeFunction (hopen i List.mem_cons_self)
    obtain ⟨l₂, h2, hp₂, hc₂⟩ := ih hnodup hp₁ fun j hj s hs => by
      have hne : ScopeId.ofFunction j ≠ .ofFunction i := fun he =>
        hnotin (ScopeId.ofFunction.inj he ▸ hj)
      refine hopen j (List.mem_cons_of_mem _ hj) s ?_
      exact (hframe _ hne).symm.trans hs
    exact ⟨l₂, run_bind_eq_ok.2 ⟨(), l₁, h1, h2⟩, hp₂, hc₂.trans hc₁⟩

theorem placeAll_ok (hd : Table.Declares p t) (hac : p.Acyclic) {l : Layout} (h : Placing p sizes t l)
    (hopen : ∀ s ∈ l.table.functions, s.placed = false) (depth : Nat) (is js : List Nat)
    (hjs : js.Nodup) :
    ∃ l₁ l₂, (is.forM (Layout.placeClass depth)).run l = (.ok (), l₁)
      ∧ (js.forM placeFunction).run l₁ = (.ok (), l₂) ∧ Placing p sizes t l₂
      ∧ l₂.passes = l.passes := by
  obtain ⟨l₁, h1, hp₁, hc₁, hframe⟩ := forM_placeClass_ok (placeClass_ok hd hac depth) is h
  obtain ⟨l₂, h2, hp₂, hc₂⟩ := placeFunctions_ok hjs hp₁ fun j _ s hs => by
    refine hopen s (List.mem_of_getElem? (i := j) ?_)
    exact (hframe (.ofFunction j) nofun).symm.trans hs
  exact ⟨l₁, l₂, h1, h2, hp₂, hc₂.trans hc₁⟩

end

end Layout

end MoonBackend
