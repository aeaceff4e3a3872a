import MoonBackend.Proofs.Layout.Filling

/-!
# What a resolved layout has

Resolving a layout that succeeds has given every storage entry of every scope the size of its type
and a place right below the entry before it, and every frame the sum of its sizes. The proof follows
the steps: each of them only fills in (`Table.Later`) and keeps what `Layout.Sane` says.
-/

namespace MoonBackend

open Layout

/-! ### Steps -/

namespace Layout

variable {α β : Type}

theorem run_bind (x : Resolving α) (f : α → Resolving β) (l : Layout) :
    (x >>= f).run l = match x.run l with
      | (.ok a, l') => (f a).run l'
      | (.error e, l') => (.error e, l') := by
  show (ExceptT.bind x f) l = _
  simp only [ExceptT.bind, ExceptT.mk]
  show (match x l with | (r, l') => (ExceptT.bindCont f r) l') = _
  show _ = match x l with
      | (.ok a, l') => (f a).run l'
      | (.error e, l') => (.error e, l')
  generalize x l = r
  obtain ⟨_ | a, l'⟩ := r
  · rfl
  · rfl

theorem run_get (l : Layout) : (get : Resolving Layout).run l = (.ok l, l) := rfl

theorem run_bind_eq_ok {x : Resolving α} {f : α → Resolving β} {l l' : Layout} {b : β} :
    (x >>= f).run l = (.ok b, l') ↔
      ∃ a l₁, x.run l = (.ok a, l₁) ∧ (f a).run l₁ = (.ok b, l') := by
  rw [run_bind]
  constructor
  · intro h
    split at h
    · rename_i a l₁ hx
      exact ⟨a, l₁, hx, h⟩
    · cases h
  · rintro ⟨a, l₁, hx, hf⟩
    rw [hx]
    exact hf

theorem run_bind_cases {x : Resolving α} {f : α → Resolving β} {l l' : Layout} {r : Except Fault β}
    (h : (x >>= f).run l = (r, l')) :
    (∃ a l₁, x.run l = (.ok a, l₁) ∧ (f a).run l₁ = (r, l'))
      ∨ ∃ e, x.run l = (.error e, l') ∧ r = .error e := by
  rw [run_bind] at h
  split at h
  · rename_i a l₁ hx
    exact .inl ⟨a, l₁, hx, h⟩
  · rename_i e l₁ hx
    cases h
    exact .inr ⟨e, hx, rfl⟩

def scopes (l : Layout) : List Scope := l.table.classes ++ l.table.functions

/-- What holds of a layout at every time: known sizes are right, and placed scopes are tiled. -/
structure Sane (l : Layout) : Prop where
  fair : ∀ s ∈ l.scopes, Scope.Fair l.table l.sizes s.entries
  tiled : ∀ s ∈ l.scopes, s.placed = true → Scope.Tiled s.base s.entries

structure Later (l l' : Layout) : Prop where
  table : l.table.Later l'.table
  sizes : l'.sizes = l.sizes
  entryName : l'.entryName = l.entryName
  sane : l.Sane → l'.Sane

theorem Later.refl (l : Layout) : l.Later l := ⟨.refl _, rfl, rfl, fun h => h⟩

theorem Later.trans {l₁ l₂ l₃ : Layout} (h : l₁.Later l₂) (h' : l₂.Later l₃) : l₁.Later l₃ :=
  ⟨h.table.trans h'.table, h'.sizes.trans h.sizes, h'.entryName.trans h.entryName,
    fun hs => h'.sane (h.sane hs)⟩

def Fills (x : Resolving α) : Prop := ∀ l a l', x.run l = (.ok a, l') → l.Later l'

theorem Fills.pure (a : α) : Fills (pure a : Resolving α) := by
  intro l b l' h
  cases h
  exact .refl l

theorem Fills.bind {x : Resolving α} {f : α → Resolving β} (hx : Fills x) (hf : ∀ a, Fills (f a)) :
    Fills (x >>= f) := by
  intro l b l' h
  obtain ⟨a, l₁, h1, h2⟩ := run_bind_eq_ok.1 h
  exact (hx l a l₁ h1).trans (hf a l₁ b l' h2)

theorem Fills.get : Fills (get : Resolving Layout) := by
  intro l a l' h
  cases h
  exact .refl l

theorem Fills.forM {γ : Type} {f : γ → Resolving Unit} (hf : ∀ c, Fills (f c)) (cs : List γ) :
    Fills (cs.forM f) := by
  induction cs with
  | nil => exact .pure ()
  | cons c cs ih =>
    exact (hf c).bind fun _ => ih

theorem sane_setScope {l : Layout} {id : ScopeId} {s s' : Scope} (hl : l.Sane)
    (ht : l.table.Later (l.table.setScope id s')) (hs : l.table.scope? id = some s)
    (hfair : Scope.Fair l.table l.sizes s.entries → Scope.Fair l.table l.sizes s'.entries)
    (htiled : (s.placed = true → Scope.Tiled s.base s.entries) →
      s'.placed = true → Scope.Tiled s'.base s'.entries) :
    Sane { l with table := l.table.setScope id s' } := by
  have hmem : ∀ x ∈ ({ l with table := l.table.setScope id s' } : Layout).scopes,
      x ∈ l.scopes ∨ (x = s' ∧ s ∈ l.scopes) := by
    intro x hx
    cases id with
    | global => exact .inl hx
    | ofClass i =>
      rcases List.mem_append.1 hx with hx | hx
      · rcases List.mem_or_eq_of_mem_set hx with hx | hx
        · exact .inl (List.mem_append_left _ hx)
        · exact .inr ⟨hx, List.mem_append_left _ (List.mem_of_getElem? hs)⟩
      · exact .inl (List.mem_append_right _ hx)
    | ofFunction i =>
      rcases List.mem_append.1 hx with hx | hx
      · exact .inl (List.mem_append_left _ hx)
      · rcases List.mem_or_eq_of_mem_set hx with hx | hx
        · exact .inl (List.mem_append_right _ hx)
        · exact .inr ⟨hx, List.mem_append_right _ (List.mem_of_getElem? hs)⟩
  constructor
  · intro x hx
    rcases hmem x hx with hx | ⟨rfl, hs⟩
    · exact (hl.fair x hx).later ht
    · exact (hfair (hl.fair s hs)).later ht
  · intro x hx hp
    rcases hmem x hx with hx | ⟨rfl, hs⟩
    · exact hl.tiled x hx hp
    · exact htiled (hl.tiled s hs) hp

theorem onScope_eq_ok {id : ScopeId} {absent a : α} {work : Table → Scope → Except Fault α × Scope}
    {l l' : Layout} (h : (onScope id absent work).run l = (.ok a, l')) :
    (l.table.scope? id = none ∧ a = absent ∧ l' = l)
      ∨ ∃ s s', l.table.scope? id = some s ∧ work l.table s = (.ok a, s')
        ∧ l' = { l with table := l.table.setScope id s' } := by
  unfold onScope at h
  obtain ⟨l₁, l₂, h1, h2⟩ := run_bind_eq_ok.1 h
  cases h1
  cases hs : l.table.scope? id with
  | none =>
    rw [hs] at h2
    cases h2
    exact .inl ⟨rfl, rfl, rfl⟩
  | some s =>
    rw [hs] at h2
    rcases hw : work l.table s with ⟨r, s'⟩
    simp only [hw] at h2
    obtain ⟨u, l₂, h3, h4⟩ := run_bind_eq_ok.1 h2
    cases h3
    cases h4
    exact .inr ⟨s, s', rfl, hw, rfl⟩

theorem run_onScope {id : ScopeId} {absent : α} {work : Table → Scope → Except Fault α × Scope}
    {l : Layout} {s : Scope} (hs : l.table.scope? id = some s) :
    (onScope id absent work).run l
      = ((work l.table s).1, { l with table := l.table.setScope id (work l.table s).2 }) := by
  unfold onScope
  simp only [run_bind, run_get, hs]
  cases work l.table s
  rfl

theorem run_onScope_none {id : ScopeId} {absent : α}
    {work : Table → Scope → Except Fault α × Scope} {l : Layout} (hs : l.table.scope? id = none) :
    (onScope id absent work).run l = (.ok absent, l) := by
  unfold onScope
  simp only [run_bind, run_get, hs]
  rfl

theorem Fills.onScope {id : ScopeId} {absent : α} {work : Table → Scope → Except Fault α × Scope}
    (hw : ∀ t s a s', work t s = (.ok a, s') → s.Later s'
      ∧ (∀ sizes, Scope.Fair t sizes s.entries → Scope.Fair t sizes s'.entries)
      ∧ ((s.placed = true → Scope.Tiled s.base s.entries) →
        s'.placed = true → Scope.Tiled s'.base s'.entries)) :
    Fills (onScope id absent work) := by
  intro l a l' h
  rcases onScope_eq_ok h with ⟨-, -, rfl⟩ | ⟨s, s', hs, hwork, rfl⟩
  · exact .refl l'
  · obtain ⟨h1, h2, h3⟩ := hw _ _ _ _ hwork
    have ht := Table.Later.of_setScope hs h1
    exact ⟨ht, rfl, rfl, fun hl => sane_setScope hl ht hs (h2 _) h3⟩

theorem Fills.report (message : String) (attributes : List (String × LogValue)) :
    Fills (report message attributes) := by
  intro l a l' h
  cases h
  exact ⟨.refl _, rfl, rfl, fun hs => ⟨hs.fair, hs.tiled⟩⟩

theorem scope?_setScope {t : Table} {id : ScopeId} {s s' : Scope} (hs : t.scope? id = some s) :
    (t.setScope id s').scope? id = some s' := by
  cases id with
  | global => rfl
  | ofClass i =>
    have hlt := (List.getElem?_eq_some_iff.1 hs).1
    exact List.getElem?_set_self hlt
  | ofFunction i =>
    have hlt := (List.getElem?_eq_some_iff.1 hs).1
    exact List.getElem?_set_self hlt

def Done (l : Layout) (id : ScopeId) : Prop :=
  ∀ s, l.table.scope? id = some s → ∃ below own, Scope.Finished l.table s below own

theorem Done.later {l l' : Layout} {id : ScopeId} (h : l.Done id) (hl : l.Later l') :
    l'.Done id := by
  intro s' hs'
  have hr := hl.table.scope? id
  cases hs : l.table.scope? id with
  | none =>
    rw [hs] at hr
    rw [of_rel_none hr] at hs'
    cases hs'
  | some s =>
    rw [hs] at hr
    obtain ⟨s₁, hs₁, hlater⟩ := of_rel_some hr
    rw [hs₁] at hs'
    cases hs'
    obtain ⟨below, own, hf⟩ := h s hs
    exact ⟨below, own, hf.later hl.table hlater⟩

theorem later_of_sizeScope {id : ScopeId} {l l' : Layout} {finished : Bool}
    (h : (onScope id true fun t s => t.sizeScope l.sizes s).run l = (.ok finished, l')) :
    l.Later l' := by
  rcases onScope_eq_ok h with ⟨-, -, rfl⟩ | ⟨s, s', hs, hwork, rfl⟩
  · exact .refl l'
  · obtain ⟨h1, h2, h3, -⟩ := Table.of_sizeScope hwork
    have ht := Table.Later.of_setScope hs h1
    refine ⟨ht, rfl, rfl, fun hl => sane_setScope hl ht hs h2 fun hold hp => ?_⟩
    rw [h3] at hp
    obtain ⟨-, hbase⟩ := h1.placed hp
    rw [hbase]
    exact (hold hp).later h1.entries

theorem of_sizePending {ids rest : List ScopeId} {l l' : Layout}
    (h : (sizePending ids).run l = (.ok rest, l')) :
    l.Later l' ∧ ∀ id ∈ ids, id ∈ rest ∨ l'.Done id := by
  induction ids generalizing l rest with
  | nil =>
    cases h
    exact ⟨.refl _, fun _ hid => by cases hid⟩
  | cons id ids ih =>
    unfold sizePending at h
    obtain ⟨l₀, l₁, h0, h⟩ := run_bind_eq_ok.1 h
    cases h0
    obtain ⟨finished, l₁, h1, h⟩ := run_bind_eq_ok.1 h
    obtain ⟨more, l₂, h2, h⟩ := run_bind_eq_ok.1 h
    cases h
    have hfirst := later_of_sizeScope h1
    obtain ⟨hlater, hrest⟩ := ih h2
    refine ⟨hfirst.trans hlater, fun id' hid' => ?_⟩
    have hdone : finished = true → l₁.Done id := by
      intro hf s' hs'
      rcases onScope_eq_ok h1 with ⟨hnone, -, rfl⟩ | ⟨s, s₁, hs, hwork, rfl⟩
      · rw [hnone] at hs'
        cases hs'
      · have he : s' = s₁ := Option.some.inj (hs'.symm.trans (scope?_setScope hs))
        subst he
        obtain ⟨hl, -, -, hfin⟩ := Table.of_sizeScope hwork
        obtain ⟨below, own, hfin⟩ := hfin hf
        exact ⟨below, own, hfin.later (Table.Later.of_setScope hs hl) (.refl _)⟩
    rcases List.mem_cons.1 hid' with rfl | hmem
    · cases hf : finished with
      | true => exact .inr ((hdone hf).later hlater)
      | false => exact .inl List.mem_cons_self
    · rcases hrest id' hmem with hin | hdone'
      · refine .inl ?_
        split
        · exact hin
        · exact List.mem_cons_of_mem _ hin
      · exact .inr hdone'

theorem of_sizeAll (n : Nat) : ∀ {pending : List ScopeId} {l l' : Layout}, pending.length ≤ n →
    (sizeAll pending).run l = (.ok (), l') → l.Later l' ∧ ∀ id ∈ pending, l'.Done id := by
  induction n with
  | zero =>
    intro pending l l' hn h
    have hp : pending = [] := List.length_eq_zero_iff.1 (Nat.le_zero.1 hn)
    subst hp
    rw [sizeAll] at h
    cases h
    exact ⟨.refl _, fun _ hid => by cases hid⟩
  | succ n ih =>
    intro pending l l' hn h
    rw [sizeAll] at h
    cases pending with
    | nil =>
      cases h
      exact ⟨.refl l, fun _ hid => by cases hid⟩
    | cons id ids =>
      obtain ⟨u, l₁, h1, h⟩ := run_bind_eq_ok.1 h
      cases h1
      obtain ⟨next, l₂, h2, h⟩ := run_bind_eq_ok.1 h
      obtain ⟨l₃, l₃, h3, h⟩ := run_bind_eq_ok.1 h
      cases h3
      obtain ⟨u, l₄, h4, h⟩ := run_bind_eq_ok.1 h
      obtain ⟨hlater, hdone⟩ := of_sizePending h2
      have hstart : l.Later { l with passes := l.passes + 1 } :=
        ⟨.refl _, rfl, rfl, fun hs => ⟨hs.fair, hs.tiled⟩⟩
      have hreport := Fills.report _ _ _ _ _ h4
      split at h
      · rename_i hlt
        obtain ⟨hrest, hdone'⟩ := ih (by simp only [List.length_cons] at hlt hn; omega) h
        refine ⟨((hstart.trans hlater).trans hreport).trans hrest, fun id' hid' => ?_⟩
        rcases hdone id' hid' with hin | hd
        · exact hdone' id' hin
        · exact (hd.later hreport).later hrest
      · cases h

/-! ### Placement -/

theorem Fills.layOut (id : ScopeId) (base : Int64) :
    Fills (Layout.onScope id () fun _ s => s.layOut base) := by
  refine Fills.onScope fun t s u s' h => ?_
  cases u
  obtain ⟨h1, -, h3, h4, h5⟩ := Scope.of_layOut h
  refine ⟨h1, fun sizes hf e' he' n hn => ?_, fun _ _ => by rw [h3]; exact h4⟩
  obtain ⟨e, he, hlater, hsize⟩ := mem_right h5 he'
  obtain ⟨h0, hn'⟩ := hf e he n (hsize ▸ hn)
  exact ⟨h0, (Table.Later.refl t).entrySize hlater hn'⟩

/-- The scope is placed, from its base downwards. -/
def Placed (l : Layout) (id : ScopeId) (base : Option Int64) : Prop :=
  ∀ s, l.table.scope? id = some s → s.placed = true ∧ ∀ b, base = some b → s.base = b

theorem Placed.later {l l' : Layout} {id : ScopeId} {base : Option Int64} (h : l.Placed id base)
    (hl : l.Later l') : l'.Placed id base := by
  intro s' hs'
  have hr := hl.table.scope? id
  cases hs : l.table.scope? id with
  | none =>
    rw [hs] at hr
    rw [of_rel_none hr] at hs'
    cases hs'
  | some s =>
    rw [hs] at hr
    obtain ⟨s₁, hs₁, hlater⟩ := of_rel_some hr
    rw [hs₁] at hs'
    cases hs'
    obtain ⟨hp, hb⟩ := h s hs
    obtain ⟨hp', hb'⟩ := hlater.placed hp
    exact ⟨hp', fun b he => hb'.trans (hb b he)⟩

theorem placed_of_layOut {id : ScopeId} {base : Int64} {l l' : Layout}
    (h : (onScope id () fun _ s => s.layOut base).run l = (.ok (), l')) :
    l'.Placed id (some base) := by
  intro s' hs'
  rcases onScope_eq_ok h with ⟨hnone, -, rfl⟩ | ⟨s, s₁, hs, hwork, rfl⟩
  · rw [hnone] at hs'
    cases hs'
  · have he : s' = s₁ := Option.some.inj (hs'.symm.trans (scope?_setScope hs))
    subst he
    obtain ⟨-, h2, h3, -⟩ := Scope.of_layOut hwork
    exact ⟨h2, fun b hb => h3.trans (Option.some.inj hb)⟩

theorem later_of_counts {l : Layout} {passes layouts : Nat} {log : List LogRecord} {done : Bool} :
    l.Later { l with passes := passes, classLayouts := layouts, log := log, resolved := done } :=
  ⟨.refl _, rfl, rfl, fun hs => ⟨hs.fair, hs.tiled⟩⟩

theorem Fills.placeClass (depth i : Nat) : Fills (placeClass depth i) := by
  induction depth generalizing i with
  | zero => exact .pure ()
  | succ depth ih =>
    unfold Layout.placeClass
    refine Fills.get.bind fun l => ?_
    simp only
    split
    · exact .pure ()
    · split
      · exact .pure ()
      · refine (Fills.forM ih _).bind fun _ => ?_
        refine (Fills.layOut _ _).bind fun _ => ?_
        refine Fills.bind ?_ fun _ => Fills.report _ _
        intro l a l' h
        cases h
        exact later_of_counts

theorem of_placeClass {depth i : Nat} {l l' : Layout}
    (h : (Layout.placeClass (depth + 1) i).run l = (.ok (), l')) :
    l'.Placed (.ofClass i) none := by
  unfold Layout.placeClass at h
  obtain ⟨l₀, l₁, h0, h⟩ := run_bind_eq_ok.1 h
  cases h0
  simp only at h
  cases hs : l.table.classes[i]? with
  | none =>
    rw [hs] at h
    cases h
    intro s hs'
    exact absurd (hs.symm.trans hs') (by simp)
  | some s =>
    rw [hs] at h
    simp only at h
    split at h
    · rename_i hp
      cases h
      intro s' hs'
      have he : s' = s := Option.some.inj (hs'.symm.trans hs)
      exact ⟨he ▸ hp, fun _ hb => by cases hb⟩
    · obtain ⟨u, l₁, h1, h⟩ := run_bind_eq_ok.1 h
      obtain ⟨u, l₂, h2, h⟩ := run_bind_eq_ok.1 h
      obtain ⟨u, l₃, h3, h⟩ := run_bind_eq_ok.1 h
      cases h3
      have hplaced := ((placed_of_layOut h2).later later_of_counts).later (Fills.report _ _ _ _ _ h)
      intro s' hs'
      exact ⟨(hplaced s' hs').1, fun _ hb => by cases hb⟩

theorem of_placeFunction {i : Nat} {l l' : Layout}
    (h : (placeFunction i).run l = (.ok (), l')) :
    l.Later l' ∧ l'.Placed (.ofFunction i) (some 0) := by
  unfold placeFunction at h
  obtain ⟨u, l₁, h1, h⟩ := run_bind_eq_ok.1 h
  obtain ⟨l₂, l₂, h2, h⟩ := run_bind_eq_ok.1 h
  cases h2
  have hfirst := Fills.layOut _ _ _ _ _ h1
  have hplaced := placed_of_layOut h1
  split at h
  · cases h
    exact ⟨hfirst, hplaced⟩
  · have hr := Fills.report _ _ _ _ _ h
    exact ⟨hfirst.trans hr, hplaced.later hr⟩

/-- A property that each of some steps establishes and that stays holds for all of them in the
end. -/
theorem of_forM {f : Nat → Resolving Unit} {P : Layout → Nat → Prop} (hf : ∀ i, Fills (f i))
    (hp : ∀ i l l', (f i).run l = (.ok (), l') → P l' i)
    (hstay : ∀ i l l', P l i → l.Later l' → P l' i) {is : List Nat} {l l' : Layout}
    (h : (is.forM f).run l = (.ok (), l')) : l.Later l' ∧ ∀ i ∈ is, P l' i := by
  refine ⟨Fills.forM hf is l () l' h, ?_⟩
  induction is generalizing l with
  | nil => exact fun _ hi => by cases hi
  | cons j is ih =>
    obtain ⟨u, l₁, h1, h2⟩ := run_bind_eq_ok.1 (show (f j >>= fun _ => is.forM f).run l = _ from h)
    intro i hi
    rcases List.mem_cons.1 hi with rfl | hi
    · exact hstay i l₁ l' (hp i l l₁ h1) (Fills.forM hf is l₁ () l' h2)
    · exact ih h2 i hi

/-! ### Supplying the unnamed slots -/

def demanded (d : Demand) : Entry := .backed d.kind d.type (some d.node)

theorem of_supply {ds : List Demand} {s s' : Scope} (h : supply ds s = (.ok (), s')) :
    s' = { s with entries := s.entries ++ ds.map demanded } := by
  induction ds generalizing s with
  | nil =>
    cases h
    simp
  | cons d ds ih =>
    unfold supply at h
    split at h
    · cases h
    · rename_i s₁ hs₁
      have hadd := Scope.entries_add hs₁
      rw [ih h, hadd]
      simp [demanded]

def withSlots (t : Table) (entryName : String) (i : Nat) (s : Scope) : Scope :=
  { s with entries := s.entries ++ match t.program.functions[i]? with
    | some f => (Demand.ofFunction t entryName i f).map demanded
    | none => [] }

def suppliedTo (t : Table) (entryName : String) (k : Nat) : Table :=
  { t with functions := t.functions.mapIdx fun i s =>
      if i < k then withSlots t entryName i s else s }

/-- The table with the unnamed slots of all functions. -/
def supplied (t : Table) (entryName : String) : Table :=
  { t with functions := t.functions.mapIdx (withSlots t entryName) }

/-- What a bare name stands for hangs on the classes and the scope of its own function only. -/
theorem resolveName_congr {t t' : Table} {i : Nat} (hc : t'.classes = t.classes)
    (hf : t'.functions[i]? = t.functions[i]?) (name : String) :
    t'.resolveName i name = t.resolveName i name := by
  have hmember : ∀ (depth : Nat) (cls : String),
      t'.memberFrom depth cls name = t.memberFrom depth cls name := by
    intro depth
    induction depth with
    | zero => exact fun _ => rfl
    | succ depth ih =>
      intro cls
      have hbase : ∀ s, t'.baseNames s = t.baseNames s := by
        intro s
        unfold Table.baseNames Table.class?
        rw [hc]
      simp only [Table.memberFrom, Table.classIndex?, hc, hbase, ih]
  unfold Table.resolveName Table.member? Table.depth
  rw [hf, hc]
  simp only [hmember]

theorem suppliedTo_succ {t : Table} {entryName : String} {k : Nat} (fs : List Scope)
    (hk : ∀ s, t.functions[k]? = some s → fs[k]? = some (withSlots t entryName k s))
    (hlen : fs.length = t.functions.length)
    (hne : ∀ i, i ≠ k → fs[i]? = (suppliedTo t entryName k).functions[i]?) :
    { suppliedTo t entryName k with functions := fs } = suppliedTo t entryName (k + 1) := by
  have hfs : fs = (suppliedTo t entryName (k + 1)).functions := by
    apply List.ext_getElem?
    intro i
    simp only [suppliedTo, List.getElem?_mapIdx]
    by_cases hi : i = k
    · subst hi
      cases hs : t.functions[i]? with
      | none =>
        have hle : t.functions.length ≤ i := List.getElem?_eq_none_iff.1 hs
        rw [List.getElem?_eq_none (by omega)]
        rfl
      | some s =>
        rw [hk s hs]
        simp
    · rw [hne i hi]
      simp only [suppliedTo, List.getElem?_mapIdx]
      have hlt : i < k + 1 ↔ i < k := by omega
      simp only [hlt]
  rw [hfs]
  rfl

theorem of_supplyFunction {t : Table} {k : Nat} {l l' : Layout}
    (ht : l.table = suppliedTo t l.entryName k) (h : (supplyFunction k).run l = (.ok (), l')) :
    l' = { l with table := suppliedTo t l.entryName (k + 1) } := by
  have hsame : ∀ i, i ≠ k → (suppliedTo t l.entryName k).functions[i]?
      = (suppliedTo t l.entryName k).functions[i]? := fun _ _ => rfl
  have hat : (suppliedTo t l.entryName k).functions[k]? = t.functions[k]? := by
    simp [suppliedTo, List.getElem?_mapIdx]
  have hlen : (suppliedTo t l.entryName k).functions.length = t.functions.length := by
    simp [suppliedTo]
  unfold supplyFunction at h
  obtain ⟨l₀, l₁, h0, h⟩ := run_bind_eq_ok.1 h
  cases h0
  have hprog : l.table.program = t.program := by rw [ht]; rfl
  cases hf : t.program.functions[k]? with
  | none =>
    rw [hprog, hf] at h
    cases h
    rw [← suppliedTo_succ _ (fun s hs => ?_) hlen hsame]
    · rw [← ht]
    · rw [hat, hs, withSlots, hf]
      simp
  | some f =>
    rw [hprog, hf] at h
    simp only at h
    rcases onScope_eq_ok h with ⟨hnone, -, rfl⟩ | ⟨s, s', hs, hwork, rfl⟩
    · rw [ht] at hnone
      have hnone' : t.functions[k]? = none := hat.symm.trans hnone
      rw [← suppliedTo_succ _ (fun s hs => ?_) hlen hsame]
      · rw [← ht]
      · rw [hnone'] at hs
        cases hs
    · have hs' := of_supply hwork
      rw [ht] at hs
      have hs0 : t.functions[k]? = some s := hat.symm.trans hs
      have hdem : Demand.ofFunction l.table l.entryName k f
          = Demand.ofFunction t l.entryName k f := by
        unfold Demand.ofFunction
        have hres : ∀ name, l.table.resolveName k name = t.resolveName k name := by
          refine resolveName_congr ?_ ?_
          · rw [ht]
            rfl
          · rw [ht]
            exact hat
        simp only [hres]
      have hslots : s' = withSlots t l.entryName k s := by
        rw [hs', hdem, withSlots, hf]
      have hlt := (List.getElem?_eq_some_iff.1 hs).1
      rw [← suppliedTo_succ ((suppliedTo t l.entryName k).functions.set k s') (fun x hx => ?_)
        (by simp [suppliedTo]) (fun i hi => List.getElem?_set_ne (Ne.symm hi))]
      · rw [ht]
        rfl
      · rw [List.getElem?_set_self hlt, hslots]
        rw [hs0] at hx
        cases hx
        rfl

theorem of_supplyAll {t : Table} {m k : Nat} {l l' : Layout}
    (ht : l.table = suppliedTo t l.entryName k)
    (h : ((List.range' k m).forM supplyFunction).run l = (.ok (), l')) :
    l' = { l with table := suppliedTo t l.entryName (k + m) } := by
  induction m generalizing k l with
  | zero =>
    cases h
    rw [Nat.add_zero, ← ht]
  | succ m ih =>
    rw [List.range'_succ] at h
    obtain ⟨u, l₁, h1, h2⟩ := run_bind_eq_ok.1
      (show (supplyFunction k >>= fun _ => (List.range' (k + 1) m).forM supplyFunction).run l = _
        from h)
    have hl₁ := of_supplyFunction ht h1
    subst hl₁
    have hl' := ih rfl h2
    rw [hl']
    simp only
    rw [show k + 1 + m = k + (m + 1) by omega]

/-! ### The whole resolution -/

structure Fresh (t : Table) : Prop where
  entries : ∀ s ∈ t.classes ++ t.functions, ∀ e ∈ s.entries, e.size = none ∧ e.offset = none
  placed : ∀ s ∈ t.classes ++ t.functions, s.placed = false

/-- Everything is sized and placed. -/
structure Settled (l : Layout) : Prop where
  sane : l.Sane
  done : ∀ id ∈ sizedScopes l.table, l.Done id
  classes : ∀ i < l.table.classes.length, l.Placed (.ofClass i) none
  functions : ∀ i < l.table.functions.length, l.Placed (.ofFunction i) (some 0)

theorem Fresh.supplied {t : Table} (h : Fresh t) (entryName : String) :
    Fresh (Layout.supplied t entryName) := by
  have hmem : ∀ s ∈ (Layout.supplied t entryName).classes
      ++ (Layout.supplied t entryName).functions,
      (∀ e ∈ s.entries, e.size = none ∧ e.offset = none) ∧ s.placed = false := by
    intro s hs
    rcases List.mem_append.1 hs with hs | hs
    · have hm : s ∈ t.classes ++ t.functions := List.mem_append_left _ hs
      exact ⟨h.entries s hm, h.placed s hm⟩
    · obtain ⟨i, hi, rfl⟩ := List.mem_mapIdx.1 hs
      have hm : t.functions[i] ∈ t.classes ++ t.functions :=
        List.mem_append_right _ (List.getElem_mem hi)
      have hp : (withSlots t entryName i t.functions[i]).placed = t.functions[i].placed := rfl
      refine ⟨fun e he => ?_, hp.trans (h.placed _ hm)⟩
      rcases List.mem_append.1 he with he | he
      · exact h.entries _ hm e he
      · split at he
        · obtain ⟨d, -, rfl⟩ := List.mem_map.1 he
          exact ⟨rfl, rfl⟩
        · cases he
  exact ⟨fun s hs => (hmem s hs).1, fun s hs => (hmem s hs).2⟩

theorem sane_supplied {t : Table} {l : Layout} (h : Fresh t)
    (hl : l.table = supplied t l.entryName) : l.Sane := by
  have hf : Fresh l.table := hl ▸ h.supplied l.entryName
  constructor
  · intro s hs e he n hn
    rw [(hf.entries s hs e he).1] at hn
    cases hn
  · intro s hs hp
    rw [hf.placed s hs] at hp
    cases hp

theorem suppliedTo_length (t : Table) (entryName : String) :
    suppliedTo t entryName t.functions.length = supplied t entryName := by
  unfold suppliedTo supplied
  congr 1
  apply List.ext_getElem?
  intro i
  simp only [List.getElem?_mapIdx]
  cases hs : t.functions[i]? with
  | none => rfl
  | some s =>
    have hi := (List.getElem?_eq_some_iff.1 hs).1
    simp [hi]

theorem resolve_eq_ok {t : Table} {c : Config} {l' : Layout} :
    (Layout.ofTable t c).resolve = (.ok (), l') ↔
      ∃ l₁ l₂ l₃ l₄,
        ((List.range t.functions.length).forM supplyFunction).run (ofTable t c) = (.ok (), l₁)
        ∧ (sizeAll (sizedScopes t)).run l₁ = (.ok (), l₂)
        ∧ ((List.range t.classes.length).forM (Layout.placeClass t.depth)).run l₂ = (.ok (), l₃)
        ∧ ((List.range t.functions.length).forM placeFunction).run l₃ = (.ok (), l₄)
        ∧ l' = { l₄ with resolved := true } := by
  unfold resolve resolveSteps
  constructor
  · intro h
    obtain ⟨l₀, l₁, h0, h⟩ := run_bind_eq_ok.1 h
    cases h0
    obtain ⟨u, l₁, h1, h⟩ := run_bind_eq_ok.1 h
    obtain ⟨u, l₂, h2, h⟩ := run_bind_eq_ok.1 h
    obtain ⟨u, l₃, h3, h⟩ := run_bind_eq_ok.1 h
    obtain ⟨u, l₄, h4, h⟩ := run_bind_eq_ok.1 h
    cases h
    exact ⟨l₁, l₂, l₃, l₄, h1, h2, h3, h4, rfl⟩
  · rintro ⟨l₁, l₂, l₃, l₄, h1, h2, h3, h4, rfl⟩
    refine run_bind_eq_ok.2 ⟨ofTable t c, ofTable t c, rfl, ?_⟩
    refine run_bind_eq_ok.2 ⟨(), l₁, h1, run_bind_eq_ok.2 ⟨(), l₂, h2, ?_⟩⟩
    exact run_bind_eq_ok.2 ⟨(), l₃, h3, run_bind_eq_ok.2 ⟨(), l₄, h4, rfl⟩⟩

/-- A layout that was resolved without a fault has everything sized and placed, and is otherwise
the table that it started from with the unnamed slots added. -/
theorem of_resolve {t : Table} {c : Config} {l' : Layout} (hfresh : Fresh t)
    (h : (Layout.ofTable t c).resolve = (.ok (), l')) :
    (supplied t c.emit.entryFunction).Later l'.table ∧ l'.sizes = c.sizes
      ∧ l'.entryName = c.emit.entryFunction ∧ l'.Settled := by
  obtain ⟨l₁, l₂, l₃, l₄, h1, h2, h3, h4, rfl⟩ := resolve_eq_ok.1 h
  have hzero : suppliedTo t c.emit.entryFunction 0 = t := by
    have hf : (t.functions.mapIdx fun i s =>
        if i < 0 then withSlots t c.emit.entryFunction i s else s) = t.functions := by
      rw [List.mapIdx_eq_iff]
      intro i
      simp
    unfold suppliedTo
    rw [hf]
  have hl₁ := of_supplyAll (t := t) (k := 0) (l := ofTable t c) hzero.symm
    (by rw [← List.range_eq_range']; exact h1)
  rw [Nat.zero_add, suppliedTo_length] at hl₁
  have hsane : l₁.Sane := sane_supplied hfresh (by rw [hl₁])
  obtain ⟨later₂, done₂⟩ := of_sizeAll _ (Nat.le_refl _) h2
  obtain ⟨later₃, classes₃⟩ := of_forM (P := fun l i => l.Placed (.ofClass i) none)
    (Fills.placeClass _) (fun i l l' hp => of_placeClass hp) (fun i l l' hp hl => hp.later hl) h3
  obtain ⟨later₄, functions₄⟩ := of_forM (P := fun l i => l.Placed (.ofFunction i) (some 0))
    (fun i l u l' hp => (of_placeFunction hp).1) (fun i l l' hp => (of_placeFunction hp).2)
    (fun i l l' hp hl => hp.later hl) h4
  have later₁ : l₁.Later l₄ := (later₂.trans later₃).trans later₄
  have last : l₄.Later { l₄ with resolved := true } := later_of_counts
  have htable : l₁.table = supplied t c.emit.entryFunction := by rw [hl₁]; rfl
  refine ⟨htable ▸ later₁.table, ?_, ?_, ?_⟩
  · rw [later₁.sizes, hl₁]
    rfl
  · rw [later₁.entryName, hl₁]
    rfl
  · have hcl : l₄.table.classes.length = t.classes.length := by
      rw [← later₁.table.classes.length_eq, htable]
      rfl
    have hfl : l₄.table.functions.length = t.functions.length := by
      rw [← later₁.table.functions.length_eq, htable]
      simp [supplied]
    constructor
    · exact last.sane (later₁.sane hsane)
    · intro id hid
      refine (((done₂ id ?_).later later₃).later later₄).later last
      simp only [sizedScopes, hcl, hfl] at hid ⊢
      exact hid
    · intro i hi
      exact ((classes₃ i (List.mem_range.2 (hcl ▸ hi))).later later₄).later last
    · intro i hi
      exact (functions₄ i (List.mem_range.2 (hfl ▸ hi))).later last

end Layout

end MoonBackend
