import Mathlib.Data.List.Chain
import Mathlib.Data.Set.Lattice
import MoonBackend.Proofs.Layout.Frames

/-!
# Scopes without gaps

In a resolved layout the storage of every class and every function stands in the order in which it
was created, each entry right below the one before it, and takes every byte from the base of its
scope down to the last one exactly once. Markers are never placed, and every class is laid out once,
however often it is inherited.
-/

namespace MoonBackend

open Layout

namespace Entry

def range (e : Entry) : Set ℤ := span (e.offset.getD 0) e.size

/-- The second entry starts right where the first ends. -/
def Follows (e e' : Entry) : Prop :=
  ∃ o n o', e.offset = some o ∧ e.size = some n ∧ e'.offset = some o'
    ∧ o'.toInt = o.toInt - n.toInt

end Entry

namespace Scope

/-- What takes no space has no offset. -/
def MarkersOpen (s : Scope) : Prop := ∀ e ∈ s.entries, e.kind.isStorage = false → e.offset = none

/-- The storage of the scope takes the bytes below its base, each exactly once. -/
structure Tiling (s : Scope) : Prop where
  placed : ∀ e ∈ s.storage, e.offset ≠ none ∧ e.size ≠ none
  markers : s.MarkersOpen
  first : ∀ e ∈ s.storage.head?, e.offset = some s.base
  next : s.storage.IsChain Entry.Follows
  apart : s.storage.Pairwise fun e e' => Disjoint e.range e'.range
  cover : (⋃ e ∈ s.storage, e.range) = Set.Ioc (s.base.toInt - bytesIn s.entries) s.base.toInt

/-! ### From one entry to the next -/

theorem chain_of_tiled {es : List Entry} {off : Int64} (ht : Tiled off es)
    (hn : ∀ e ∈ es, e.kind.isStorage = true → 0 ≤ bytesOf e.size)
    (hlow : -2 ^ 63 ≤ off.toInt - bytesIn es) :
    (∀ e ∈ (es.filter (·.kind.isStorage)).head?, e.offset = some off)
      ∧ (es.filter (·.kind.isStorage)).IsChain Entry.Follows
      ∧ (⋃ e ∈ es.filter (·.kind.isStorage), e.range)
        = Set.Ioc (off.toInt - bytesIn es) off.toInt := by
  induction es generalizing off with
  | nil =>
    have hnone : bytesIn [] = 0 := rfl
    refine ⟨fun x hx => ?_, .nil, ?_⟩
    · cases hx
    · rw [hnone, Int.sub_zero, Set.Ioc_self]
      simp
  | cons e es ih =>
    unfold Tiled at ht
    have hrest : ∀ e ∈ es, e.kind.isStorage = true → 0 ≤ bytesOf e.size :=
      fun x hx => hn x (List.mem_cons_of_mem _ hx)
    by_cases hk : e.kind.isStorage = true
    · rw [if_pos hk] at ht
      obtain ⟨ho, hsize, ht⟩ := ht
      obtain ⟨n, hsize⟩ := Option.isSome_iff_exists.1 hsize
      have he := hn e List.mem_cons_self hk
      have hsum := bytesIn_nonneg hrest
      have hbytes : bytesOf e.size = n.toInt := by rw [hsize]; rfl
      rw [bytesIn_cons_of_pos hk] at hlow ⊢
      rw [List.filter_cons, if_pos hk]
      have hnext : (off - wordOfSize e.size).toInt = off.toInt - bytesOf e.size :=
        toInt_sub_of_le he (by unfold bytesOf at *; omega)
      obtain ⟨hhead, hchain, hcover⟩ := ih ht hrest (by omega)
      refine ⟨fun x hx => ?_, List.isChain_cons.2 ⟨fun x hx => ?_, hchain⟩, ?_⟩
      · cases hx
        exact ho
      · exact ⟨off, n, _, ho, hsize, hhead x hx, by rw [hnext, hbytes]⟩
      · have hrange : e.range = Set.Ioc (off.toInt - bytesOf e.size) off.toInt := by
          rw [Entry.range, ho]
          rfl
        simp only [List.mem_cons, Set.iUnion_iUnion_eq_or_left]
        rw [hcover, hrange, hnext, Set.union_comm, Set.Ioc_union_Ioc_eq_Ioc (by omega) (by omega),
          Int.sub_sub]
    · rw [if_neg hk] at ht
      rw [bytesIn_cons_of_neg hk] at hlow ⊢
      rw [List.filter_cons, if_neg hk]
      exact ih ht hrest hlow

theorem tiling_of_tiled {s : Scope} (ht : Tiled s.base s.entries) (hm : s.MarkersOpen)
    (hsized : ∀ e ∈ s.storage, e.size ≠ none)
    (hn : ∀ e ∈ s.entries, e.kind.isStorage = true → 0 ≤ bytesOf e.size)
    (hlow : -2 ^ 63 ≤ s.base.toInt - bytesIn s.entries) : s.Tiling := by
  have hplaced : ∀ e ∈ s.storage, e.offset ≠ none ∧ e.size ≠ none := by
    intro e he
    obtain ⟨hmem, hk⟩ := List.mem_filter.1 he
    exact ⟨offset_of_tiled ht hmem hk, hsized e he⟩
  obtain ⟨hfirst, hnext, hcover⟩ := chain_of_tiled ht hn hlow
  obtain ⟨-, hbelow⟩ := tiled_bounds ht hn hlow
  refine ⟨hplaced, hm, hfirst, hnext, hbelow.imp_of_mem fun {e e'} he he' hb => ?_, hcover⟩
  obtain ⟨o, ho⟩ := Option.ne_none_iff_exists'.1 (hplaced e he).1
  obtain ⟨o', ho'⟩ := Option.ne_none_iff_exists'.1 (hplaced e' he').1
  have hle := hb o o' ho ho'
  rw [Entry.range, Entry.range, ho, ho']
  exact (Set.Ioc_disjoint_Ioc_of_le hle).symm

end Scope

/-! ### Markers stay open and classes are counted -/

namespace Layout

variable {α β : Type} {P : Layout → Prop}

/-- Where the step succeeds it leaves the property as it was. -/
def Preserves (P : Layout → Prop) (x : Resolving α) : Prop :=
  ∀ l a l', P l → x.run l = (.ok a, l') → P l'

namespace Preserves

theorem pure (a : α) : Preserves P (pure a : Resolving α) := by
  intro l b l' hp h
  cases h
  exact hp

theorem bind {x : Resolving α} {f : α → Resolving β} (hx : Preserves P x)
    (hf : ∀ a, Preserves P (f a)) : Preserves P (x >>= f) := by
  intro l b l' hp h
  obtain ⟨a, l₁, h1, h2⟩ := run_bind_eq_ok.1 h
  exact hf a l₁ b l' (hx l a l₁ hp h1) h2

theorem get : Preserves P (get : Resolving Layout) := by
  intro l a l' hp h
  cases h
  exact hp

theorem forM {γ : Type} {f : γ → Resolving Unit} (hf : ∀ c, Preserves P (f c)) (cs : List γ) :
    Preserves P (cs.forM f) := by
  induction cs with
  | nil => exact .pure ()
  | cons c cs ih => exact (hf c).bind fun _ => ih

end Preserves

/-- Markers have no offset, and the classes that are laid out are counted. -/
structure Orderly (l : Layout) : Prop where
  markers : ∀ id s, l.table.scope? id = some s → s.MarkersOpen
  counted : l.classLayouts = (l.table.classes.map Scope.placed).count true

theorem markersOpen_setScope {t : Table} (ht : ∀ id s, t.scope? id = some s → s.MarkersOpen)
    {id : ScopeId} {s s' : Scope} (hs : t.scope? id = some s) (hs' : s'.MarkersOpen) :
    ∀ id' x, (t.setScope id s').scope? id' = some x → x.MarkersOpen := by
  intro id' x hx
  by_cases hid : id' = id
  · subst hid
    rw [scope?_setScope hs] at hx
    cases hx
    exact hs'
  · rw [scope?_setScope_ne hid] at hx
    exact ht id' x hx

theorem placed_setScope {t : Table} {id : ScopeId} {s s' : Scope} (hs : t.scope? id = some s)
    (h : s'.placed = s.placed) :
    (t.setScope id s').classes.map Scope.placed = t.classes.map Scope.placed := by
  cases id with
  | global => rfl
  | ofFunction i => rfl
  | ofClass i =>
    obtain ⟨hlt, hat⟩ := List.getElem?_eq_some_iff.1 hs
    show (t.classes.set i s').map Scope.placed = t.classes.map Scope.placed
    have hlt' : i < (t.classes.map Scope.placed).length := by rwa [List.length_map]
    have hsame : (t.classes.map Scope.placed)[i] = s'.placed := by
      rw [List.getElem_map, hat, h]
    rw [List.map_set, ← hsame, List.set_getElem_self]

theorem count_setScope {t : Table} {i : Nat} {s s' : Scope} (hs : t.classes[i]? = some s)
    (h : s.placed = false) (h' : s'.placed = true) :
    ((t.setScope (.ofClass i) s').classes.map Scope.placed).count true
      = (t.classes.map Scope.placed).count true + 1 := by
  obtain ⟨hlt, hat⟩ := List.getElem?_eq_some_iff.1 hs
  have hlt' : i < (t.classes.map Scope.placed).length := by rwa [List.length_map]
  show ((t.classes.set i s').map Scope.placed).count true = _
  rw [List.map_set, List.count_set hlt', List.getElem_map, hat, h, h']
  rfl

namespace Preserves

theorem report (message : String) (attributes : List (String × LogValue)) :
    Preserves Orderly (report message attributes) := by
  intro l a l' hp h
  cases h
  exact ⟨hp.markers, hp.counted⟩

theorem onScope {id : ScopeId} {absent : α} {work : Table → Scope → Except Fault α × Scope}
    (hw : ∀ t s a s', work t s = (.ok a, s') → s.MarkersOpen →
      s'.MarkersOpen ∧ s'.placed = s.placed) :
    Preserves Orderly (Layout.onScope id absent work) := by
  intro l a l' hp h
  rcases onScope_eq_ok h with ⟨-, -, rfl⟩ | ⟨s, s', hs, hwork, rfl⟩
  · exact hp
  · obtain ⟨hm, hplaced⟩ := hw _ _ _ _ hwork (hp.markers id s hs)
    refine ⟨markersOpen_setScope hp.markers hs hm, ?_⟩
    show l.classLayouts = _
    rw [placed_setScope hs hplaced]
    exact hp.counted

end Preserves

/-! #### Unnamed slots and sizes -/

theorem Preserves.supplyFunction (i : Nat) : Preserves Orderly (supplyFunction i) := by
  unfold Layout.supplyFunction
  refine Preserves.get.bind fun l => ?_
  split
  · exact .pure ()
  · refine Preserves.onScope fun t s u s' h hm => ?_
    cases u
    rw [of_supply h]
    refine ⟨fun e he hk => ?_, rfl⟩
    rcases List.mem_append.1 he with he | he
    · exact hm e he hk
    · obtain ⟨d, -, rfl⟩ := List.mem_map.1 he
      rfl

theorem markersOpen_of_sizeScope {t : Table} {sizes : Sizes} {s s' : Scope} {finished : Bool}
    (h : t.sizeScope sizes s = (.ok finished, s')) (hm : s.MarkersOpen) : s'.MarkersOpen := by
  obtain ⟨es, hes, hcase⟩ := sizeScope_cases h
  have hopen : ∀ e' ∈ es, e'.kind.isStorage = false → e'.offset = none := by
    intro e' he' hk
    obtain ⟨e, he, rfl | hee⟩ := mem_right hes he'
    · exact hm e' he hk
    · rw [offset_of_sizeEntry hee]
      exact hm e he ((Table.of_sizeEntry hee).1.kind ▸ hk)
  rcases hcase with rfl | ⟨below, own, -, -, -, rfl⟩
  · exact hopen
  · exact hopen

theorem Preserves.sizePending (ids : List ScopeId) : Preserves Orderly (sizePending ids) := by
  induction ids with
  | nil => exact .pure []
  | cons id ids ih =>
    unfold Layout.sizePending
    refine Preserves.get.bind fun l => ?_
    refine Preserves.bind (.onScope fun t s a s' h hm => ?_) fun finished => ?_
    · exact ⟨markersOpen_of_sizeScope h hm, (Table.of_sizeScope h).2.2.1⟩
    · exact ih.bind fun rest => .pure _

theorem Preserves.sizeAll (ids : List ScopeId) : Preserves Orderly (sizeAll ids) := by
  induction hlen : ids.length using Nat.strong_induction_on generalizing ids with
  | _ n ih =>
    intro l u l' hp h
    cases u
    cases ids with
    | nil =>
      rw [sizeAll_nil] at h
      cases h
      exact hp
    | cons id ids =>
      obtain ⟨next, l₁, l₂, h1, hlt, h2, h3⟩ := sizeAll_eq_ok.1 h
      rw [hlen] at hlt
      have h₀ : Orderly { l with passes := l.passes + 1 } := ⟨hp.markers, hp.counted⟩
      have h₁ := Preserves.sizePending _ _ _ _ h₀ h1
      have h₂ := Preserves.report _ _ _ _ _ h₁ h2
      exact ih _ hlt next rfl _ _ _ h₂ h3

/-! #### Offsets -/

theorem markersOpen_of_placeEntries {es es' : List Entry} {off : Int64}
    (h : Scope.placeEntries off es = (.ok (), es'))
    (hm : ∀ e ∈ es, e.kind.isStorage = false → e.offset = none) :
    ∀ e ∈ es', e.kind.isStorage = false → e.offset = none := by
  induction es generalizing off es' with
  | nil =>
    cases h
    exact hm
  | cons e es ih =>
    have hrest : ∀ e ∈ es, e.kind.isStorage = false → e.offset = none :=
      fun x hx => hm x (List.mem_cons_of_mem _ hx)
    unfold Scope.placeEntries at h
    split at h
    · rename_i hk
      split at h
      · cases h
      · rename_i e₁ he
        obtain ⟨rfl, -, -⟩ := Entry.Later.of_setOffset he
        rcases hplace : Scope.placeEntries (off - wordOfSize e.size) es with ⟨r, es₁⟩
        rw [hplace] at h
        cases h
        intro x hx hxk
        rcases List.mem_cons.1 hx with rfl | hx
        · exact absurd (hk.symm.trans hxk) nofun
        · exact ih hplace hrest x hx hxk
    · rcases hplace : Scope.placeEntries off es with ⟨r, es₁⟩
      rw [hplace] at h
      cases h
      intro x hx hxk
      rcases List.mem_cons.1 hx with rfl | hx
      · exact hm x List.mem_cons_self hxk
      · exact ih hplace hrest x hx hxk

theorem markersOpen_of_layOut {s s' : Scope} {base : Int64} (h : s.layOut base = (.ok (), s'))
    (hm : s.MarkersOpen) : s'.MarkersOpen ∧ s.placed = false ∧ s'.placed = true := by
  obtain ⟨-, hplaced, -⟩ := Scope.of_layOut h
  unfold Scope.layOut Scope.place at h
  split at h
  · cases h
  · rename_i s₁ hs₁
    split at hs₁
    · cases hs₁
    · rename_i hopen
      cases hs₁
      rcases hplace : Scope.placeEntries base s.entries with ⟨r, es⟩
      rw [hplace] at h
      cases h
      exact ⟨markersOpen_of_placeEntries hplace hm, Bool.eq_false_iff.2 hopen, hplaced⟩

theorem Preserves.placeFunction (i : Nat) : Preserves Orderly (placeFunction i) := by
  intro l u l' hp h
  unfold Layout.placeFunction at h
  obtain ⟨v, l₁, h1, h⟩ := run_bind_eq_ok.1 h
  have h₁ : Orderly l₁ := by
    rcases onScope_eq_ok h1 with ⟨-, -, rfl⟩ | ⟨s, s', hs, hwork, rfl⟩
    · exact hp
    · cases v
      obtain ⟨hm, -, -⟩ := markersOpen_of_layOut hwork (hp.markers _ s hs)
      exact ⟨markersOpen_setScope hp.markers hs hm, hp.counted⟩
  -- What is reported of the function leaves the rest as it is.
  refine Preserves.bind Preserves.get (fun l => ?_) _ _ _ h₁ h
  split
  · exact .pure ()
  · exact .report _ _

/-- A class is counted when it is laid out, which happens once. -/
theorem Preserves.placeClass (depth i : Nat) : Preserves Orderly (placeClass depth i) := by
  induction depth generalizing i with
  | zero => exact .pure ()
  | succ depth ih =>
    intro l u l' hp h
    unfold Layout.placeClass at h
    obtain ⟨l₀, l₁, h0, h⟩ := run_bind_eq_ok.1 h
    cases h0
    simp only at h
    cases hs : l.table.classes[i]? with
    | none =>
      rw [hs] at h
      cases h
      exact hp
    | some s =>
      rw [hs] at h
      simp only at h
      split at h
      · cases h
        exact hp
      · obtain ⟨v, l₁, h1, h⟩ := run_bind_eq_ok.1 h
        obtain ⟨w, l₂, h2, h⟩ := run_bind_eq_ok.1 h
        obtain ⟨x, l₃, h3, h⟩ := run_bind_eq_ok.1 h
        cases h3
        have hp₁ := Preserves.forM ih _ _ _ _ hp h1
        have hlater := (Fills.forM (Fills.placeClass depth) _ _ _ _ h1).table
        obtain ⟨s₁, hs₁, -⟩ := of_rel_some (hs ▸ rel_getElem? hlater.classes i)
        refine Preserves.report _ _ _ _ _ ?_ h
        rcases onScope_eq_ok h2 with ⟨hnone, -, -⟩ | ⟨s₂, s', hs₂, hwork, rfl⟩
        · exact absurd (hs₁.symm.trans hnone) nofun
        · cases w
          obtain ⟨hm, hopen, hplaced⟩ := markersOpen_of_layOut hwork (hp₁.markers _ s₂ hs₂)
          refine ⟨markersOpen_setScope hp₁.markers hs₂ hm, ?_⟩
          show l₁.classLayouts + 1 = _
          rw [count_setScope hs₂ hopen hplaced, hp₁.counted]

/-! ### The whole resolution -/

theorem addFunction_global {t t' : Table} {f : Function} (h : t.addFunction f = .ok t')
    (hm : t.global.MarkersOpen) : t'.global.MarkersOpen := by
  obtain ⟨parent, s, -, -, -, rfl⟩ := Table.of_addFunction h
  show (t.marked f parent).global.MarkersOpen
  unfold Table.marked
  cases parent with
  | global =>
    intro e he hk
    rcases List.mem_append.1 he with he | he
    · exact hm e he hk
    · rw [List.mem_singleton.1 he]
      rfl
  | ofClass i | ofFunction i =>
    split
    · exact hm
    · exact hm

theorem addClass_global {t t' : Table} {c : ClassDecl} (h : t.addClass c = .ok t')
    (hm : t.global.MarkersOpen) : t'.global.MarkersOpen := by
  unfold Table.addClass at h
  split at h
  · cases h
  · obtain ⟨s, -, h⟩ := except_bind_eq_ok.1 h
    cases h
    intro e he hk
    rcases List.mem_append.1 he with he | he
    · exact hm e he hk
    · rw [List.mem_singleton.1 he]
      rfl

theorem markersOpen_global_of_build {p : Program} {t : Table} (h : Table.build p = .ok t) :
    t.global.MarkersOpen := by
  unfold Table.build at h
  obtain ⟨t₀, h0, h⟩ := except_bind_eq_ok.1 h
  obtain ⟨fs, -, h⟩ := except_bind_eq_ok.1 h
  cases h
  unfold Table.scopes at h0
  obtain ⟨t₁, h1, h0⟩ := except_bind_eq_ok.1 h0
  obtain ⟨u, -, h2⟩ := except_bind_eq_ok.1 h0
  have h₁ : t₁.global.MarkersOpen := by
    refine foldlM_ok (P := fun _ t => t.global.MarkersOpen) (fun e he => ?_)
      (fun _ _ _ _ hm h => addClass_global h hm) h1
    cases he
  exact foldlM_ok (P := fun _ t => t.global.MarkersOpen) h₁
    (fun _ _ _ _ hm h => addFunction_global h hm) h2

theorem orderly_ofTable {p : Program} {t : Table} (h : Table.build p = .ok t) (c : Config) :
    Orderly (ofTable t c) := by
  have hfresh := Table.fresh_of_build h
  constructor
  · intro id s hs
    cases id with
    | global =>
      cases hs
      exact markersOpen_global_of_build h
    | ofClass i =>
      have hmem := List.mem_append_left t.functions (List.mem_of_getElem? hs)
      exact fun e he _ => (hfresh.entries s hmem e he).2
    | ofFunction i =>
      have hmem := List.mem_append_right t.classes (List.mem_of_getElem? hs)
      exact fun e he _ => (hfresh.entries s hmem e he).2
  · have hopen : true ∉ t.classes.map Scope.placed := by
      intro hmem
      obtain ⟨s, hs, hp⟩ := List.mem_map.1 hmem
      rw [hfresh.placed s (List.mem_append_left _ hs)] at hp
      cases hp
    exact (List.count_eq_zero.2 hopen).symm

theorem orderly_of_resolve {p : Program} {t : Table} {c : Config} {l : Layout}
    (hb : Table.build p = .ok t) (hr : (ofTable t c).resolve = (.ok (), l)) : Orderly l := by
  obtain ⟨l₁, l₂, l₃, l₄, h1, h2, h3, h4, rfl⟩ := resolve_eq_ok.1 hr
  have o₁ := Preserves.forM Preserves.supplyFunction _ _ _ _ (orderly_ofTable hb c) h1
  have o₂ := Preserves.sizeAll _ _ _ _ o₁ h2
  have o₃ := Preserves.forM (Preserves.placeClass _) _ _ _ _ o₂ h3
  have o₄ := Preserves.forM Preserves.placeFunction _ _ _ _ o₃ h4
  exact ⟨o₄.markers, o₄.counted⟩

end Layout

namespace LaidOut

variable {p : Program} {sizes : Sizes} {t : Table} (h : LaidOut p sizes t)

include h

theorem class_base (hbound : p.Bounded sizes) {s : Scope} (hs : s ∈ t.classes) :
    s.base.toInt = -((t.bases s).map fun b => bytesOf b.size).sum
      ∧ ∃ n, s.size = some n
        ∧ n.toInt = ((t.bases s).map fun b => bytesOf b.size).sum + bytesIn s.entries := by
  obtain ⟨hsize, -, hlt, hsum⟩ := h.class_sum hbound hs
  obtain ⟨n, hn⟩ := Option.ne_none_iff_exists'.1 hsize
  have hown := bytesIn_nonneg fun e he hk =>
    h.entry_nonneg (List.mem_append_left t.functions hs) he hk
  refine ⟨?_, n, hn, ?_⟩
  · rw [h.based hbound s hs, Table.ownBase, toInt_foldl, Int64.toInt_zero, Int.zero_sub]
    · exact fun b hb => (h.class_sum hbound (mem_classes_of_bases hb)).2.1
    · rw [Int64.toInt_zero]
      omega
  · rw [← hsum, hn]
    rfl

theorem tiling_class (hbound : p.Bounded sizes) {s : Scope} (hs : s ∈ t.classes)
    (hm : s.MarkersOpen) : s.Tiling := by
  obtain ⟨hbase, n, -, hn⟩ := h.class_base hbound hs
  have hmem := List.mem_append_left t.functions hs
  refine Scope.tiling_of_tiled (h.classes s hs) hm (h.sized s hmem)
    (fun e he hk => h.entry_nonneg hmem he hk) ?_
  have := n.toInt_lt
  omega

theorem tiling_function (hfit : Fits p sizes t) (hp : sizes.Proper) {s : Scope}
    (hs : s ∈ t.functions) (hbase : s.base = 0) (hm : s.MarkersOpen) : s.Tiling := by
  obtain ⟨hsize, hsum, -⟩ := h.frame_sum hfit hp hs
  obtain ⟨n, hn⟩ := Option.ne_none_iff_exists'.1 hsize
  have htiled := h.functions s hs
  rw [← hbase] at htiled
  have hmem := List.mem_append_right t.classes hs
  refine Scope.tiling_of_tiled htiled hm (h.sized s hmem)
    (fun e he hk => h.entry_nonneg hmem he hk) ?_
  have hlt : bytesOf s.size < 2 ^ 63 := by
    rw [hn]
    exact n.toInt_lt
  rw [hbase, Int64.toInt_zero, ← hsum]
  omega

end LaidOut

/-- The storage of every class and function takes the bytes below the base of its scope, each
exactly once, and every class is laid out once. -/
theorem offsets_tile {p : Program} {t : Table} {c : Config} {l : Layout}
    (hb : Table.build p = .ok t) (hc : c.validate = .ok ())
    (hr : (ofTable t c).resolve = (.ok (), l))
    (hfit : Fits p c.sizes (supplied t c.emit.entryFunction)) :
    (∀ s ∈ l.table.classes ++ l.table.functions, s.Tiling)
    ∧ (∀ s ∈ l.table.functions, s.base = 0
      ∧ ∃ n, s.frameSize = .ok n ∧ n.toInt = bytesIn s.entries)
    ∧ (∀ s ∈ l.table.classes, s.base.toInt = -((l.table.bases s).map fun b => bytesOf b.size).sum
      ∧ ∃ n, s.size = some n
        ∧ n.toInt = ((l.table.bases s).map fun b => bytesOf b.size).sum + bytesIn s.entries)
    ∧ l.table.global.MarkersOpen
    ∧ l.classLayouts = p.classes.length := by
  have hp := Config.proper_of_validate hc
  have h := laidOut_of_resolve hb hp hr
  have horderly := orderly_of_resolve hb hr
  obtain ⟨hlater, -, -, hsettled⟩ := of_resolve (Table.fresh_of_build hb) hr
  have hfit := hfit.later hlater
  have hbase : ∀ s ∈ l.table.functions, s.base = 0 := by
    intro s hs
    obtain ⟨i, hi⟩ := List.mem_iff_getElem?.1 hs
    exact (hsettled.functions i (List.getElem?_eq_some_iff.1 hi).1 s hi).2 0 rfl
  refine ⟨fun s hs => ?_, fun s hs => ⟨hbase s hs, ?_⟩, fun s hs => h.class_base hfit.classes hs,
    horderly.markers .global _ rfl, ?_⟩
  · rcases List.mem_append.1 hs with hs | hs
    · obtain ⟨i, hi⟩ := List.mem_iff_getElem?.1 hs
      exact h.tiling_class hfit.classes hs (horderly.markers (.ofClass i) s hi)
    · obtain ⟨i, hi⟩ := List.mem_iff_getElem?.1 hs
      exact h.tiling_function hfit hp hs (hbase s hs) (horderly.markers (.ofFunction i) s hi)
  · obtain ⟨hsize, hsum, -⟩ := h.frame_sum hfit hp hs
    obtain ⟨n, hn⟩ := Option.ne_none_iff_exists'.1 hsize
    refine ⟨n, by rw [Scope.frameSize, hn], ?_⟩
    rw [← hsum, hn]
    rfl
  · have hplaced : ∀ x ∈ l.table.classes.map Scope.placed, true = x := by
      intro x hx
      obtain ⟨s, hs, rfl⟩ := List.mem_map.1 hx
      obtain ⟨i, hi⟩ := List.mem_iff_getElem?.1 hs
      exact (hsettled.classes i (List.getElem?_eq_some_iff.1 hi).1 s hi).1.symm
    rw [horderly.counted, List.count_eq_length.2 hplaced, List.length_map, h.declares.count]

/-- An object of `Bottom` has seven parts, and each of the four classes is laid out once. -/
theorem offsets_tile_diamond : ∃ t l, Table.build diamond = .ok t
    ∧ (ofTable t {}).resolve = (.ok (), l)
    ∧ (l.table.class? "Bottom").map Scope.base = some (-32)
    ∧ (∀ s ∈ l.table.classes ++ l.table.functions, s.Tiling) ∧ l.classLayouts = 4 := by
  obtain ⟨t, hb, hcheck⟩ := of_tableChecks diamond (fun t =>
    fitsAt diamond {} (supplied t "main") 4 && (ofTable t {}).resolve.1.isOk
      && ((ofTable t {}).resolve.2.table.class? "Bottom").map Scope.base == some (-32))
    (by decide +kernel)
  simp only [Bool.and_eq_true, beq_iff_eq] at hcheck
  obtain ⟨⟨hfit, hok⟩, hbase⟩ := hcheck
  have hres := resolve_of_isOk hok
  obtain ⟨htiling, -, -, -, hcount⟩ := offsets_tile hb (c := {}) rfl hres (fits_of_fitsAt hfit)
  exact ⟨t, _, hb, hres, hbase, htiling, hcount⟩

end MoonBackend
