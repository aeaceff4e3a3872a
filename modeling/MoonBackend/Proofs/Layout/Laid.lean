import Mathlib.Algebra.Order.BigOperators.Group.List
import MoonBackend.Proofs.Layout.Resolution

/-!
# What a resolved layout is

What a layout that was resolved without a fault offers to those who read it: every entry has its
size, the storage of a class stands below its bases and that of a function at the top of its frame,
and no class contains itself.
-/

namespace MoonBackend

open Layout

/-- The sizes that the rules give to classes are smaller than 2^63. -/
def Program.Bounded (p : Program) (sizes : Sizes) : Prop :=
  ∀ d name n, p.classBytes sizes d name = some n → n < 2 ^ 63

/-- Everything of a table is sized and placed, by the rules. -/
structure LaidOut (p : Program) (sizes : Sizes) (t : Table) : Prop where
  declares : Table.Declares p t
  acyclic : p.Acyclic
  exact : Exact p sizes t
  sized : EntriesSized t
  sizable : AllSizable p t
  fair : ∀ s ∈ t.classes ++ t.functions, Scope.Fair t sizes s.entries
  finished : ∀ s ∈ t.classes ++ t.functions, ∃ below own, Scope.Finished t s below own
  classes : ∀ s ∈ t.classes, Scope.Tiled s.base s.entries
  functions : ∀ s ∈ t.functions, Scope.Tiled 0 s.entries
  based : p.Bounded sizes → ∀ s ∈ t.classes, s.base = t.ownBase s

namespace Layout

/-- The bytes that something of a size takes from an offset downwards. -/
def span (off : Int64) (size : Option Int64) : Set ℤ := Set.Ioc (off.toInt - bytesOf size) off.toInt

/-! ### Where classes start -/

/-- A placed class starts right below its bases. -/
def Based (t : Table) : Prop := ∀ s ∈ t.classes, s.placed = true → s.base = t.ownBase s

def ClassesSized (t : Table) : Prop := ∀ s ∈ t.classes, s.size ≠ none

theorem ClassesSized.later {t t' : Table} (h : ClassesSized t) (hl : t.Later t') :
    ClassesSized t' := by
  intro s' hs'
  obtain ⟨s, hs, hss⟩ := mem_right hl.classes hs'
  obtain ⟨n, hn⟩ := Option.ne_none_iff_exists'.1 (h s hs)
  rw [hss.size n hn]
  nofun

theorem classesSized_of_finished {p : Program} {sizes : Sizes} {t : Table}
    (hd : Table.Declares p t) (hx : Exact p sizes t) (hbound : p.Bounded sizes)
    (hf : ∀ s ∈ t.classes ++ t.functions, ∃ below own, Scope.Finished t s below own) :
    ClassesSized t := by
  intro s hs
  have hmem := List.mem_append_left t.functions hs
  obtain ⟨below, own, hf⟩ := hf s hmem
  obtain ⟨d, m, hm, hexact⟩ := carries_class hd hx hs rfl
    (fun e he n hn => hx.entries s hmem e he n hn) hf.bases hf.entries
  rw [hf.size _ (sizeOfWord_exact (hexact (hbound d s.name m hm)))]
  nofun

theorem mem_classes_of_bases {t : Table} {s b : Scope} (h : b ∈ t.bases s) : b ∈ t.classes := by
  obtain ⟨name, -, hb⟩ := List.mem_filterMap.1 h
  exact List.mem_of_find?_eq_some hb

theorem foldl_wordOfSize {bs bs' : List Scope} (h : List.Forall₂ Scope.Later bs bs')
    (hz : ∀ b ∈ bs, b.size ≠ none) (pos : Int64) :
    bs'.foldl (fun pos b => pos - wordOfSize b.size) pos
      = bs.foldl (fun pos b => pos - wordOfSize b.size) pos := by
  induction h generalizing pos with
  | nil => rfl
  | @cons b b' bs bs' hb _ ih =>
    obtain ⟨n, hn⟩ := Option.ne_none_iff_exists'.1 (hz b List.mem_cons_self)
    rw [List.foldl_cons, List.foldl_cons, hn, hb.size n hn]
    exact ih (fun x hx => hz x (List.mem_cons_of_mem _ hx)) _

theorem ownBase_later {t t' : Table} (hz : ClassesSized t) (hl : t.Later t') {s s' : Scope}
    (hs : s.Later s') : t'.ownBase s' = t.ownBase s :=
  foldl_wordOfSize (hl.bases hs) (fun b hb => hz b (mem_classes_of_bases hb)) 0

theorem ownBase_congr {t t' : Table} (h : t'.classes = t.classes) (s : Scope) :
    t'.ownBase s = t.ownBase s := by
  obtain ⟨program, globals, classes, functions⟩ := t
  obtain ⟨program', globals', classes', functions'⟩ := t'
  cases h
  rfl

theorem based_layOut {i : Nat} {base : Int64} {l l' : Layout} (hz : ClassesSized l.table)
    (hb : Based l.table)
    (hbase : ∀ s, l.table.classes[i]? = some s → base = l.table.ownBase s)
    (h : (onScope (.ofClass i) () fun _ s => s.layOut base).run l = (.ok (), l')) :
    Based l'.table := by
  rcases onScope_eq_ok h with ⟨-, -, rfl⟩ | ⟨s, s', hs, hwork, rfl⟩
  · exact hb
  · obtain ⟨hl, -, hsb, -⟩ := Scope.of_layOut hwork
    have hlater := Table.Later.of_setScope hs hl
    intro x hx hp
    rcases List.mem_or_eq_of_mem_set hx with hx | rfl
    · rw [ownBase_later hz hlater (.refl x)]
      exact hb x hx hp
    · rw [ownBase_later hz hlater hl, hsb]
      exact hbase s hs

theorem based_forM {f : Nat → Resolving Unit} (hf : ∀ i, Fills (f i))
    (hstep : ∀ i l l', ClassesSized l.table → Based l.table → (f i).run l = (.ok (), l') →
      Based l'.table) {is : List Nat} {l l' : Layout} (hz : ClassesSized l.table)
    (hb : Based l.table) (h : (is.forM f).run l = (.ok (), l')) : Based l'.table := by
  induction is generalizing l with
  | nil =>
    cases h
    exact hb
  | cons i is ih =>
    obtain ⟨u, l₁, h1, h2⟩ := run_bind_eq_ok.1 (show (f i >>= fun _ => is.forM f).run l = _ from h)
    exact ih (hz.later (hf i l () l₁ h1).table) (hstep i l l₁ hz hb h1) h2

theorem based_placeClass {depth i : Nat} {l l' : Layout} (hz : ClassesSized l.table)
    (hb : Based l.table) (h : (Layout.placeClass depth i).run l = (.ok (), l')) :
    Based l'.table := by
  induction depth generalizing i l l' with
  | zero =>
    cases h
    exact hb
  | succ depth ih =>
    unfold Layout.placeClass at h
    obtain ⟨l₀, l₁, h0, h⟩ := run_bind_eq_ok.1 h
    cases h0
    simp only at h
    cases hs : l.table.classes[i]? with
    | none =>
      rw [hs] at h
      cases h
      exact hb
    | some s =>
      rw [hs] at h
      simp only at h
      split at h
      · cases h
        exact hb
      · obtain ⟨u, l₁, h1, h⟩ := run_bind_eq_ok.1 h
        obtain ⟨u, l₂, h2, h⟩ := run_bind_eq_ok.1 h
        obtain ⟨u, l₃, h3, h⟩ := run_bind_eq_ok.1 h
        cases h3
        have hlater := (Fills.forM (Fills.placeClass depth) _ _ _ _ h1).table
        have hb₁ := based_forM (Fills.placeClass depth) (fun i l l' hz hb h => ih hz hb h) hz hb h1
        have hb₂ := based_layOut (hz.later hlater) hb₁ (fun s₁ hs₁ => by
          have hr := rel_getElem? hlater.classes i
          rw [hs, hs₁] at hr
          cases hr with
          | some hss => exact (ownBase_later hz hlater hss).symm) h2
        cases h
        exact hb₂

theorem based_placeFunction {i : Nat} {l l' : Layout} (hb : Based l.table)
    (h : (placeFunction i).run l = (.ok (), l')) : Based l'.table := by
  unfold placeFunction at h
  obtain ⟨u, l₁, h1, h⟩ := run_bind_eq_ok.1 h
  obtain ⟨l₂, l₂, h2, h⟩ := run_bind_eq_ok.1 h
  cases h2
  have hsame : l'.table = l₁.table := by
    split at h
    · cases h
      rfl
    · cases h
      rfl
  have hb₁ : Based l₁.table := by
    rcases onScope_eq_ok h1 with ⟨-, -, rfl⟩ | ⟨s, s', hs, -, rfl⟩
    · exact hb
    · intro x hx hp
      exact (hb x hx hp).trans (ownBase_congr rfl x).symm
  rw [hsame]
  exact hb₁

theorem based_of_placing {l₂ l₃ l₄ : Layout} {depth : Nat} {is js : List Nat}
    (hz : ClassesSized l₂.table)
    (hopen : ∀ s ∈ l₂.table.classes ++ l₂.table.functions, Unplaced s)
    (h3 : (is.forM (Layout.placeClass depth)).run l₂ = (.ok (), l₃))
    (h4 : (js.forM placeFunction).run l₃ = (.ok (), l₄)) : Based l₄.table := by
  have hb₂ : Based l₂.table := by
    intro s hs hp
    rw [(hopen s (List.mem_append_left _ hs)).1] at hp
    cases hp
  have hb₃ := based_forM (Fills.placeClass depth) (fun i l l' hz hb h => based_placeClass hz hb h)
    hz hb₂ h3
  have hz₃ := hz.later (Fills.forM (Fills.placeClass depth) _ _ _ _ h3).table
  exact based_forM (fun i _ _ _ hf => (of_placeFunction hf).1)
    (fun i l l' _ hb h => based_placeFunction hb h) hz₃ hb₃ h4

/-- A resolved layout is laid out. -/
theorem laidOut_of_resolve {p : Program} {t : Table} {c : Config} {l : Layout}
    (hb : Table.build p = .ok t) (hp : c.sizes.Proper)
    (hr : (ofTable t c).resolve = (.ok (), l)) : LaidOut p c.sizes l.table := by
  have hd := (Table.declares_of_build hb).supplied c.emit.entryFunction
  obtain ⟨l', hl', hx, -, hlater, hok⟩ := resolve_of_sizeAll hb hp
  obtain ⟨hrun, rfl⟩ : (.ok () : Except Fault Unit)
      = ((sizeAll (sizedScopes t)).run (started t c)).1 ∧ l = l' := by
    have h := hr.symm.trans hl'
    exact ⟨congrArg Prod.fst h, congrArg Prod.snd h⟩
  obtain ⟨hentries, hsizable, hac, -⟩ := hok hrun.symm
  obtain ⟨-, hsizes, -, hsettled⟩ := of_resolve (Table.fresh_of_build hb) hr
  have hplaced : ∀ s ∈ l.table.classes, s.placed = true := by
    intro s hs
    obtain ⟨i, hi⟩ := List.mem_iff_getElem?.1 hs
    exact (hsettled.classes i (List.getElem?_eq_some_iff.1 hi).1 s hi).1
  refine ⟨hd.later hlater, hac, hx, hentries, hsizable.later hlater,
    fun s hs => hsizes ▸ hsettled.sane.fair s hs, finished_of_done hsettled.done,
    fun s hs => hsettled.sane.tiled s (List.mem_append_left _ hs) (hplaced s hs),
    fun s hs => ?_, fun hbound s hs => ?_⟩
  · obtain ⟨i, hi⟩ := List.mem_iff_getElem?.1 hs
    obtain ⟨hplaced, hbase⟩ := hsettled.functions i (List.getElem?_eq_some_iff.1 hi).1 s hi
    rw [← hbase 0 rfl]
    exact hsettled.sane.tiled s (List.mem_append_right _ hs) hplaced
  · obtain ⟨l₁, l₂, l₃, l₄, h1, h2, h3, h4, rfl⟩ := resolve_eq_ok.1 hr
    cases h1.symm.trans (supplyAll_ok (headsMatch_of_build hb) c)
    obtain ⟨hs₂, -⟩ := (sizing_started hb).sizeAll hp hd (fun _ => ne_global_of_mem) h2
    have hdone := (of_sizeAll _ (Nat.le_refl _) h2).2
    have hz := classesSized_of_finished (hd.later hs₂.later) hs₂.exact hbound
      (finished_of_done (sizedScopes_sizing hs₂ ▸ hdone))
    exact based_of_placing hz hs₂.unplaced h3 h4 s hs (hplaced s hs)

/-! ### What is placed does not overlap -/

theorem toInt_sub_of_le {a b : Int64} (hb : 0 ≤ b.toInt) (h : -2 ^ 63 ≤ a.toInt - b.toInt) :
    (a - b).toInt = a.toInt - b.toInt := by
  have := a.toInt_lt
  rw [Int64.toInt_sub, Int.bmod_eq_of_le (by omega) (by omega)]

theorem toInt_add_of_le {a b : Int64} (ha : a.toInt ≤ 0) (hb : b.toInt ≤ 0)
    (h : -2 ^ 63 ≤ a.toInt + b.toInt) : (a + b).toInt = a.toInt + b.toInt := by
  rw [Int64.toInt_add, Int.bmod_eq_of_le (by omega) (by omega)]

/-- The bytes that entries take together. -/
def bytesIn (es : List Entry) : ℤ :=
  ((es.filter (·.kind.isStorage)).map fun e => bytesOf e.size).sum

theorem bytesIn_cons_of_pos {e : Entry} {es : List Entry} (h : e.kind.isStorage = true) :
    bytesIn (e :: es) = bytesOf e.size + bytesIn es := by
  unfold bytesIn
  rw [List.filter_cons, if_pos h, List.map_cons, List.sum_cons]

theorem bytesIn_cons_of_neg {e : Entry} {es : List Entry} (h : ¬ e.kind.isStorage = true) :
    bytesIn (e :: es) = bytesIn es := by
  unfold bytesIn
  rw [List.filter_cons, if_neg h]

theorem bytesIn_nonneg {es : List Entry}
    (h : ∀ e ∈ es, e.kind.isStorage = true → 0 ≤ bytesOf e.size) : 0 ≤ bytesIn es := by
  refine List.sum_nonneg fun x hx => ?_
  obtain ⟨e, he, rfl⟩ := List.mem_map.1 hx
  exact h e (List.mem_filter.1 he).1 (List.mem_filter.1 he).2

def Below (e e' : Entry) : Prop :=
  ∀ o o', e.offset = some o → e'.offset = some o' → o'.toInt ≤ o.toInt - bytesOf e.size

theorem offset_of_tiled {es : List Entry} {off : Int64} (ht : Scope.Tiled off es) {e : Entry}
    (he : e ∈ es) (hk : e.kind.isStorage = true) : e.offset ≠ none := by
  induction es generalizing off with
  | nil => cases he
  | cons x es ih =>
    unfold Scope.Tiled at ht
    rcases List.mem_cons.1 he with rfl | he
    · rw [if_pos hk] at ht
      rw [ht.1]
      exact Option.some_ne_none _
    · split at ht
      · exact ih ht.2.2 he
      · exact ih ht he

/-- Entries that are placed one below the other take the bytes from the first offset down, each its
own. -/
theorem tiled_bounds {es : List Entry} {off : Int64} (ht : Scope.Tiled off es)
    (hn : ∀ e ∈ es, e.kind.isStorage = true → 0 ≤ bytesOf e.size)
    (hlow : -2 ^ 63 ≤ off.toInt - bytesIn es) :
    (∀ e ∈ es, e.kind.isStorage = true → ∃ o, e.offset = some o ∧ o.toInt ≤ off.toInt
      ∧ off.toInt - bytesIn es ≤ o.toInt - bytesOf e.size)
    ∧ (es.filter (·.kind.isStorage)).Pairwise Below := by
  induction es generalizing off with
  | nil =>
    refine ⟨fun e he => ?_, ?_⟩
    · cases he
    · exact .nil
  | cons e es ih =>
    unfold Scope.Tiled at ht
    have hrest : ∀ e ∈ es, e.kind.isStorage = true → 0 ≤ bytesOf e.size :=
      fun x hx => hn x (List.mem_cons_of_mem _ hx)
    by_cases hk : e.kind.isStorage = true
    · rw [if_pos hk] at ht
      obtain ⟨ho, -, ht⟩ := ht
      rw [bytesIn_cons_of_pos hk] at hlow ⊢
      rw [List.filter_cons, if_pos hk]
      have hsum := bytesIn_nonneg hrest
      have he := hn e List.mem_cons_self hk
      have hnext : (off - wordOfSize e.size).toInt = off.toInt - bytesOf e.size :=
        toInt_sub_of_le he (by unfold bytesOf at *; omega)
      obtain ⟨hin, hpair⟩ := ih ht hrest (by omega)
      refine ⟨fun x hx hxk => ?_, .cons (fun x hx o o' h1 h2 => ?_) hpair⟩
      · rcases List.mem_cons.1 hx with rfl | hx
        · exact ⟨off, ho, le_refl _, by omega⟩
        · obtain ⟨o, h1, h2, h3⟩ := hin x hx hxk
          exact ⟨o, h1, by omega, by omega⟩
      · obtain ⟨hx, hxk⟩ := List.mem_filter.1 hx
        obtain ⟨o₁, h3, h4, -⟩ := hin x hx hxk
        cases ho.symm.trans h1
        cases h3.symm.trans h2
        omega
    · rw [if_neg hk] at ht
      rw [bytesIn_cons_of_neg hk] at hlow ⊢
      rw [List.filter_cons, if_neg hk]
      obtain ⟨hin, hpair⟩ := ih ht hrest hlow
      refine ⟨fun x hx hxk => ?_, hpair⟩
      rcases List.mem_cons.1 hx with rfl | hx
      · exact absurd hxk hk
      · exact hin x hx hxk

end Layout

namespace LaidOut

variable {p : Program} {sizes : Sizes} {t : Table} (h : LaidOut p sizes t)

include h

theorem entry_nonneg {s : Scope} (hs : s ∈ t.classes ++ t.functions) {e : Entry}
    (he : e ∈ s.entries) (hk : e.kind.isStorage = true) : 0 ≤ bytesOf e.size := by
  obtain ⟨n, hn⟩ := Option.ne_none_iff_exists'.1 (h.sized s hs e (List.mem_filter.2 ⟨he, hk⟩))
  obtain ⟨hpos, -⟩ := h.fair s hs e he n hn
  rw [hn]
  exact Int64.le_iff_toInt_le.1 hpos

theorem class_sum (hbound : p.Bounded sizes) {s : Scope} (hs : s ∈ t.classes) :
    s.size ≠ none ∧ 0 ≤ bytesOf s.size ∧ bytesOf s.size < 2 ^ 63
      ∧ bytesOf s.size = ((t.bases s).map fun b => bytesOf b.size).sum + bytesIn s.entries := by
  have hmem := List.mem_append_left t.functions hs
  have hsize := classesSized_of_finished h.declares h.exact hbound h.finished s hs
  obtain ⟨n, hn⟩ := Option.ne_none_iff_exists'.1 hsize
  obtain ⟨below, own, hf⟩ := h.finished s hmem
  obtain ⟨w, v, hw, hv, d, hbytes⟩ := classBytes_of_sums h.declares h.exact hs rfl
    (fun e he n hn => h.exact.entries s hmem e he n hn) hf.bases hf.entries
  have hlt := hbound d s.name _ hbytes
  obtain ⟨d', m, hm, hexact⟩ := h.exact.classes s hs n hn
  obtain rfl := Program.classBytes_unique (f := fun classes => classes) (fun _ _ h => h) hbytes hm
  have hn' : bytesOf s.size = (((t.bases s).map w).sum + (s.storage.map v).sum : ℕ) := by
    rw [hn]
    exact hexact hlt
  refine ⟨hsize, by omega, by omega, ?_⟩
  rw [hn', sum_bytesOf (exact_of_sum hw (by omega)), Int.natCast_add]
  exact congrArg _ (sum_bytesOf (exact_of_sum hv (by omega))).symm

end LaidOut

end MoonBackend
