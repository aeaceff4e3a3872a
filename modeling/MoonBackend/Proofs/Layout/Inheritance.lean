import Mathlib.Data.List.Pairwise
import Mathlib.Order.Interval.Set.Disjoint
import MoonBackend.Proofs.Layout.Parts

/-!
# Look-ups through inheritance

The parts of an object lie inside it, and the members that their classes declare lie apart. So all
searches agree on which part they mean, and whatever they find lies in the object.
-/

namespace MoonBackend

open Layout

def Table.classSize (t : Table) (name : String) : Option Int64 := (t.class? name).bind Scope.size

/-- Where the own members of a class start. -/
def Table.ownTop (t : Table) (name : String) : ℤ :=
  ((t.class? name).map fun s => (t.ownBase s).toInt).getD 0

def Part.own (t : Table) (q : Part) : Set ℤ :=
  Set.Ioc (q.pos.toInt - bytesOf (t.classSize q.name)) (q.pos.toInt + t.ownTop q.name)

/-- Parts between two positions whose own members lie apart. -/
structure Stacked (t : Table) (low high : ℤ) (qs : List Part) : Prop where
  inside : ∀ q ∈ qs, q.pos.toInt ≤ high ∧ low ≤ q.pos.toInt - bytesOf (t.classSize q.name)
  apart : qs.Pairwise fun q q' => Disjoint (q.own t) (q'.own t)

/-! ### Parts inside an object -/

section

variable {p : Program} {sizes : Sizes} {t : Table} (h : LaidOut p sizes t)

theorem toInt_foldl {bs : List Scope} {pos : Int64} (hn : ∀ b ∈ bs, 0 ≤ bytesOf b.size)
    (hlow : -2 ^ 63 ≤ pos.toInt - (bs.map fun b => bytesOf b.size).sum) :
    (bs.foldl (fun pos b => pos - wordOfSize b.size) pos).toInt
      = pos.toInt - (bs.map fun b => bytesOf b.size).sum := by
  induction bs generalizing pos with
  | nil => simp
  | cons b bs ih =>
    rw [List.map_cons, List.sum_cons] at hlow ⊢
    have hb := hn b List.mem_cons_self
    have hrest : ∀ b ∈ bs, 0 ≤ bytesOf b.size := fun x hx => hn x (List.mem_cons_of_mem _ hx)
    have hsum : 0 ≤ (bs.map fun b => bytesOf b.size).sum := by
      refine List.sum_nonneg fun x hx => ?_
      obtain ⟨b, hb, rfl⟩ := List.mem_map.1 hx
      exact hrest b hb
    have hnext : (pos - wordOfSize b.size).toInt = pos.toInt - bytesOf b.size :=
      toInt_sub_of_le hb (by unfold bytesOf at *; omega)
    rw [List.foldl_cons, ih hrest (by omega), hnext]
    omega

include h

theorem LaidOut.class_bytes (hbound : p.Bounded sizes) {name : String} {s : Scope}
    (hs : t.class? name = some s) :
    t.classSize name ≠ none ∧ 0 ≤ bytesOf (t.classSize name)
      ∧ bytesOf (t.classSize name) < 2 ^ 63
      ∧ t.ownTop name = -((t.baseNames s).map fun b => bytesOf (t.classSize b)).sum
      ∧ bytesOf (t.classSize name) = bytesIn s.entries - t.ownTop name := by
  have hmem := (h.declares.of_class? hs).1
  obtain ⟨hsize, hnn, hlt, hsum⟩ := h.class_sum hbound hmem
  have hname : t.classSize name = s.size := by rw [Table.classSize, hs]; rfl
  have hbases : ((t.baseNames s).map fun b => bytesOf (t.classSize b))
      = (t.bases s).map fun b => bytesOf b.size := by
    rw [← h.declares.map_name_bases s, List.map_map]
    refine List.map_congr_left fun b hb => ?_
    rw [Function.comp, Table.classSize, h.declares.class?_of_mem (mem_classes_of_bases hb)]
    rfl
  have htop : t.ownTop name = -((t.bases s).map fun b => bytesOf b.size).sum := by
    have hown := bytesIn_nonneg fun e he hk =>
      h.entry_nonneg (List.mem_append_left t.functions hmem) he hk
    rw [Table.ownTop, hs, Option.map_some, Option.getD_some, Table.ownBase, toInt_foldl, Int64.toInt_zero,
      Int.zero_sub]
    · exact fun b hb => (h.class_sum hbound (mem_classes_of_bases hb)).2.1
    · rw [Int64.toInt_zero]
      omega
  rw [hname, hbases, htop]
  exact ⟨hsize, hnn, hlt, rfl, by omega⟩

theorem LaidOut.ownTop_nonpos (hbound : p.Bounded sizes) (name : String) : t.ownTop name ≤ 0 := by
  cases hs : t.class? name with
  | none =>
    rw [Table.ownTop, hs]
    exact le_refl _
  | some s =>
    obtain ⟨-, -, -, htop, -⟩ := h.class_bytes hbound hs
    have hsum : 0 ≤ ((t.baseNames s).map fun b => bytesOf (t.classSize b)).sum := by
      refine List.sum_nonneg fun x hx => ?_
      obtain ⟨b, hb, rfl⟩ := List.mem_map.1 hx
      obtain ⟨sb, hsb⟩ := Option.isSome_iff_exists.1 (Table.isSome_of_mem_baseNames hb)
      exact (h.class_bytes hbound hsb).2.1
    omega

theorem Stacked.own_subset (hbound : p.Bounded sizes) {low high : ℤ} {qs : List Part}
    (hq : Stacked t low high qs) {q : Part} (hm : q ∈ qs) : q.own t ⊆ Set.Ioc low high := by
  obtain ⟨h1, h2⟩ := hq.inside q hm
  have htop := h.ownTop_nonpos hbound q.name
  exact Set.Ioc_subset_Ioc h2 (by omega)

theorem Stacked.append (hbound : p.Bounded sizes) {low mid high : ℤ} {qs qs' : List Part}
    (hlow : low ≤ mid) (hhigh : mid ≤ high) (hq : Stacked t mid high qs)
    (hq' : Stacked t low mid qs') : Stacked t low high (qs ++ qs') := by
  refine ⟨fun q hm => ?_, List.pairwise_append.2 ⟨hq.apart, hq'.apart, fun q hm q' hm' => ?_⟩⟩
  · rcases List.mem_append.1 hm with hm | hm
    · obtain ⟨h1, h2⟩ := hq.inside q hm
      exact ⟨h1, by omega⟩
    · obtain ⟨h1, h2⟩ := hq'.inside q hm
      exact ⟨by omega, h2⟩
  · exact (Set.Ioc_disjoint_Ioc_of_le (le_refl mid)).symm.mono (hq.own_subset h hbound hm)
      (hq'.own_subset h hbound hm')

omit h in
theorem Stacked.shift {low : ℤ} {pos : Int64} {qs : List Part} (hq : Stacked t low 0 qs)
    (hn : ∀ q ∈ qs, 0 ≤ bytesOf (t.classSize q.name)) (hpos : pos.toInt ≤ 0)
    (hlow : -2 ^ 63 ≤ pos.toInt + low) :
    Stacked t (pos.toInt + low) pos.toInt (qs.map (Part.shift pos)) := by
  have hmove : ∀ q ∈ qs, (q.shift pos).pos.toInt = pos.toInt + q.pos.toInt := by
    intro q hm
    obtain ⟨h1, h2⟩ := hq.inside q hm
    have h3 := hn q hm
    exact toInt_add_of_le hpos h1 (by omega)
  refine ⟨fun q' hm => ?_, List.pairwise_map.2 ?_⟩
  · obtain ⟨q, hq', rfl⟩ := List.mem_map.1 hm
    obtain ⟨h1, h2⟩ := hq.inside q hq'
    rw [hmove q hq']
    exact ⟨by omega, by show _ ≤ _ - bytesOf (t.classSize q.name); omega⟩
  · refine hq.apart.imp_of_mem fun {q q'} hm hm' hdis => ?_
    rw [Set.disjoint_left] at hdis ⊢
    intro x hx hx'
    unfold Part.own at *
    rw [hmove q hm] at hx
    rw [hmove q' hm'] at hx'
    refine hdis (a := x - pos.toInt) ?_ ?_
    · exact ⟨by have := hx.1; simp only [Part.shift] at this; omega,
        by have := hx.2; simp only [Part.shift] at this; omega⟩
    · exact ⟨by have := hx'.1; simp only [Part.shift] at this; omega,
        by have := hx'.2; simp only [Part.shift] at this; omega⟩

theorem stacked_partsBelow (hbound : p.Bounded sizes) {parts : String → List Part}
    {bs : List String} {pos : Int64} (hb : ∀ b ∈ bs, 0 ≤ bytesOf (t.classSize b)
      ∧ Stacked t (-bytesOf (t.classSize b)) 0 (parts b)
      ∧ ∀ q ∈ parts b, 0 ≤ bytesOf (t.classSize q.name))
    (hpos : pos.toInt ≤ 0)
    (hlow : -2 ^ 63 ≤ pos.toInt - (bs.map fun b => bytesOf (t.classSize b)).sum) :
    Stacked t (pos.toInt - (bs.map fun b => bytesOf (t.classSize b)).sum) pos.toInt
      (t.partsBelow parts pos bs) := by
  induction bs generalizing pos with
  | nil => exact ⟨List.forall_mem_nil _, .nil⟩
  | cons b bs ih =>
    obtain ⟨hn, hstack, hqs⟩ := hb b List.mem_cons_self
    have hrest := fun x hx => hb x (List.mem_cons_of_mem _ hx)
    have hsum : 0 ≤ (bs.map fun b => bytesOf (t.classSize b)).sum := by
      refine List.sum_nonneg fun x hx => ?_
      obtain ⟨b, hb, rfl⟩ := List.mem_map.1 hx
      exact (hrest b hb).1
    rw [List.map_cons, List.sum_cons] at hlow ⊢
    have hword : (t.classWord b).toInt = bytesOf (t.classSize b) := rfl
    have hnext : (pos - t.classWord b).toInt = pos.toInt - bytesOf (t.classSize b) :=
      toInt_sub_of_le hn (by omega)
    have hbelow := @ih (pos - t.classWord b) hrest (by omega) (by omega)
    have hthis := hstack.shift hqs hpos (by omega)
    rw [hnext, Int.sub_sub] at hbelow
    exact Stacked.append h hbound (by omega) (by omega) hthis hbelow

/-- The parts of an object lie in the object, and their own members apart. -/
theorem stacked_parts (hbound : p.Bounded sizes) (depth : ℕ) (c : String) :
    Stacked t (-bytesOf (t.classSize c)) 0 (t.parts depth c) := by
  induction depth generalizing c with
  | zero => exact ⟨List.forall_mem_nil _, .nil⟩
  | succ depth ih =>
    rw [Table.parts]
    cases hs : t.class? c with
    | none => exact ⟨List.forall_mem_nil _, .nil⟩
    | some s =>
      obtain ⟨-, hn, hlt, htop, hbytes⟩ := h.class_bytes hbound hs
      have hown := bytesIn_nonneg fun e he hk =>
        h.entry_nonneg (List.mem_append_left t.functions (h.declares.of_class? hs).1) he hk
      have hdeclared : ∀ c, (t.class? c).isSome = true → 0 ≤ bytesOf (t.classSize c) := by
        intro c hc
        obtain ⟨sc, hsc⟩ := Option.isSome_iff_exists.1 hc
        exact (h.class_bytes hbound hsc).2.1
      have hbelow := stacked_partsBelow h hbound (fun b (hb : b ∈ t.baseNames s) => ⟨hdeclared b (Table.isSome_of_mem_baseNames hb), ih b,
          fun q hq => hdeclared q.name (reach_of_part h.declares hq).2⟩) (le_refl _)
        (by rw [Int64.toInt_zero]; omega)
      rw [Int64.toInt_zero, Int.zero_sub, ← htop] at hbelow
      refine ⟨fun q hq => ?_, .cons (fun q hq => ?_) hbelow.apart⟩
      · rcases List.mem_cons.1 hq with rfl | hq
        · exact ⟨le_refl _, by simp⟩
        · obtain ⟨h1, h2⟩ := hbelow.inside q hq
          exact ⟨h1, by omega⟩
      · have hself : Part.own t ⟨c, 0⟩ ⊆ Set.Ioc (-bytesOf (t.classSize c)) (t.ownTop c) :=
          Set.Ioc_subset_Ioc (by simp) (by simp)
        exact (Set.Ioc_disjoint_Ioc_of_le (le_refl (t.ownTop c))).mono hself
          (hbelow.own_subset h hbound hq)

end

/-! ### What the searches find -/

section

variable {p : Program} {sizes : Sizes} {t : Table} (h : LaidOut p sizes t)

theorem of_ownMember {c m : String} {e : Located} (he : t.ownMember c m = some e) :
    ∃ i s, t.class? c = some s ∧ t.classes[i]? = some s ∧ e.scope = .ofClass i
      ∧ e.entry ∈ s.entries ∧ e.entry.kind = .member ∧ e.entry.name = m := by
  unfold Table.ownMember at he
  rcases t.class?_cases c with ⟨hnone, -⟩ | ⟨i, s, hs, hi, his⟩
  · rw [hnone] at he
    cases he
  · rw [hs, hi] at he
    obtain ⟨e', hf, rfl⟩ := Option.map_eq_some_iff.1 he
    obtain ⟨hlook, hk⟩ := Option.filter_eq_some_iff.1 hf
    unfold Scope.lookup at hlook
    split at hlook
    · cases hlook
    · exact ⟨i, s, hs, his, rfl, List.mem_of_find?_eq_some hlook, eq_of_beq hk,
        by simpa using List.find?_some hlook⟩

theorem below_or_below {es : List Entry} (hpair : es.Pairwise Below) {e e' : Entry} (he : e ∈ es)
    (he' : e' ∈ es) (hne : e ≠ e') : Below e e' ∨ Below e' e := by
  have : Std.Symm fun e e' : Entry => Below e e' ∨ Below e' e := ⟨fun _ _ hb => hb.symm⟩
  exact (hpair.imp fun hb => Or.inl hb : es.Pairwise fun e e' => Below e e' ∨ Below e' e).forall
    he he' hne

include h

theorem LaidOut.membersPlaced : t.MembersPlaced :=
  fun s hs _ he hk => offset_of_tiled (h.classes s hs) he hk

/-- The member that is found is declared by the first part that declares it. -/
theorem LaidOut.memberOffset_eq_ok {D m : String} (hD : ∃ k ∈ p.classes, k.name = D) {off : Int64}
    {e : Located} :
    t.memberOffset D m = .ok (off, e) ↔ ∃ before q after, t.parts t.depth D = before ++ q :: after
      ∧ (∀ x ∈ before, t.ownMember x.name m = none) ∧ t.ownMember q.name m = some e
      ∧ off = q.pos + e.entry.offset.getD 0 := by
  have hsome := h.declares.class?_isSome.2 hD
  unfold Table.memberOffset
  rw [Table.memberOffsetFrom_eq h.membersPlaced t.depth m hsome]
  have hnone : ∀ x : Part,
      Table.foundAt (t.ownPlace m) x = none ↔ t.ownMember x.name m = none := by
    intro x
    simp only [Table.foundAt, Table.ownPlace, Option.map_eq_none_iff]
  have hfound : ∀ x : Part, Table.foundAt (t.ownPlace m) x = some (off, e) ↔
      t.ownMember x.name m = some e ∧ off = x.pos + e.entry.offset.getD 0 := by
    intro x
    simp only [Table.foundAt, Table.ownPlace, Option.map_map, Option.map_eq_some_iff]
    constructor
    · rintro ⟨l, hl, heq⟩
      cases heq
      exact ⟨hl, rfl⟩
    · rintro ⟨hl, rfl⟩
      exact ⟨e, hl, rfl⟩
  have hiff : (t.parts t.depth D).findSome? (Table.foundAt (t.ownPlace m)) = some (off, e) ↔
      ∃ before q after, t.parts t.depth D = before ++ q :: after
        ∧ (∀ x ∈ before, t.ownMember x.name m = none) ∧ t.ownMember q.name m = some e
        ∧ off = q.pos + e.entry.offset.getD 0 := by
    rw [List.findSome?_eq_some_iff]
    constructor
    · rintro ⟨before, q, after, hqs, hq, hbefore⟩
      exact ⟨before, q, after, hqs, fun x hx => (hnone x).1 (hbefore x hx), (hfound q).1 hq⟩
    · rintro ⟨before, q, after, hqs, hbefore, hq⟩
      exact ⟨before, q, after, hqs, (hfound q).2 hq, fun x hx => (hnone x).2 (hbefore x hx)⟩
  rw [← hiff]
  cases (t.parts t.depth D).findSome? (Table.foundAt (t.ownPlace m)) with
  | none => simp
  | some a => simp only [Except.ok.injEq, Option.some.injEq]

theorem LaidOut.member?_eq {D : String} (hD : ∃ k ∈ p.classes, k.name = D) (m : String) :
    (t.memberOffset D m).toOption.map Prod.snd = t.member? D m := by
  have hsome := h.declares.class?_isSome.2 hD
  have hsnd : (fun x : Part => (Table.foundAt (t.ownPlace m) x).map Prod.snd)
      = fun x => t.ownMember x.name m := by
    funext x
    simp only [Table.foundAt, Table.ownPlace, Option.map_map]
    exact Option.map_id'
  rw [Table.member?, Table.memberFrom_eq, ← hsnd]
  unfold Table.memberOffset
  rw [Table.memberOffsetFrom_eq h.membersPlaced t.depth m hsome]
  have hmap := List.map_findSome? (l := t.parts t.depth D) (f := Table.foundAt (t.ownPlace m))
    (g := Prod.snd)
  cases hf : (t.parts t.depth D).findSome? (Table.foundAt (t.ownPlace m)) with
  | none =>
    rw [hf] at hmap
    exact hmap
  | some a =>
    rw [hf] at hmap
    exact hmap

/-- The base that is found is the first part of its class. -/
theorem LaidOut.baseOffset_eq_ok {D B : String} (hD : ∃ k ∈ p.classes, k.name = D) {off : Int64} :
    t.baseOffset D B = .ok off ↔
      ∃ q, (t.parts t.depth D).find? (·.name == B) = some q ∧ q.pos = off := by
  have hrank := rank_lt_depth h.declares D
  have hparts : t.parts (t.depth + 1) D = t.parts t.depth D :=
    parts_of_rank h.declares h.acyclic (by omega) hrank
  unfold Table.baseOffset
  rw [Table.baseOffsetFrom_eq t _ B (h.declares.class?_isSome.2 hD), hparts]
  cases (t.parts t.depth D).find? (·.name == B) with
  | none => simp
  | some q => simp

theorem LaidOut.isDerivedFrom_iff {D B : String} (hD : ∃ k ∈ p.classes, k.name = D) :
    t.isDerivedFrom D B = true ↔ ∃ q ∈ t.parts t.depth D, q.name = B := by
  have hrank := rank_lt_depth h.declares D
  have hparts : t.parts (t.depth + 1) D = t.parts t.depth D :=
    parts_of_rank h.declares h.acyclic (by omega) hrank
  rw [Table.isDerivedFrom, h.declares.derivedFrom_eq _ _ (h.declares.class?_isSome.2 hD), hparts,
    List.any_eq_true]
  simp only [beq_iff_eq]

theorem LaidOut.derives_iff {D B : String} (hD : ∃ k ∈ p.classes, k.name = D) :
    t.isDerivedFrom D B = true ↔ Relation.ReflTransGen p.Isa D B := by
  rw [h.isDerivedFrom_iff hD]
  constructor
  · rintro ⟨q, hq, rfl⟩
    exact (reach_of_part h.declares hq).1
  · intro hreach
    exact exists_part h.declares h.acyclic hD hreach (rank_lt_depth h.declares D)

theorem LaidOut.baseOffset_isOk_iff {D B : String} (hD : ∃ k ∈ p.classes, k.name = D) :
    (∃ off, t.baseOffset D B = .ok off) ↔ t.isDerivedFrom D B = true := by
  rw [h.isDerivedFrom_iff hD]
  constructor
  · rintro ⟨off, hoff⟩
    obtain ⟨q, hq, -⟩ := (h.baseOffset_eq_ok hD).1 hoff
    exact ⟨q, List.mem_of_find?_eq_some hq, by simpa using List.find?_some hq⟩
  · rintro ⟨q, hq, hn⟩
    have hsome : ((t.parts t.depth D).find? (·.name == B)).isSome = true :=
      List.find?_isSome.2 ⟨q, hq, beq_iff_eq.2 hn⟩
    obtain ⟨q', hq'⟩ := Option.isSome_iff_exists.1 hsome
    exact ⟨q'.pos, (h.baseOffset_eq_ok hD).2 ⟨q', hq', rfl⟩⟩

theorem LaidOut.memberOffset_base {D m : String} (hD : ∃ k ∈ p.classes, k.name = D) {off : Int64}
    {e : Located} (hf : t.memberOffset D m = .ok (off, e)) :
    ∃ base o, t.baseOffset D (t.scopeName e.scope) = .ok base ∧ e.entry.offset = some o
      ∧ off = base + o := by
  obtain ⟨before, q, after, hqs, hbefore, hq, rfl⟩ := (h.memberOffset_eq_ok hD).1 hf
  obtain ⟨i, s, hs, his, hscope, hmem, hk, -⟩ := of_ownMember hq
  have hname : t.scopeName e.scope = q.name := by
    rw [Table.scopeName, hscope]
    show ((t.classes[i]?).map Scope.name).getD "" = q.name
    rw [his]
    exact (h.declares.of_class? hs).2.1
  obtain ⟨o, ho⟩ := Option.ne_none_iff_exists'.1
    (h.membersPlaced s (List.mem_of_getElem? his) e.entry hmem (by rw [hk]; rfl))
  refine ⟨q.pos, o, (h.baseOffset_eq_ok hD).2 ⟨q, ?_, rfl⟩, ho, by rw [ho]; rfl⟩
  rw [hname, hqs, List.find?_append]
  -- No part before declares the member, so none before belongs to the class that does.
  have hfirst : before.find? (·.name == q.name) = none := by
    refine List.find?_eq_none.2 fun x hx hn => ?_
    have hx := hbefore x hx
    rw [eq_of_beq hn, hq] at hx
    cases hx
  rw [hfirst, List.find?_cons, beq_self_eq_true]
  rfl

theorem LaidOut.member_own (hbound : p.Bounded sizes) {D m : String} {depth : ℕ} {q : Part}
    (hq : q ∈ t.parts depth D) {e : Located} (he : t.ownMember q.name m = some e) :
    e.entry.size ≠ none ∧ (q.pos + e.entry.offset.getD 0).toInt
        = q.pos.toInt + (e.entry.offset.getD 0).toInt
      ∧ span (q.pos + e.entry.offset.getD 0) e.entry.size ⊆ q.own t := by
  obtain ⟨i, s, hs, his, -, hmem, hk, -⟩ := of_ownMember he
  have hsm := List.mem_of_getElem? his
  have hstorage : e.entry.kind.isStorage = true := by rw [hk]; rfl
  have hclass := List.mem_append_left t.functions hsm
  obtain ⟨-, hn, hlt, -, hbytes⟩ := h.class_bytes hbound hs
  have htop : t.ownTop q.name = (t.ownBase s).toInt := by rw [Table.ownTop, hs]; rfl
  have hnonpos := h.ownTop_nonpos hbound q.name
  have htiled := h.classes s hsm
  rw [h.based hbound s hsm] at htiled
  obtain ⟨o, ho, hhigh, hlow⟩ := (tiled_bounds htiled (fun e he hk => h.entry_nonneg hclass he hk)
    (by omega)).1 e.entry hmem hstorage
  obtain ⟨hpos, hinside⟩ := (stacked_parts h hbound depth D).inside q hq
  have hesize := h.entry_nonneg hclass hmem hstorage
  have hD : bytesOf (t.classSize D) < 2 ^ 63 := Int64.toInt_lt _
  have hsum : (q.pos + o).toInt = q.pos.toInt + o.toInt := toInt_add_of_le hpos (by omega) (by omega)
  rw [ho, Option.getD_some]
  refine ⟨h.sized s hclass e.entry (List.mem_filter.2 ⟨hmem, hstorage⟩), hsum, ?_⟩
  unfold span Part.own
  rw [hsum]
  exact Set.Ioc_subset_Ioc (by omega) (by omega)

theorem LaidOut.members_disjoint (hbound : p.Bounded sizes) {D m m' : String}
    (hD : ∃ k ∈ p.classes, k.name = D) (hne : m' ≠ m) {off off' : Int64} {e e' : Located}
    (hf : t.memberOffset D m = .ok (off, e)) (hf' : t.memberOffset D m' = .ok (off', e')) :
    Disjoint (span off e.entry.size) (span off' e'.entry.size) := by
  obtain ⟨before, q, after, hqs, -, hq, rfl⟩ := (h.memberOffset_eq_ok hD).1 hf
  obtain ⟨before', q', after', hqs', -, hq', rfl⟩ := (h.memberOffset_eq_ok hD).1 hf'
  have hmem : q ∈ t.parts t.depth D := by rw [hqs]; simp
  have hmem' : q' ∈ t.parts t.depth D := by rw [hqs']; simp
  obtain ⟨-, hoff, hown⟩ := h.member_own hbound hmem hq
  obtain ⟨-, hoff', hown'⟩ := h.member_own hbound hmem' hq'
  by_cases hqq : q = q'
  · -- One part: its class places its members one below the other.
    subst hqq
    obtain ⟨i, s, hs, his, -, he, hk, hn⟩ := of_ownMember hq
    obtain ⟨i', s', hs', -, -, he', hk', hn'⟩ := of_ownMember hq'
    cases hs.symm.trans hs'
    have hsm := List.mem_of_getElem? his
    have hclass := List.mem_append_left t.functions hsm
    obtain ⟨-, -, hlt, -, hbytes⟩ := h.class_bytes hbound hs
    have htop : t.ownTop q.name = (t.ownBase s).toInt := by rw [Table.ownTop, hs]; rfl
    have htiled := h.classes s hsm
    rw [h.based hbound s hsm] at htiled
    have hpair := (tiled_bounds htiled (fun e he hk => h.entry_nonneg hclass he hk) (by omega)).2
    have hstorage : e.entry ∈ s.storage := List.mem_filter.2 ⟨he, by rw [hk]; rfl⟩
    have hstorage' : e'.entry ∈ s.storage := List.mem_filter.2 ⟨he', by rw [hk']; rfl⟩
    obtain ⟨o, ho⟩ := Option.ne_none_iff_exists'.1
      (h.membersPlaced s hsm e.entry he (by rw [hk]; rfl))
    obtain ⟨o', ho'⟩ := Option.ne_none_iff_exists'.1
      (h.membersPlaced s hsm e'.entry he' (by rw [hk']; rfl))
    have hentries : e.entry ≠ e'.entry := by
      intro heq
      exact hne (by rw [← hn, ← hn', heq])
    rw [ho, Option.getD_some] at hoff ⊢
    rw [ho', Option.getD_some] at hoff' ⊢
    unfold span
    rw [hoff, hoff']
    rcases below_or_below hpair hstorage hstorage' hentries with hb | hb
    · have := hb o o' ho ho'
      exact (Set.Ioc_disjoint_Ioc_of_le (by omega)).symm
    · have := hb o' o ho' ho
      exact Set.Ioc_disjoint_Ioc_of_le (by omega)
  · have : Std.Symm fun q q' : Part => Disjoint (q.own t) (q'.own t) := ⟨fun _ _ hd => hd.symm⟩
    have hdis := (stacked_parts h hbound t.depth D).apart.forall hmem hmem' hqq
    exact hdis.mono hown hown'

theorem LaidOut.base_inside (hbound : p.Bounded sizes) {D B : String}
    (hD : ∃ k ∈ p.classes, k.name = D) {off : Int64} (hf : t.baseOffset D B = .ok off) :
    t.classSize B ≠ none ∧ span off (t.classSize B) ⊆ span 0 (t.classSize D) := by
  obtain ⟨q, hq, rfl⟩ := (h.baseOffset_eq_ok hD).1 hf
  have hmem := List.mem_of_find?_eq_some hq
  obtain rfl : q.name = B := by simpa using List.find?_some hq
  obtain ⟨s, hs⟩ := Option.isSome_iff_exists.1 (reach_of_part h.declares hmem).2
  obtain ⟨hpos, hinside⟩ := (stacked_parts h hbound t.depth D).inside q hmem
  refine ⟨(h.class_bytes hbound hs).1, Set.Ioc_subset_Ioc ?_ ?_⟩
  · rw [Int64.toInt_zero, Int.zero_sub]
    exact hinside
  · exact hpos

theorem LaidOut.member_inside (hbound : p.Bounded sizes) {D m : String}
    (hD : ∃ k ∈ p.classes, k.name = D) {off : Int64} {e : Located}
    (hf : t.memberOffset D m = .ok (off, e)) :
    e.entry.size ≠ none ∧ span off e.entry.size ⊆ span 0 (t.classSize D) := by
  obtain ⟨before, q, after, hqs, -, hq, rfl⟩ := (h.memberOffset_eq_ok hD).1 hf
  have hmem : q ∈ t.parts t.depth D := by rw [hqs]; simp
  obtain ⟨hsize, -, hown⟩ := h.member_own hbound hmem hq
  have hinside := (stacked_parts h hbound t.depth D).own_subset h hbound hmem
  refine ⟨hsize, hown.trans (hinside.trans (Set.Ioc_subset_Ioc ?_ (le_refl _)))⟩
  rw [Int64.toInt_zero, Int.zero_sub]

theorem LaidOut.methods_derived {D n : String} (hD : ∃ k ∈ p.classes, k.name = D) {i : Nat}
    (hi : i ∈ t.methods D n) :
    ∃ f, t.program.functions[i]? = some f ∧ f.name = n ∧ t.isDerivedFrom D f.className = true := by
  rw [Table.methods, Table.methodsFrom_eq] at hi
  cases hf : (t.parts t.depth D).findSome? fun q => t.ownMethods q.name n with
  | none =>
    rw [hf] at hi
    cases hi
  | some found =>
    rw [hf, Option.getD_some] at hi
    obtain ⟨q, hq, hown⟩ := List.exists_of_findSome?_eq_some hf
    unfold Table.ownMethods at hown
    split at hown
    · cases hown
    · cases hown
      obtain ⟨f, hf, hany⟩ := (Option.any_eq_true _ _).1 (List.mem_filter.1 hi).2
      simp only [Bool.and_eq_true, beq_iff_eq] at hany
      exact ⟨f, hf, hany.1.2, (h.isDerivedFrom_iff hD).2 ⟨q, hq, hany.1.1.symm⟩⟩

end

/-- All searches through the inheritance of a class agree, and what they find lies in the object. -/
theorem lookups_agree {p : Program} {t : Table} {c : Config} {l : Layout}
    (hb : Table.build p = .ok t) (hc : c.validate = .ok ())
    (hr : (ofTable t c).resolve = (.ok (), l)) (hbound : p.Bounded c.sizes) {D : String}
    (hD : ∃ k ∈ p.classes, k.name = D) :
    (∀ m, (l.table.memberOffset D m).toOption.map Prod.snd = l.table.member? D m)
    ∧ (∀ m off e, l.table.memberOffset D m = .ok (off, e) →
      (∃ base o, l.table.baseOffset D (l.table.scopeName e.scope) = .ok base
        ∧ e.entry.offset = some o ∧ off = base + o)
      ∧ e.entry.size ≠ none ∧ span off e.entry.size ⊆ span 0 (l.table.classSize D)
      ∧ ∀ m' off' e', m' ≠ m → l.table.memberOffset D m' = .ok (off', e') →
        Disjoint (span off e.entry.size) (span off' e'.entry.size))
    ∧ (∀ B, ((∃ off, l.table.baseOffset D B = .ok off) ↔ l.table.isDerivedFrom D B = true)
      ∧ (l.table.isDerivedFrom D B = true ↔ Relation.ReflTransGen p.Isa D B)
      ∧ ∀ off, l.table.baseOffset D B = .ok off →
        l.table.classSize B ≠ none ∧ span off (l.table.classSize B) ⊆ span 0 (l.table.classSize D))
    ∧ ∀ n, ∀ i ∈ l.table.methods D n, ∃ f, l.table.program.functions[i]? = some f
      ∧ f.name = n ∧ l.table.isDerivedFrom D f.className = true := by
  have h := laidOut_of_resolve hb (Config.proper_of_validate hc) hr
  refine ⟨h.member?_eq hD, fun m off e hf => ?_, fun B => ?_, fun n i hi => h.methods_derived hD hi⟩
  · obtain ⟨hsize, hinside⟩ := h.member_inside hbound hD hf
    exact ⟨h.memberOffset_base hD hf, hsize, hinside,
      fun m' off' e' hne hf' => h.members_disjoint hbound hD hne hf hf'⟩
  · exact ⟨h.baseOffset_isOk_iff hD, h.derives_iff hD, fun off hf => h.base_inside hbound hD hf⟩

/-- A class that inherits from one class over two others, one of which it lists twice. -/
def diamond : Program :=
  ⟨[⟨"Top", [], [⟨"a", .integer⟩]⟩, ⟨"Left", ["Top"], [⟨"b", .float⟩]⟩,
      ⟨"Right", ["Top"], [⟨"c", .integer⟩]⟩,
      ⟨"Bottom", ["Left", "Right", "Left"], [⟨"d", .integer⟩]⟩],
    [{ name := "main", className := "", isConstructor := false, params := [], returns := .void,
       body := [.declare ⟨"x", .object "Bottom"⟩ .missing] }]⟩

/-- The inherited members of `Right` start below all that comes from `Left`. -/
theorem lookups_agree_diamond : ∃ t l, Table.build diamond = .ok t
    ∧ (ofTable t {}).resolve = (.ok (), l) ∧ l.table.baseOffset "Bottom" "Right" = .ok (-12)
    ∧ (l.table.memberOffset "Bottom" "c").toOption.map Prod.fst = some (-16)
    ∧ span (-12) (l.table.classSize "Right") ⊆ span 0 (l.table.classSize "Bottom")
    ∧ Relation.ReflTransGen diamond.Isa "Bottom" "Right" := by
  obtain ⟨t, hb, hcheck⟩ := of_tableChecks diamond (fun t =>
    fitsAt diamond {} (supplied t "main") 4 && (ofTable t {}).resolve.1.isOk
      && ((ofTable t {}).resolve.2.table.baseOffset "Bottom" "Right").toOption == some (-12)
      && ((ofTable t {}).resolve.2.table.memberOffset "Bottom" "c").toOption.map Prod.fst
        == some (-16)) (by decide +kernel)
  simp only [Bool.and_eq_true, beq_iff_eq] at hcheck
  obtain ⟨⟨⟨hfit, hok⟩, hbase⟩, hmember⟩ := hcheck
  have hres := resolve_of_isOk hok
  have hbase : (ofTable t {}).resolve.2.table.baseOffset "Bottom" "Right" = .ok (-12) := by
    cases hr : (ofTable t {}).resolve.2.table.baseOffset "Bottom" "Right" with
    | ok off =>
      rw [hr] at hbase
      cases hbase
      rfl
    | error f =>
      rw [hr] at hbase
      cases hbase
  obtain ⟨-, -, hbases, -⟩ := lookups_agree hb (c := {}) rfl hres (fits_of_fitsAt hfit).classes
    (D := "Bottom") ⟨⟨"Bottom", ["Left", "Right", "Left"], [⟨"d", .integer⟩]⟩, by decide, rfl⟩
  obtain ⟨hiff, hreach, hinside⟩ := hbases "Right"
  exact ⟨t, _, hb, hres, hbase, hmember, (hinside _ hbase).2, hreach.1 (hiff.1 ⟨_, hbase⟩)⟩

end MoonBackend
