import MoonBackend.Proofs.Layout.Laid
import MoonBackend.Proofs.Symbols.Search

/-!
# The parts of an object

An object of a class consists of the parts of the class and of all classes that it inherits from,
as often as it does. Every search through the inheritance of a class goes through these parts in
one order, and finds the first that it is looking for.
-/

namespace MoonBackend

open Layout

/-- A part of an object: the class that it belongs to, and where it starts. -/
structure Part where
  name : String
  pos : Int64
  deriving DecidableEq

/-- The part in an object that holds its object at a position. -/
def Part.shift (pos : Int64) (q : Part) : Part := ⟨q.name, pos + q.pos⟩

namespace Table

def partsBelow (t : Table) (parts : String → List Part) : Int64 → List String → List Part
  | _, [] => []
  | pos, b :: bs =>
    (parts b).map (Part.shift pos) ++ t.partsBelow parts (pos - t.classWord b) bs

/-- The parts of an object of a class, in the order in which they are searched. -/
def parts (t : Table) : ℕ → String → List Part
  | 0, _ => []
  | depth + 1, name =>
    match t.class? name with
    | none => []
    | some s => ⟨name, 0⟩ :: t.partsBelow (t.parts depth) 0 (t.baseNames s)

def ownMember (t : Table) (className name : String) : Option Located :=
  (t.class? className).bind fun s =>
    ((s.lookup name).filter (·.kind == .member)).map
      (⟨.ofClass ((t.classIndex? className).getD 0), ·⟩)

def methodsOf (t : Table) (className name : String) : List Nat :=
  t.functionsWhere fun f => f.className == className && f.name == name && !f.isConstructor

def ownMethods (t : Table) (className name : String) : Option (List Nat) :=
  if (t.methodsOf className name).isEmpty then none else some (t.methodsOf className name)

/-! ### Every search is a search of the parts -/

section

variable {t : Table} {parts : String → List Part}

theorem partsBelow_congr {parts' : String → List Part} {bs : List String}
    (h : ∀ b ∈ bs, parts b = parts' b) (pos : Int64) :
    t.partsBelow parts pos bs = t.partsBelow parts' pos bs := by
  induction bs generalizing pos with
  | nil => rfl
  | cons b bs ih =>
    rw [partsBelow, partsBelow, h b List.mem_cons_self,
      ih fun x hx => h x (List.mem_cons_of_mem _ hx)]

theorem mem_partsBelow {q : Part} {pos : Int64}
    {bs : List String} (h : q ∈ t.partsBelow parts pos bs) :
    ∃ b ∈ bs, ∃ q' ∈ parts b, q'.name = q.name := by
  induction bs generalizing pos with
  | nil => cases h
  | cons b bs ih =>
    rcases List.mem_append.1 h with h | h
    · obtain ⟨q', hq', rfl⟩ := List.mem_map.1 h
      exact ⟨b, List.mem_cons_self, q', hq', rfl⟩
    · obtain ⟨b', hb', rest⟩ := ih h
      exact ⟨b', List.mem_cons_of_mem _ hb', rest⟩

theorem exists_partsBelow {name b : String}
    {bs : List String} (hb : b ∈ bs) (h : ∃ q ∈ parts b, q.name = name) (pos : Int64) :
    ∃ q ∈ t.partsBelow parts pos bs, q.name = name := by
  induction bs generalizing pos with
  | nil => cases hb
  | cons b' bs ih =>
    rcases List.mem_cons.1 hb with rfl | hb
    · obtain ⟨q, hq, hn⟩ := h
      exact ⟨q.shift pos, List.mem_append_left _ (List.mem_map_of_mem hq), hn⟩
    · obtain ⟨q, hq, hn⟩ := ih hb (pos - t.classWord b')
      exact ⟨q, List.mem_append_right _ hq, hn⟩

theorem findSome?_partsBelow {β : Type} (g : String → Option β) (pos : Int64) (bs : List String) :
    (t.partsBelow parts pos bs).findSome? (fun q => g q.name)
      = bs.findSome? fun b => (parts b).findSome? fun q => g q.name := by
  induction bs generalizing pos with
  | nil => rfl
  | cons b bs ih =>
    rw [partsBelow, List.findSome?_append, List.findSome?_map, ih, List.findSome?_cons]
    show ((parts b).findSome? fun q => g q.name).or _ = _
    cases (parts b).findSome? fun q => g q.name with
    | none => rfl
    | some a => rfl

theorem any_partsBelow (base : String) (pos : Int64) (bs : List String) :
    (t.partsBelow parts pos bs).any (·.name == base)
      = bs.any fun b => (parts b).any (·.name == base) := by
  induction bs generalizing pos with
  | nil => rfl
  | cons b bs ih =>
    rw [partsBelow, List.any_append, List.any_map, ih, List.any_cons]
    rfl

/-- What is found at a part, moved to where the part is. -/
def foundAt {β : Type} (g : String → Option (Int64 × β)) (q : Part) : Option (Int64 × β) :=
  (g q.name).map fun a => (q.pos + a.1, a.2)

theorem findSome?_shift {β : Type} (g : String → Option (Int64 × β)) (pos : Int64) (qs : List Part) :
    (qs.map (Part.shift pos)).findSome? (foundAt g)
      = (qs.findSome? (foundAt g)).map fun a => (pos + a.1, a.2) := by
  rw [List.findSome?_map, List.map_findSome?]
  congr 1
  funext q
  show (g q.name).map (fun a => (pos + q.pos + a.1, a.2))
    = ((g q.name).map fun a => (q.pos + a.1, a.2)).map fun a => (pos + a.1, a.2)
  cases g q.name with
  | none => rfl
  | some a => exact congrArg (fun o => some (o, a.2)) (Int64.add_assoc pos q.pos a.1)

theorem firstBelow_eq {β : Type} {g : String → Option (Int64 × β)}
    {search : String → Except Fault (Option (Int64 × β))} {bs : List String}
    (h : ∀ b ∈ bs, search b = .ok ((parts b).findSome? (foundAt g))) (pos : Int64) :
    t.firstBelow search pos bs = .ok ((t.partsBelow parts pos bs).findSome? (foundAt g)) := by
  induction bs generalizing pos with
  | nil => rfl
  | cons b bs ih =>
    rw [firstBelow, h b List.mem_cons_self, partsBelow, List.findSome?_append, findSome?_shift]
    cases (parts b).findSome? (foundAt g) with
    | none => exact ih (fun x hx => h x (List.mem_cons_of_mem _ hx)) _
    | some a => rfl

theorem firstBaseBelow_eq {base : String} {search : String → Option Int64} {bs : List String}
    (h : ∀ b ∈ bs, search b = ((parts b).find? (·.name == base)).map Part.pos) (pos : Int64) :
    t.firstBaseBelow search pos bs
      = ((t.partsBelow parts pos bs).find? (·.name == base)).map Part.pos := by
  induction bs generalizing pos with
  | nil => rfl
  | cons b bs ih =>
    have hshift : ((parts b).map (Part.shift pos)).find? (·.name == base)
        = ((parts b).find? (·.name == base)).map (Part.shift pos) := List.find?_map ..
    rw [firstBaseBelow, h b List.mem_cons_self, partsBelow, List.find?_append, hshift]
    cases (parts b).find? (·.name == base) with
    | none => exact ih (fun x hx => h x (List.mem_cons_of_mem _ hx)) _
    | some q => rfl

end

theorem memberFrom_eq (t : Table) (depth : ℕ) (className name : String) :
    t.memberFrom depth className name
      = (t.parts depth className).findSome? fun q => t.ownMember q.name name := by
  induction depth generalizing className with
  | zero => rfl
  | succ depth ih =>
    rw [memberFrom_succ, parts]
    cases hs : t.class? className with
    | none => rfl
    | some s =>
      have hbelow := @findSome?_partsBelow t (t.parts depth) _
        (fun c => t.ownMember c name) 0 (t.baseNames s)
      have hown : t.ownMember className name
          = ((s.lookup name).filter (·.kind == .member)).map
            (⟨.ofClass ((t.classIndex? className).getD 0), ·⟩) := by
        rw [ownMember, hs]
        rfl
      simp only [List.findSome?_cons, hown, hbelow, ← ih]
      cases (s.lookup name).filter (·.kind == .member) with
      | none => rfl
      | some e => rfl

theorem methodsFrom_eq (t : Table) (depth : ℕ) (className name : String) :
    t.methodsFrom depth className name
      = ((t.parts depth className).findSome? fun q => t.ownMethods q.name name).getD [] := by
  induction depth generalizing className with
  | zero => rfl
  | succ depth ih =>
    rw [methodsFrom, parts]
    cases hs : t.class? className with
    | none => rfl
    | some s =>
      have hbelow := @findSome?_partsBelow t (t.parts depth) _
        (fun c => t.ownMethods c name) 0 (t.baseNames s)
      have hsome : ∀ b, (if (t.methodsFrom depth b name).isEmpty then none
          else some (t.methodsFrom depth b name))
            = (t.parts depth b).findSome? fun q => t.ownMethods q.name name := by
        intro b
        rw [ih b]
        cases hf : (t.parts depth b).findSome? fun q => t.ownMethods q.name name with
        | none => rfl
        | some found =>
          obtain ⟨q, -, hq⟩ := List.exists_of_findSome?_eq_some hf
          unfold ownMethods at hq
          split at hq
          · cases hq
          · rename_i hne
            cases hq
            exact if_neg hne
      simp only [List.findSome?_cons, hbelow, hsome]
      have hown : t.ownMethods className name = if (t.methodsOf className name).isEmpty then none
        else some (t.methodsOf className name) := rfl
      show (if (t.methodsOf className name).isEmpty = true then _ else t.methodsOf className name) = _
      rw [hown]
      by_cases he : (t.methodsOf className name).isEmpty = true
      · rw [if_pos he, if_pos he]
      · rw [if_neg he, if_neg he]
        rfl

theorem isSome_of_mem_baseNames {t : Table} {s : Scope} {b : String} (h : b ∈ t.baseNames s) :
    (t.class? b).isSome = true := by
  unfold baseNames at h
  split at h
  · exact (List.mem_filter.1 h).2
  · cases h

theorem baseOffsetFrom_eq (t : Table) (depth : ℕ) (base : String) {className : String}
    (hc : (t.class? className).isSome = true) :
    t.baseOffsetFrom depth className base
      = ((t.parts depth className).find? (·.name == base)).map Part.pos := by
  induction depth generalizing className with
  | zero => rfl
  | succ depth ih =>
    obtain ⟨s, hs⟩ := Option.isSome_iff_exists.1 hc
    have hbelow := firstBaseBelow_eq (t := t) (fun b (hb : b ∈ t.baseNames s) => ih (isSome_of_mem_baseNames hb)) 0
    rw [baseOffsetFrom, parts, hs, List.find?_cons]
    cases className == base with
    | true => rfl
    | false => exact hbelow

def ownPlace (t : Table) (name className : String) : Option (Int64 × Located) :=
  (t.ownMember className name).map fun l => (l.entry.offset.getD 0, l)

def MembersPlaced (t : Table) : Prop :=
  ∀ s ∈ t.classes, ∀ e ∈ s.entries, e.kind.isStorage = true → e.offset ≠ none

theorem memberOffsetFrom_eq {t : Table} (hp : t.MembersPlaced) (depth : ℕ) (name : String)
    {className : String} (hc : (t.class? className).isSome = true) :
    t.memberOffsetFrom depth className name
      = .ok ((t.parts depth className).findSome? (foundAt (t.ownPlace name))) := by
  induction depth generalizing className with
  | zero => rfl
  | succ depth ih =>
    rcases t.class?_cases className with ⟨hnone, -⟩ | ⟨i, s, hs, hi, his⟩
    · rw [hnone] at hc
      cases hc
    · have hbelow := firstBelow_eq (t := t)
        (fun b (hb : b ∈ t.baseNames s) => ih (isSome_of_mem_baseNames hb)) 0
      have hown : t.ownPlace name className
          = ((s.lookup name).filter (·.kind == .member)).map
            fun e => (e.offset.getD 0, ⟨.ofClass i, e⟩) := by
        rw [ownPlace, ownMember, hs, hi]
        exact Option.map_map ..
      rw [memberOffsetFrom, parts, hs, hi]
      simp only [his, List.findSome?_cons, foundAt, hown]
      cases hf : (s.lookup name).filter (·.kind == .member) with
      | none => exact hbelow
      | some e =>
        obtain ⟨hlook, hk⟩ := Option.filter_eq_some_iff.1 hf
        have hkind : e.kind = .member := eq_of_beq hk
        have hmem : e ∈ s.entries := by
          unfold Scope.lookup at hlook
          split at hlook
          · cases hlook
          · exact List.mem_of_find?_eq_some hlook
        obtain ⟨o, ho⟩ := Option.ne_none_iff_exists'.1
          (hp s (List.mem_of_getElem? his) e hmem (by rw [hkind]; rfl))
        simp only [Entry.getOffset, ho, Option.map_some, Option.getD_some, Int64.zero_add]
        rfl

section

variable {p : Program} {t : Table} (hd : Declares p t)

include hd

theorem Declares.baseNames_iff {c b : String} {s : Scope} (hs : t.class? c = some s) :
    b ∈ t.baseNames s ↔ p.Isa c b := by
  obtain ⟨-, -, k, hk, hdec⟩ := hd.of_class? hs
  obtain ⟨hkm, hkn⟩ := (Program.class?_eq_some_iff hd.nodup).1 hk
  rw [hd.baseNames hkm hdec]
  constructor
  · exact fun hb => ⟨k, hkm, hkn, hb⟩
  · rintro ⟨k', hk', hn, hb⟩
    cases hk.symm.trans ((Program.class?_eq_some_iff hd.nodup).2 ⟨hk', hn⟩)
    exact hb

theorem Declares.derivedFrom_eq (depth : ℕ) (base : String) {className : String}
    (hc : (t.class? className).isSome = true) :
    t.derivedFrom depth className base = (t.parts depth className).any (·.name == base) := by
  induction depth generalizing className with
  | zero => rfl
  | succ depth ih =>
    obtain ⟨s, hs⟩ := Option.isSome_iff_exists.1 hc
    obtain ⟨-, -, k, hk, hdec⟩ := hd.of_class? hs
    obtain ⟨i, hback⟩ := hdec.backing
    have hbases := hd.baseNames ((Program.class?_eq_some_iff hd.nodup).1 hk).1 hdec
    rw [derivedFrom, parts, hs, List.any_cons, any_partsBelow, hbases]
    simp only [hback]
    congr 1
    rw [Bool.eq_iff_iff, List.any_eq_true, List.any_eq_true]
    refine exists_congr fun b => and_congr_right fun hb => ?_
    rw [ih (isSome_of_mem_baseNames (hbases ▸ hb))]

end

end Table

/-! ### How far the bases of a class reach -/

theorem acyclicInheritance_of_acyclic {p : Program} (hac : p.Acyclic) : p.AcyclicInheritance := by
  intro c h
  refine hac c (Relation.TransGen.mono (fun a b hab => ?_) c c h)
  obtain ⟨k, hk, hn, hb⟩ := hab
  exact ⟨k, hk, hn, .inl hb⟩

section

variable {p : Program} {t : Table} (hd : Table.Declares p t)

include hd

theorem parts_of_rank (hac : p.Acyclic) {c : String} {d d' : ℕ} (h : p.rank c < d)
    (h' : p.rank c < d') : t.parts d c = t.parts d' c := by
  induction d generalizing c d' with
  | zero => cases h
  | succ d ih =>
    obtain ⟨d', rfl⟩ := Nat.exists_eq_succ_of_ne_zero (Nat.ne_of_gt (Nat.zero_lt_of_lt h'))
    rw [Table.parts, Table.parts]
    cases hs : t.class? c with
    | none => rfl
    | some s =>
      simp only [List.cons.injEq, true_and]
      refine Table.partsBelow_congr (fun b hb => ?_) 0
      have hlt := rank_lt hd (acyclicInheritance_of_acyclic hac) ((hd.baseNames_iff hs).1 hb)
      exact ih (by omega) (by omega)

/-- The parts of an object belong to the class and to those that it inherits from. -/
theorem reach_of_part {d : ℕ} {c : String} {q : Part} (h : q ∈ t.parts d c) :
    Relation.ReflTransGen p.Isa c q.name ∧ (t.class? q.name).isSome = true := by
  induction d generalizing c q with
  | zero => cases h
  | succ d ih =>
    rw [Table.parts] at h
    cases hs : t.class? c with
    | none =>
      rw [hs] at h
      cases h
    | some s =>
      rw [hs] at h
      rcases List.mem_cons.1 h with rfl | h
      · exact ⟨.refl, by rw [hs]; rfl⟩
      · obtain ⟨b, hb, q', hq', hn⟩ := Table.mem_partsBelow h
        obtain ⟨hreach, hsome⟩ := ih hq'
        exact hn ▸ ⟨.head ((hd.baseNames_iff hs).1 hb) hreach, hsome⟩

theorem exists_part (hac : p.Acyclic) {d : ℕ} {c b : String} (hc : ∃ k ∈ p.classes, k.name = c)
    (hreach : Relation.ReflTransGen p.Isa c b) (h : p.rank c < d) :
    ∃ q ∈ t.parts d c, q.name = b := by
  induction d generalizing c with
  | zero => cases h
  | succ d ih =>
    obtain ⟨s, hs⟩ := hd.exists_class? hc
    rw [Table.parts, hs]
    rcases Relation.ReflTransGen.cases_head hreach with rfl | ⟨x, hx, hreach⟩
    · exact ⟨⟨c, 0⟩, List.mem_cons_self, rfl⟩
    · obtain ⟨k, hk, hn, hxb⟩ := hx
      have hlt := rank_lt hd (acyclicInheritance_of_acyclic hac) ⟨k, hk, hn, hxb⟩
      obtain ⟨q, hq, hqn⟩ := Table.exists_partsBelow ((hd.baseNames_iff hs).2 ⟨k, hk, hn, hxb⟩)
        (ih (hd.bases k hk x hxb) hreach (by omega)) 0
      exact ⟨q, List.mem_cons_of_mem _ hq, hqn⟩

end

end MoonBackend
