import Mathlib.Data.List.Forall2
import MoonBackend.Layout.Resolve

/-!
# Layouts on their way

While a layout is resolved, sizes, offsets and bases are filled in and nothing that is filled in
changes again. `Later` is that order on entries, scopes and tables. Look-ups by name, by node and by
class find the same thing at every later time, and a size that is known stays.
-/

namespace MoonBackend

/-! ### Pairs of lists -/

namespace Layout

variable {α β : Type} {R : α → β → Prop} {l : List α} {l' : List β}

theorem of_rel_some {a : α} {o : Option β} (h : Option.Rel R (some a) o) : ∃ b, o = some b ∧ R a b := by
  cases h with
  | some hab => exact ⟨_, rfl, hab⟩

theorem of_rel_none {o : Option β} (h : Option.Rel R none o) : o = none := by
  cases h
  rfl

theorem rel_find {p : α → Bool} {q : β → Bool} (h : List.Forall₂ R l l')
    (hp : ∀ a b, R a b → p a = q b) : Option.Rel R (l.find? p) (l'.find? q) := by
  induction h with
  | nil => exact .none
  | @cons a b as bs hab _ ih =>
    rw [List.find?_cons, List.find?_cons, ← hp a b hab]
    cases p a with
    | true => exact .some hab
    | false => exact ih

theorem rel_getElem? (h : List.Forall₂ R l l') (i : Nat) : Option.Rel R l[i]? l'[i]? := by
  induction h generalizing i with
  | nil => simp
  | cons hab _ ih =>
    cases i with
    | zero => simpa using Option.Rel.some hab
    | succ i => simpa using ih i

theorem rel_set (h : List.Forall₂ R l l') {a : α} {b : β} (hab : R a b) (i : Nat) :
    List.Forall₂ R (l.set i a) (l'.set i b) := by
  induction h generalizing i with
  | nil => exact .nil
  | cons hcd h ih =>
    cases i with
    | zero => exact .cons hab h
    | succ i => exact .cons hcd (ih i)

theorem forall₂_of_set {S : α → α → Prop} (hrefl : ∀ a, S a a) {as : List α} {i : Nat} {a a' : α}
    (hi : as[i]? = some a) (h : S a a') : List.Forall₂ S as (as.set i a') := by
  have hset : as.set i a = as := by
    obtain ⟨hlt, rfl⟩ := List.getElem?_eq_some_iff.1 hi
    exact List.set_getElem_self hlt
  have hsame := rel_set (List.forall₂_same.2 fun x _ => hrefl x : List.Forall₂ S as as) h i
  rwa [hset] at hsame

theorem forall₂_trans {S : α → α → Prop} {as bs cs : List α} (h : List.Forall₂ S as bs)
    (h' : List.Forall₂ S bs cs) (htrans : ∀ a b c, S a b → S b c → S a c) :
    List.Forall₂ S as cs := by
  induction h generalizing cs with
  | nil => exact h'
  | cons hab _ ih =>
    cases h' with
    | cons hbc hrest => exact .cons (htrans _ _ _ hab hbc) (ih hrest)

theorem mem_right (h : List.Forall₂ R l l') {b : β} (hb : b ∈ l') : ∃ a ∈ l, R a b := by
  induction h with
  | nil => cases hb
  | cons hab _ ih =>
    rcases List.mem_cons.1 hb with rfl | hb
    · exact ⟨_, List.mem_cons_self, hab⟩
    · obtain ⟨a, ha, hr⟩ := ih hb
      exact ⟨a, List.mem_cons_of_mem _ ha, hr⟩

theorem mem_left (h : List.Forall₂ R l l') {a : α} (ha : a ∈ l) : ∃ b ∈ l', R a b := by
  induction h with
  | nil => cases ha
  | cons hab _ ih =>
    rcases List.mem_cons.1 ha with rfl | ha
    · exact ⟨_, List.mem_cons_self, hab⟩
    · obtain ⟨b, hb, hr⟩ := ih ha
      exact ⟨b, List.mem_cons_of_mem _ hb, hr⟩

end Layout

open Layout

/-! ### Entries -/

/-- The same entry, with what was open perhaps filled in. -/
structure Entry.Later (e e' : Entry) : Prop where
  kind : e'.kind = e.kind
  name : e'.name = e.name
  type : e'.type = e.type
  backing : e'.backing = e.backing
  size : ∀ n, e.size = some n → e'.size = some n
  offset : ∀ o, e.offset = some o → e'.offset = some o

namespace Entry.Later

theorem refl (e : Entry) : e.Later e :=
  ⟨rfl, rfl, rfl, rfl, fun _ h => h, fun _ h => h⟩

theorem trans {e₁ e₂ e₃ : Entry} (h : e₁.Later e₂) (h' : e₂.Later e₃) : e₁.Later e₃ :=
  ⟨h'.kind.trans h.kind, h'.name.trans h.name, h'.type.trans h.type, h'.backing.trans h.backing,
    fun n hn => h'.size n (h.size n hn), fun o ho => h'.offset o (h.offset o ho)⟩

theorem of_setSize {e e' : Entry} {n : Int64} (h : e.setSize n = .ok e') :
    e.Later e' ∧ e'.size = some n ∧ 0 ≤ n := by
  unfold setSize at h
  split at h
  · cases h
  · split at h
    · cases h
    · rename_i hs hn
      have he := Except.ok.inj h
      subst he
      refine ⟨⟨rfl, rfl, rfl, rfl, fun k hk => ?_, fun _ ho => ho⟩, rfl, Int64.not_lt.1 hn⟩
      rw [hk] at hs
      exact absurd rfl hs

theorem of_setOffset {e e' : Entry} {o : Int64} (h : e.setOffset o = .ok e') :
    e' = { e with offset := some o } ∧ e.offset = none ∧ e.size.isSome = true := by
  unfold setOffset at h
  split at h
  · cases h
  · split at h
    · cases h
    · rename_i hs hn
      refine ⟨(Except.ok.inj h).symm, by simpa using hs, ?_⟩
      cases hsize : e.size with
      | none => rw [hsize] at hn; exact absurd rfl hn
      | some n => rfl

end Entry.Later

/-! ### Scopes -/

structure Scope.Later (s s' : Scope) : Prop where
  name : s'.name = s.name
  owner : s'.owner = s.owner
  parent : s'.parent = s.parent
  backing : s'.backing = s.backing
  entries : List.Forall₂ Entry.Later s.entries s'.entries
  size : ∀ n, s.size = some n → s'.size = some n
  placed : s.placed = true → s'.placed = true ∧ s'.base = s.base

namespace Scope.Later

theorem refl (s : Scope) : s.Later s :=
  ⟨rfl, rfl, rfl, rfl, List.forall₂_same.2 fun e _ => .refl e, fun _ h => h, fun h => ⟨h, rfl⟩⟩

theorem trans {s₁ s₂ s₃ : Scope} (h : s₁.Later s₂) (h' : s₂.Later s₃) : s₁.Later s₃ :=
  ⟨h'.name.trans h.name, h'.owner.trans h.owner, h'.parent.trans h.parent,
    h'.backing.trans h.backing,
    forall₂_trans h.entries h'.entries fun _ _ _ => Entry.Later.trans,
    fun n hn => h'.size n (h.size n hn), fun hp => by
      obtain ⟨h1, h2⟩ := h.placed hp
      obtain ⟨h3, h4⟩ := h'.placed h1
      exact ⟨h3, h4.trans h2⟩⟩

theorem lookup {s s' : Scope} (h : s.Later s') (name : String) :
    Option.Rel Entry.Later (s.lookup name) (s'.lookup name) := by
  unfold Scope.lookup
  split
  · exact .none
  · exact rel_find h.entries fun a b hab => by rw [hab.name]

theorem slot {s s' : Scope} (h : s.Later s') (key : Backing.Key) (kind : EntryKind) :
    Option.Rel Entry.Later (s.slot key kind) (s'.slot key kind) :=
  rel_find h.entries fun a b hab => by
    unfold Scope.backs
    rw [hab.name, hab.kind, hab.backing]

end Scope.Later

/-! ### Tables -/

structure Table.Later (t t' : Table) : Prop where
  program : t'.program = t.program
  global : t.global.Later t'.global
  classes : List.Forall₂ Scope.Later t.classes t'.classes
  functions : List.Forall₂ Scope.Later t.functions t'.functions

namespace Table.Later

variable {t t' : Table}

theorem refl (t : Table) : t.Later t :=
  ⟨rfl, .refl _, List.forall₂_same.2 fun s _ => .refl s, List.forall₂_same.2 fun s _ => .refl s⟩

theorem trans {t₁ t₂ t₃ : Table} (h : t₁.Later t₂) (h' : t₂.Later t₃) : t₁.Later t₃ :=
  ⟨h'.program.trans h.program, h.global.trans h'.global,
    forall₂_trans h.classes h'.classes fun _ _ _ => Scope.Later.trans,
    forall₂_trans h.functions h'.functions fun _ _ _ => Scope.Later.trans⟩

theorem class? (h : t.Later t') (name : String) :
    Option.Rel Scope.Later (t.class? name) (t'.class? name) :=
  rel_find h.classes fun a b hab => by rw [hab.name]

theorem baseNames (h : t.Later t') {s s' : Scope} (hs : s.Later s') :
    t'.baseNames s' = t.baseNames s := by
  unfold Table.baseNames
  rw [hs.backing]
  split
  · refine List.filter_congr fun b _ => ?_
    have hr := h.class? b
    cases hc : t.class? b with
    | none =>
      rw [hc] at hr
      rw [of_rel_none hr]
    | some s =>
      rw [hc] at hr
      obtain ⟨s', hs', -⟩ := of_rel_some hr
      rw [hs']
      rfl
  · rfl

theorem bases (h : t.Later t') {s s' : Scope} (hs : s.Later s') :
    List.Forall₂ Scope.Later (t.bases s) (t'.bases s') := by
  unfold Table.bases
  rw [h.baseNames hs]
  induction t.baseNames s with
  | nil => exact .nil
  | cons b bs ih =>
    have hr := h.class? b
    simp only [List.filterMap_cons]
    cases hc : t.class? b with
    | none =>
      rw [hc] at hr
      rw [of_rel_none hr]
      exact ih
    | some s =>
      rw [hc] at hr
      obtain ⟨s', hs', hss⟩ := of_rel_some hr
      rw [hs']
      exact .cons hss ih

/-! ### Sizes stay -/

theorem elementSize (h : t.Later t') {sizes : Sizes} {type : Ty} {n : Int64}
    (hn : t.elementSize sizes type = .ok (some n)) : t'.elementSize sizes type = .ok (some n) := by
  unfold Table.elementSize at hn ⊢
  cases hb : type.base with
  | object name =>
    rw [hb] at hn
    simp only at hn ⊢
    have hr := h.class? name
    cases hc : t.class? name with
    | none => rw [hc] at hn; cases hn
    | some s =>
      rw [hc] at hn hr
      obtain ⟨s', hs', hss⟩ := of_rel_some hr
      rw [hs']
      simp only at hn ⊢
      rw [hss.size n (Except.ok.inj hn)]
  | _ =>
    rw [hb] at hn
    exact hn

theorem sizeOf (h : t.Later t') {sizes : Sizes} {type : Ty} {n : Int64}
    (hn : t.sizeOf sizes type = .ok (some n)) : t'.sizeOf sizes type = .ok (some n) := by
  unfold Table.sizeOf at hn ⊢
  cases he : t.elementSize sizes type with
  | error f => rw [he] at hn; cases hn
  | ok size =>
    cases size with
    | none => rw [he] at hn; cases hn
    | some k =>
      rw [he] at hn
      rw [h.elementSize he]
      exact hn

theorem entrySize (h : t.Later t') {sizes : Sizes} {e e' : Entry} (he : e.Later e') {n : Int64}
    (hn : t.entrySize sizes e = .ok (some n)) : t'.entrySize sizes e' = .ok (some n) := by
  unfold Table.entrySize at hn ⊢
  rw [he.kind, he.type]
  cases hk : e.kind with
  | returnAddress | reference =>
    rw [hk] at hn
    exact hn
  | _ =>
    rw [hk] at hn
    exact h.sizeOf hn

theorem scope? (h : t.Later t') (id : ScopeId) :
    Option.Rel Scope.Later (t.scope? id) (t'.scope? id) := by
  cases id with
  | global => exact .some h.global
  | ofClass i => exact rel_getElem? h.classes i
  | ofFunction i => exact rel_getElem? h.functions i

theorem of_setScope {id : ScopeId} {s s' : Scope} (hs : t.scope? id = some s) (h : s.Later s') :
    t.Later (t.setScope id s') := by
  cases id with
  | global =>
    have hg := Option.some.inj hs
    subst hg
    exact ⟨rfl, h, List.forall₂_same.2 fun s _ => .refl s, List.forall₂_same.2 fun s _ => .refl s⟩
  | ofClass i =>
    exact ⟨rfl, .refl _, forall₂_of_set Scope.Later.refl hs h,
      List.forall₂_same.2 fun s _ => .refl s⟩
  | ofFunction i =>
    exact ⟨rfl, .refl _, List.forall₂_same.2 fun s _ => .refl s,
      forall₂_of_set Scope.Later.refl hs h⟩

end Table.Later

end MoonBackend
