import MoonBackend.Proofs.Layout.Later

/-!
# Sizing and placing a scope

What one step of sizing and of placing does to a scope: known sizes are those of the types, storage
stands without gaps below the base, and a finished scope is as large as its bases and its storage.
All of that stays as the layout goes on.
-/

namespace MoonBackend

open Layout

/-! ### Offsets -/

namespace Scope

/-- The storage among the entries is sized and stands without gaps from an offset downwards. -/
def Tiled : Int64 → List Entry → Prop
  | _, [] => True
  | off, e :: es =>
    if e.kind.isStorage then
      e.offset = some off ∧ e.size.isSome = true ∧ Tiled (off - wordOfSize e.size) es
    else Tiled off es

theorem Tiled.later {es es' : List Entry} {off : Int64} (h : Tiled off es)
    (hl : List.Forall₂ Entry.Later es es') : Tiled off es' := by
  induction hl generalizing off with
  | nil => trivial
  | @cons e e' es es' he _ ih =>
    unfold Tiled at h ⊢
    rw [he.kind]
    split
    · rename_i hk
      rw [if_pos hk] at h
      obtain ⟨h1, h2, h3⟩ := h
      obtain ⟨n, hn⟩ := Option.isSome_iff_exists.1 h2
      have hn' := he.size n hn
      rw [hn] at h3
      exact ⟨he.offset _ h1, by rw [hn']; rfl, by rw [hn']; exact ih h3⟩
    · rename_i hk
      rw [if_neg hk] at h
      exact ih h

theorem tiled_of_placeEntries {es es' : List Entry} {off : Int64}
    (h : placeEntries off es = (.ok (), es')) :
    Tiled off es' ∧ List.Forall₂ (fun e e' => e.Later e' ∧ e'.size = e.size) es es' := by
  induction es generalizing off es' with
  | nil =>
    cases h
    exact ⟨trivial, .nil⟩
  | cons e es ih =>
    unfold placeEntries at h
    split at h
    · rename_i hk
      split at h
      · cases h
      · rename_i e₁ he
        obtain ⟨rfl, hnone, hsize⟩ := Entry.Later.of_setOffset he
        rcases hrest : placeEntries (off - wordOfSize e.size) es with ⟨r, es₁⟩
        rw [hrest] at h
        cases h
        obtain ⟨ht, hl⟩ := ih hrest
        refine ⟨?_, .cons ⟨⟨rfl, rfl, rfl, rfl, fun _ hn => hn, ?_⟩, rfl⟩ hl⟩
        · unfold Tiled
          rw [if_pos hk]
          exact ⟨rfl, hsize, ht⟩
        · intro o ho
          rw [hnone] at ho
          cases ho
    · rename_i hk
      rcases hrest : placeEntries off es with ⟨r, es₁⟩
      rw [hrest] at h
      cases h
      obtain ⟨ht, hl⟩ := ih hrest
      refine ⟨?_, .cons ⟨.refl e, rfl⟩ hl⟩
      unfold Tiled
      rwa [if_neg hk]

theorem of_layOut {s s' : Scope} {base : Int64} (h : s.layOut base = (.ok (), s')) :
    s.Later s' ∧ s'.placed = true ∧ s'.base = base ∧ Tiled base s'.entries
      ∧ List.Forall₂ (fun e e' => e.Later e' ∧ e'.size = e.size) s.entries s'.entries := by
  unfold layOut place at h
  split at h
  · cases h
  · rename_i s₁ hs₁
    split at hs₁
    · cases hs₁
    · rename_i hp
      have he := Except.ok.inj hs₁
      subst he
      rcases hplace : placeEntries base s.entries with ⟨r, es⟩
      rw [hplace] at h
      cases h
      obtain ⟨ht, hl⟩ := tiled_of_placeEntries hplace
      exact ⟨⟨rfl, rfl, rfl, rfl, hl.imp fun _ _ h => h.1, fun _ hn => hn,
        fun hp' => absurd hp' hp⟩, rfl, rfl, ht, hl⟩

end Scope

/-! ### Sizes -/

theorem of_advance {α ε : Type} {step : α → Except ε α} {as as' : List α}
    (h : advance step as = (.ok (), as')) :
    List.Forall₂ (fun a a' => step a = .ok a') as as' := by
  induction as generalizing as' with
  | nil =>
    cases h
    exact .nil
  | cons a as ih =>
    unfold advance at h
    split at h
    · cases h
    · rename_i a' ha
      rcases hrest : advance step as with ⟨r, as₁⟩
      rw [hrest] at h
      cases h
      exact .cons ha (ih hrest)

namespace Scope

/-- Every size that is known is the one of its entry, and not negative. -/
def Fair (t : Table) (sizes : Sizes) (es : List Entry) : Prop :=
  ∀ e ∈ es, ∀ n, e.size = some n → 0 ≤ n ∧ t.entrySize sizes e = .ok (some n)

/-- Everything in the scope is sized, and the scope is as large as its bases and its storage. -/
structure Finished (t : Table) (s : Scope) (below own : Int64) : Prop where
  bases : t.basesSize s = some below
  entries : s.entriesSize = some own
  size : ∀ n, sizeOfWord (below + own) = some n → s.size = some n

theorem foldl_none {α : Type} (f : α → Option Int64) (l : List α) :
    l.foldl (fun total a => do return (← total) + (← f a)) (none : Option Int64) = none := by
  induction l with
  | nil => rfl
  | cons a l ih => exact ih

theorem foldl_eq_some {α : Type} {f : α → Option Int64} {a : α} {l : List α} {k total : Int64} :
    (a :: l).foldl (fun total a => do return (← total) + (← f a)) (some k) = some total ↔
      ∃ n, f a = some n
        ∧ l.foldl (fun total a => do return (← total) + (← f a)) (some (k + n)) = some total := by
  rw [List.foldl_cons]
  cases f a with
  | none =>
    have hnone := foldl_none f l
    constructor
    · intro h
      exact absurd (hnone.symm.trans h) (by simp)
    · rintro ⟨n, hn, -⟩
      cases hn
  | some n =>
    constructor
    · intro h
      exact ⟨n, rfl, h⟩
    · rintro ⟨m, hm, h⟩
      cases hm
      exact h

theorem foldl_later {α : Type} {R : α → α → Prop} {f : α → Option Int64}
    (hf : ∀ a b, R a b → ∀ n, f a = some n → f b = some n) {l l' : List α}
    (h : List.Forall₂ R l l') {k total : Int64}
    (ht : l.foldl (fun total a => do return (← total) + (← f a)) (some k) = some total) :
    l'.foldl (fun total a => do return (← total) + (← f a)) (some k) = some total := by
  induction h generalizing k with
  | nil => exact ht
  | cons hab _ ih =>
    obtain ⟨n, hn, hrest⟩ := foldl_eq_some.1 ht
    exact foldl_eq_some.2 ⟨n, hf _ _ hab n hn, ih hrest⟩

theorem isSome_of_foldl {α : Type} {f : α → Option Int64} {l : List α} {k total : Int64}
    (ht : l.foldl (fun total a => do return (← total) + (← f a)) (some k) = some total) {a : α}
    (ha : a ∈ l) : (f a).isSome = true := by
  induction l generalizing k with
  | nil => cases ha
  | cons b l ih =>
    obtain ⟨n, hn, hrest⟩ := foldl_eq_some.1 ht
    rcases List.mem_cons.1 ha with rfl | ha
    · rw [hn]
      rfl
    · exact ih hrest ha

theorem forall₂_storage {es es' : List Entry} (h : List.Forall₂ Entry.Later es es') :
    List.Forall₂ Entry.Later (es.filter (·.kind.isStorage)) (es'.filter (·.kind.isStorage)) := by
  induction h with
  | nil => exact .nil
  | @cons e e' es es' he _ ih =>
    rw [List.filter_cons, List.filter_cons, he.kind]
    split
    · exact .cons he ih
    · exact ih

theorem entriesSize_later {s s' : Scope} (h : s.Later s') {n : Int64}
    (hn : s.entriesSize = some n) : s'.entriesSize = some n :=
  foldl_later (fun _ _ he => he.size) (forall₂_storage h.entries) hn

theorem basesSize_later {t t' : Table} (ht : t.Later t') {s s' : Scope} (h : s.Later s') {n : Int64}
    (hn : t.basesSize s = some n) : t'.basesSize s' = some n :=
  foldl_later (fun _ _ hs => hs.size) (ht.bases h) hn

theorem Finished.later {t t' : Table} (ht : t.Later t') {s s' : Scope} (h : s.Later s')
    {below own : Int64} (hf : Finished t s below own) : Finished t' s' below own :=
  ⟨basesSize_later ht h hf.bases, entriesSize_later h hf.entries, fun n hn =>
    h.size n (hf.size n hn)⟩

theorem Fair.later {t t' : Table} {sizes : Sizes} {es : List Entry} (ht : t.Later t')
    (h : Fair t sizes es) : Fair t' sizes es := by
  intro e he n hn
  obtain ⟨h0, h1⟩ := h e he n hn
  exact ⟨h0, ht.entrySize (.refl e) h1⟩

theorem size_isSome_of_entriesSize {s : Scope} {n : Int64} (hn : s.entriesSize = some n) {e : Entry}
    (he : e ∈ s.entries) (hk : e.kind.isStorage = true) : e.size.isSome = true:=
  isSome_of_foldl hn (List.mem_filter.2 ⟨he, hk⟩)

end Scope

namespace Table

variable {t : Table} {sizes : Sizes}

theorem of_sizeEntry {e e' : Entry} (h : t.sizeEntry sizes e = .ok e') :
    e.Later e' ∧ ∀ n, e'.size = some n →
      e.size = some n ∨ (0 ≤ n ∧ t.entrySize sizes e' = .ok (some n)) := by
  unfold sizeEntry at h
  split at h
  · cases hs : t.entrySize sizes e with
    | error f => rw [hs] at h; cases h
    | ok size =>
      rw [hs] at h
      cases size with
      | none =>
        have he := Except.ok.inj h
        subst he
        exact ⟨.refl e, fun _ hn => .inl hn⟩
      | some k =>
        obtain ⟨hl, hsize, h0⟩ := Entry.Later.of_setSize h
        refine ⟨hl, fun n hn => .inr ?_⟩
        have hk : n = k := Option.some.inj (hn.symm.trans hsize)
        subst hk
        exact ⟨h0, (Table.Later.refl t).entrySize hl hs⟩
  · have he := Except.ok.inj h
    subst he
    exact ⟨.refl e, fun _ hn => .inl hn⟩

theorem of_sizeEntries {es es' : List Entry} (h : advance (t.sizeEntry sizes) es = (.ok (), es')) :
    List.Forall₂ Entry.Later es es'
      ∧ (Scope.Fair t sizes es → Scope.Fair t sizes es') := by
  have hstep := of_advance h
  refine ⟨hstep.imp fun _ _ he => (of_sizeEntry he).1, fun hfair e' he' n hn => ?_⟩
  obtain ⟨e, he, hs⟩ := mem_right hstep he'
  obtain ⟨hl, hsize⟩ := of_sizeEntry hs
  rcases hsize n hn with hold | hnew
  · obtain ⟨h0, h1⟩ := hfair e he n hold
    exact ⟨h0, (Table.Later.refl t).entrySize hl h1⟩
  · exact hnew

theorem of_sizeScope {s s' : Scope} {finished : Bool}
    (h : t.sizeScope sizes s = (.ok finished, s')) :
    s.Later s' ∧ (Scope.Fair t sizes s.entries → Scope.Fair t sizes s'.entries)
      ∧ s'.placed = s.placed
      ∧ (finished = true → ∃ below own, Scope.Finished t s' below own) := by
  unfold sizeScope at h
  cases hbase : t.basesSize s with
  | none =>
    rw [hbase] at h
    cases h
    exact ⟨.refl s, fun hf => hf, rfl, fun hc => by cases hc⟩
  | some below =>
    rw [hbase] at h
    rcases hadv : advance (t.sizeEntry sizes) s.entries with ⟨_ | _, es⟩
    · rw [hadv] at h
      cases h
    · rw [hadv] at h
      obtain ⟨hl, hfair⟩ := of_sizeEntries hadv
      have hlater : s.Later { s with entries := es } :=
        ⟨rfl, rfl, rfl, rfl, hl, fun _ hn => hn, fun hp => ⟨hp, rfl⟩⟩
      simp only at h
      cases hown : Scope.entriesSize { s with entries := es } with
      | none =>
        rw [hown] at h
        cases h
        exact ⟨hlater, hfair, rfl, fun hc => by cases hc⟩
      | some own =>
        rw [hown] at h
        simp only [Scope.setSize] at h
        by_cases hs : s.size.isSome = true
        · rw [if_pos hs] at h
          cases h
        · rw [if_neg hs] at h
          cases h
          have hnone : s.size = none := by simpa using hs
          refine ⟨⟨rfl, rfl, rfl, rfl, hl, fun n hn => ?_, fun hp => ⟨hp, rfl⟩⟩, hfair, rfl,
            fun _ => ⟨below, own, ?_, hown, fun _ hn => hn⟩⟩
          · rw [hnone] at hn
            cases hn
          · exact hbase

end Table

end MoonBackend
