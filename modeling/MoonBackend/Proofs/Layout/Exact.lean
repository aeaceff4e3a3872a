import MoonBackend.Proofs.Symbols.Declared

/-!
# Exact sizes

The layout computes with words that wrap around. Every size that it records, of an entry, a class or
a frame, is the one that the rules give unless that is `2 ^ 63` or more, in every stage of the sizing
and also after a fault.
-/

namespace MoonBackend

open Layout

/-! ### Words -/

theorem toInt_add_of_lt {a b : Int64} {m n : ℕ} (ha : a.toInt = m) (hb : b.toInt = n)
    (h : m + n < 2 ^ 63) : (a + b).toInt = (m + n : ℕ) := by
  rw [Int64.toInt_add, ha, hb, Int.bmod_eq_of_le (by omega) (by omega)]
  rfl

theorem toInt_mul_of_lt {a b : Int64} {m n : ℕ} (ha : a.toInt = m) (hb : b.toInt = n)
    (h : m * n < 2 ^ 63) : (a * b).toInt = (m * n : ℕ) := by
  have hcast : (m : ℤ) * n = (m * n : ℕ) := by push_cast; rfl
  rw [Int64.toInt_mul, ha, hb, hcast, Int.bmod_eq_of_le (by omega) (by omega)]

theorem toInt_eq_toNat {d : Int64} (h : 0 ≤ d) : d.toInt = (d.toInt.toNat : ℤ) := by
  have h0 : 0 ≤ d.toInt := by simpa using Int64.le_iff_toInt_le.1 h
  omega

theorem ne_neg_one {n : Int64} {m : ℕ} (h : n.toInt = m) : n ≠ -1 := by
  rintro rfl
  have : (-1 : Int64).toInt = -1 := by decide
  omega

theorem sizeOfWord_exact {n : Int64} {m : ℕ} (h : n.toInt = m) : sizeOfWord n = some n := by
  unfold sizeOfWord
  rw [if_neg]
  simpa using ne_neg_one h

theorem of_sizeOfWord {n m : Int64} (h : sizeOfWord n = some m) : m = n := by
  unfold sizeOfWord at h
  split at h
  · cases h
  · exact (Option.some.inj h).symm

theorem dimensions_cons (d : Int64) (ds : List Int64) :
    dimensions (d :: ds) = d.toInt.toNat * dimensions ds := by
  simp [dimensions]

theorem toNat_pos {d : Int64} (h : 0 < d) : 0 < d.toInt.toNat := by
  have h0 : 0 < d.toInt := by simpa using Int64.lt_iff_toInt_lt.1 h
  omega

theorem dimensions_pos {ds : List Int64} (h : ∀ d ∈ ds, 0 < d) : 0 < dimensions ds := by
  induction ds with
  | nil => decide
  | cons d ds ih =>
    rw [dimensions_cons]
    exact Nat.mul_pos (toNat_pos (h d List.mem_cons_self))
      (ih fun d' hd' => h d' (List.mem_cons_of_mem _ hd'))

theorem dims_of_scale {t : Ty} {ds : List Int64} {n m : Int64} (h : t.scale ds n = .ok m) :
    ∀ d ∈ ds, 0 < d := by
  induction ds generalizing n with
  | nil => exact fun _ hd => by cases hd
  | cons d ds ih =>
    unfold Ty.scale at h
    split at h
    · rename_i hpos
      intro d' hd'
      rcases List.mem_cons.1 hd' with rfl | hd'
      · exact hpos
      · exact ih h d' hd'
    · cases h

theorem scale_exact {t : Ty} {ds : List Int64} {n : Int64} {k : ℕ} (hd : ∀ d ∈ ds, 0 < d)
    (hn : n.toInt = k) (hlt : k * dimensions ds < 2 ^ 63) :
    ∃ m, t.scale ds n = .ok m ∧ m.toInt = (k * dimensions ds : ℕ) := by
  induction ds generalizing n k with
  | nil => exact ⟨n, rfl, by simpa [dimensions] using hn⟩
  | cons d ds ih =>
    have hpos := hd d List.mem_cons_self
    have hrest : ∀ d ∈ ds, 0 < d := fun d' hd' => hd d' (List.mem_cons_of_mem _ hd')
    rw [dimensions_cons, ← Nat.mul_assoc] at hlt
    have hle : k * d.toInt.toNat ≤ k * d.toInt.toNat * dimensions ds :=
      Nat.le_mul_of_pos_right _ (dimensions_pos hrest)
    have hmul := toInt_mul_of_lt hn (toInt_eq_toNat (Int64.le_of_lt hpos)) (by omega)
    obtain ⟨m, hm, hme⟩ := ih hrest hmul hlt
    refine ⟨m, ?_, by rw [hme, dimensions_cons, Nat.mul_assoc]⟩
    unfold Ty.scale
    rw [if_pos hpos]
    exact hm

theorem foldl_exact {α : Type} {f : α → Option Int64} {v : α → ℕ} {l : List α} {k : Int64} {m : ℕ}
    (hk : k.toInt = m) (hf : ∀ a ∈ l, ∃ n, f a = some n ∧ n.toInt = v a)
    (hlt : m + (l.map v).sum < 2 ^ 63) :
    ∃ r, l.foldl (fun total a => do return (← total) + (← f a)) (some k) = some r
      ∧ r.toInt = (m + (l.map v).sum : ℕ) := by
  induction l generalizing k m with
  | nil => exact ⟨k, rfl, by simpa using hk⟩
  | cons a l ih =>
    obtain ⟨n, hn, hv⟩ := hf a List.mem_cons_self
    rw [List.map_cons, List.sum_cons, ← Nat.add_assoc] at hlt
    have hadd := toInt_add_of_lt hk hv (by omega)
    obtain ⟨r, hr, hre⟩ := ih hadd (fun b hb => hf b (List.mem_cons_of_mem _ hb)) hlt
    refine ⟨r, Scope.foldl_eq_some.2 ⟨n, hn, hr⟩, ?_⟩
    rw [hre, List.map_cons, List.sum_cons, Nat.add_assoc]

/-! ### Sizes that a layout records -/

structure Sizes.Proper (sizes : Sizes) : Prop where
  word : 0 < sizes.word
  float : sizes.float = 2 * sizes.word
  boolean : 0 < sizes.boolean

/-- The word is the size that the rules give, at some depth, unless that wraps around. -/
def Carries (p : Program) (sizes : Sizes) (f : (String → Option ℕ) → Option ℕ) (n : Int64) : Prop :=
  ∃ d m, f (p.classBytes sizes d) = some m ∧ (m < 2 ^ 63 → n.toInt = m)

def Scope.bytes (sizes : Sizes) (classes : String → Option ℕ) (s : Scope) : Option ℕ :=
  total (Entry.bytes sizes classes) s.storage

/-- The sizes that the rules give are below the limit. -/
structure Fits (p : Program) (sizes : Sizes) (t : Table) : Prop where
  classes : ∀ d name n, p.classBytes sizes d name = some n → n < 2 ^ 63
  entries : ∀ d, ∀ s ∈ t.classes ++ t.functions, ∀ e ∈ s.storage, ∀ n,
    e.bytes sizes (p.classBytes sizes d) = some n → n < 2 ^ 63
  frames : ∀ d, ∀ s ∈ t.functions, ∀ n,
    s.bytes sizes (p.classBytes sizes d) = some n → n < 2 ^ 63

/-- Every recorded size is the one that the rules give. -/
structure Exact (p : Program) (sizes : Sizes) (t : Table) : Prop where
  classes : ∀ s ∈ t.classes, ∀ n, s.size = some n →
    Carries p sizes (fun classes => classes s.name) n
  functions : ∀ s ∈ t.functions, ∀ n, s.size = some n →
    Carries p sizes (fun classes => s.bytes sizes classes) n
  entries : ∀ s ∈ t.classes ++ t.functions, ∀ e ∈ s.entries, ∀ n, e.size = some n →
    e.kind.isStorage = true ∧ Carries p sizes (fun classes => e.bytes sizes classes) n

theorem Entry.bytes_of_outline {e e' : Entry} (h : e'.outline = e.outline) (sizes : Sizes)
    (classes : String → Option ℕ) : e'.bytes sizes classes = e.bytes sizes classes := by
  simp only [Entry.outline, Prod.mk.injEq] at h
  unfold Entry.bytes
  rw [h.1, h.2.2]

theorem map_outline_storage {es es' : List Entry} (h : es'.map Entry.outline = es.map Entry.outline) :
    (es'.filter (·.kind.isStorage)).map Entry.outline
      = (es.filter (·.kind.isStorage)).map Entry.outline := by
  have hf : ∀ es : List Entry, (es.filter (·.kind.isStorage)).map Entry.outline
      = (es.map Entry.outline).filter fun o => o.1.isStorage := by
    intro es
    rw [List.filter_map]
    rfl
  rw [hf, hf, h]

theorem total_of_outline {es es' : List Entry} (h : es'.map Entry.outline = es.map Entry.outline)
    (sizes : Sizes) (classes : String → Option ℕ) :
    total (Entry.bytes sizes classes) es' = total (Entry.bytes sizes classes) es := by
  let f : EntryKind × String × Ty → Option ℕ := fun o =>
    Entry.bytes sizes classes ⟨o.1, o.2.1, o.2.2, none, none, none⟩
  have hf : ∀ es : List Entry, total (Entry.bytes sizes classes) es
      = total f (es.map Entry.outline) := by
    intro es
    unfold total
    rw [List.all_map, List.map_map]
    rfl
  rw [hf, hf, h]

theorem Scope.bytes_of_outline {s s' : Scope}
    (h : s'.entries.map Entry.outline = s.entries.map Entry.outline) (sizes : Sizes)
    (classes : String → Option ℕ) : s'.bytes sizes classes = s.bytes sizes classes :=
  total_of_outline (map_outline_storage h) sizes classes

theorem Table.Later.mem_scopes {t t' : Table} (hl : t.Later t') {s' : Scope}
    (hs' : s' ∈ t'.classes ++ t'.functions) : ∃ s ∈ t.classes ++ t.functions, s.Later s' := by
  rcases List.mem_append.1 hs' with hs' | hs'
  · obtain ⟨s, hs, hss⟩ := mem_right hl.classes hs'
    exact ⟨s, List.mem_append_left _ hs, hss⟩
  · obtain ⟨s, hs, hss⟩ := mem_right hl.functions hs'
    exact ⟨s, List.mem_append_right _ hs, hss⟩

theorem Table.Later.exists_scope {t t' : Table} (hl : t.Later t') {s : Scope}
    (hs : s ∈ t.classes ++ t.functions) : ∃ s' ∈ t'.classes ++ t'.functions, s.Later s' := by
  rcases List.mem_append.1 hs with hs | hs
  · obtain ⟨s', hs', hss⟩ := mem_left hl.classes hs
    exact ⟨s', List.mem_append_left _ hs', hss⟩
  · obtain ⟨s', hs', hss⟩ := mem_left hl.functions hs
    exact ⟨s', List.mem_append_right _ hs', hss⟩

theorem Fits.later {p : Program} {sizes : Sizes} {t t' : Table} (h : Fits p sizes t)
    (hl : t.Later t') : Fits p sizes t' := by
  refine ⟨h.classes, fun d s' hs' e' he' n hn => ?_, fun d s' hs' n hn => ?_⟩
  · obtain ⟨s, hs, hss⟩ := hl.mem_scopes hs'
    obtain ⟨e, he, hee⟩ := mem_right (Scope.forall₂_storage hss.entries) he'
    have ho : e'.outline = e.outline := by
      simp only [Entry.outline, hee.kind, hee.name, hee.type]
    rw [Entry.bytes_of_outline ho] at hn
    exact h.entries d s hs e he n hn
  · obtain ⟨s, hs, hss⟩ := mem_right hl.functions hs'
    rw [Scope.bytes_of_outline (map_outline_later hss.entries)] at hn
    exact h.frames d s hs n hn

section

variable {p : Program} {sizes : Sizes} {t : Table}

theorem elementSize_exact (hp : sizes.Proper) (hd : Table.Declares p t) (hx : Exact p sizes t)
    {type : Ty} {n : Int64} (h : t.elementSize sizes type = .ok (some n)) :
    ∃ d k, type.base.bytes sizes (p.classBytes sizes d) = some k ∧ (k < 2 ^ 63 → n.toInt = k) := by
  have hword := toInt_eq_toNat (Int64.le_of_lt hp.word)
  unfold Table.elementSize at h
  cases hb : type.base with
  | void =>
    rw [hb] at h
    cases h
  | integer =>
    rw [hb] at h
    cases h
    exact ⟨0, _, rfl, fun _ => hword⟩
  | float =>
    rw [hb] at h
    cases h
    refine ⟨0, _, rfl, fun hlt => ?_⟩
    rw [hp.float]
    exact toInt_mul_of_lt (a := 2) (by decide) hword hlt
  | boolean =>
    rw [hb] at h
    cases h
    exact ⟨0, _, rfl, fun _ => toInt_eq_toNat (Int64.le_of_lt hp.boolean)⟩
  | object name =>
    rw [hb] at h
    simp only at h
    split at h
    · rename_i s hs
      obtain ⟨hm, hname, -⟩ := hd.of_class? hs
      obtain ⟨d, k, hk, hn⟩ := hx.classes s hm n (Except.ok.inj h)
      exact ⟨d, k, hname ▸ hk, hn⟩
    · cases h

theorem entrySize_exact (hp : sizes.Proper) (hd : Table.Declares p t) (hx : Exact p sizes t)
    {e : Entry} {n : Int64} (h : t.entrySize sizes e = .ok (some n)) :
    ∃ d m, e.bytes sizes (p.classBytes sizes d) = some m ∧ (m < 2 ^ 63 → n.toInt = m) := by
  have htype : t.sizeOf sizes e.type = .ok (some n) →
      ∃ d m, e.type.bytes sizes (p.classBytes sizes d) = some m ∧ (m < 2 ^ 63 → n.toInt = m) := by
    intro h
    unfold Table.sizeOf at h
    obtain ⟨element, he, h⟩ := except_bind_eq_ok.1 h
    cases element with
    | none => cases h
    | some k =>
      obtain ⟨r, hr, h⟩ := except_bind_eq_ok.1 h
      have hrn := of_sizeOfWord (Except.ok.inj h)
      have hdims := dims_of_scale hr
      obtain ⟨d, k', hk', hexact⟩ := elementSize_exact hp hd hx he
      refine ⟨d, k' * dimensions e.type.dims, Ty.bytes_eq_some.2 ⟨hdims, k', hk', rfl⟩, fun hlt => ?_⟩
      have hle : k' ≤ k' * dimensions e.type.dims :=
        Nat.le_mul_of_pos_right _ (dimensions_pos hdims)
      obtain ⟨r', hr', hre⟩ := scale_exact (t := e.type) hdims (hexact (by omega)) hlt
      rw [hr] at hr'
      cases hr'
      rw [hrn, hre]
  unfold Table.entrySize at h
  cases hk : e.kind with
  | returnAddress | reference =>
    rw [hk] at h
    have hn := of_sizeOfWord (Except.ok.inj h)
    have hbytes : e.bytes sizes (p.classBytes sizes 0) = some sizes.wordBytes :=
      Entry.bytes_of_address (by rw [hk]; rfl)
    exact ⟨0, _, hbytes, fun _ => hn ▸ toInt_eq_toNat (Int64.le_of_lt hp.word)⟩
  | _ =>
    rw [hk] at h
    obtain ⟨d, m, hm, hexact⟩ := htype h
    exact ⟨d, m, (Entry.bytes_of_value (by rw [hk]; rfl)).trans hm, hexact⟩

/-! ### One attempt at a scope -/

theorem advance_cases {α ε : Type} {step : α → Except ε α} {as as' : List α} {r : Except ε Unit}
    (h : advance step as = (r, as')) :
    List.Forall₂ (fun a a' => a' = a ∨ step a = .ok a') as as' := by
  induction as generalizing as' r with
  | nil =>
    cases h
    exact .nil
  | cons a as ih =>
    unfold advance at h
    split at h
    · cases h
      exact List.forall₂_same.2 fun _ _ => .inl rfl
    · rename_i a' ha
      rcases hrest : advance step as with ⟨r', as₁⟩
      rw [hrest] at h
      cases h
      exact .cons (.inr ha) (ih hrest)

/-- What an attempt to size a scope can leave behind: some entries are sized, and perhaps the scope
itself when its bases and all its entries are. -/
theorem sizeScope_cases {s s' : Scope} {r : Except Fault Bool}
    (h : t.sizeScope sizes s = (r, s')) :
    ∃ es, List.Forall₂ (fun e e' => e' = e ∨ t.sizeEntry sizes e = .ok e') s.entries es
      ∧ (s' = { s with entries := es } ∨ ∃ below own, t.basesSize s = some below
        ∧ Scope.entriesSize { s with entries := es } = some own ∧ s.size = none
        ∧ s' = { s with entries := es, size := sizeOfWord (below + own) }) := by
  have hsame : List.Forall₂ (fun e e' => e' = e ∨ t.sizeEntry sizes e = .ok e') s.entries
      s.entries := List.forall₂_same.2 fun _ _ => .inl rfl
  unfold Table.sizeScope at h
  split at h
  · cases h
    exact ⟨_, hsame, .inl rfl⟩
  · rename_i below hbelow
    rcases hadv : advance (t.sizeEntry sizes) s.entries with ⟨_ | u, es⟩
    · rw [hadv] at h
      cases h
      exact ⟨es, advance_cases hadv, .inl rfl⟩
    · rw [hadv] at h
      refine ⟨es, advance_cases hadv, ?_⟩
      simp only at h
      split at h
      · cases h
        exact .inl rfl
      · rename_i own hown
        by_cases hs : s.size.isSome = true
        · simp only [Scope.setSize, hs, if_true] at h
          cases h
          exact .inl rfl
        · simp only [Scope.setSize, hs] at h
          cases h
          exact .inr ⟨below, own, hbelow, hown, by simpa using hs, rfl⟩

theorem sizeEntry_exact (hp : sizes.Proper) (hd : Table.Declares p t) (hx : Exact p sizes t)
    {e e' : Entry} (hold : ∀ n, e.size = some n →
      e.kind.isStorage = true ∧ Carries p sizes (fun classes => e.bytes sizes classes) n)
    (h : t.sizeEntry sizes e = .ok e') {n : Int64} (hn : e'.size = some n) :
    e'.kind.isStorage = true ∧ Carries p sizes (fun classes => e'.bytes sizes classes) n := by
  unfold Table.sizeEntry at h
  split at h
  · rename_i hk
    simp only [Bool.and_eq_true] at hk
    obtain ⟨size, hs, h⟩ := except_bind_eq_ok.1 h
    cases size with
    | none =>
      cases h
      exact hold n hn
    | some k =>
      obtain ⟨hl, hsize, -⟩ := Entry.Later.of_setSize h
      rw [hsize] at hn
      cases hn
      obtain ⟨d, m, hm, hexact⟩ := entrySize_exact hp hd hx hs
      have ho : e'.outline = e.outline := by simp only [Entry.outline, hl.kind, hl.name, hl.type]
      refine ⟨hl.kind ▸ hk.1, d, m, ?_, hexact⟩
      simp only
      rw [Entry.bytes_of_outline ho]
      exact hm
  · cases h
    exact hold n hn

theorem carries_sum {α : Type} {f : (String → Option ℕ) → α → Option ℕ}
    (hf : ∀ classes classes', Refines classes classes' → Refines (f classes) (f classes'))
    {l : List α} {size : α → Option Int64}
    (h : ∀ a ∈ l, ∃ n, size a = some n ∧ Carries p sizes (fun classes => f classes a) n) :
    ∃ v : α → ℕ, (∀ a ∈ l, ∃ n, size a = some n ∧ (v a < 2 ^ 63 → n.toInt = v a))
      ∧ ∃ d, total (f (p.classBytes sizes d)) l = some (l.map v).sum := by
  choose! n hn d v hv he using h
  exact ⟨v, fun a ha => ⟨n a, hn a ha, he a ha⟩,
    Program.total_of_forall hf fun a ha => ⟨d a, hv a ha⟩⟩

theorem total_map {α β : Type} (f : β → Option ℕ) (g : α → β) (l : List α) :
    total f (l.map g) = total (fun a => f (g a)) l := by
  unfold total
  rw [List.all_map, List.map_map]
  rfl

theorem Scope.Declares.bytes {c : ClassDecl} {s : Scope} (h : Scope.Declares c s)
    (classes : String → Option ℕ) :
    s.bytes sizes classes = total (fun d => d.type.bytes sizes classes) c.attributes := by
  let f : EntryKind × String × Ty → Option ℕ := fun o =>
    Entry.bytes sizes classes ⟨o.1, o.2.1, o.2.2, none, none, none⟩
  have h1 : s.bytes sizes classes = total f (s.storage.map Entry.outline) := by
    rw [total_map]
    rfl
  have hvalue : ∀ d : VarDecl, f (.member, d.name, d.type) = d.type.bytes sizes classes :=
    fun _ => Entry.bytes_of_value rfl
  rw [h1, h.storage, total_map]
  exact congrArg (fun g => total g c.attributes) (funext hvalue)

theorem Table.Declares.map_name_bases (hd : Table.Declares p t) (s : Scope) :
    (t.bases s).map Scope.name = t.baseNames s := by
  have hname : ∀ names : List String, (∀ b ∈ names, (t.class? b).isSome = true) →
      (names.filterMap t.class?).map Scope.name = names := by
    intro names hn
    induction names with
    | nil => rfl
    | cons b names ih =>
      obtain ⟨sb, hsb⟩ := Option.isSome_iff_exists.1 (hn b List.mem_cons_self)
      obtain ⟨-, hb, -⟩ := hd.of_class? hsb
      rw [List.filterMap_cons, hsb]
      simp only [List.map_cons, hb, ih fun b' hb' => hn b' (List.mem_cons_of_mem _ hb')]
  refine hname _ fun b hb => ?_
  unfold Table.baseNames at hb
  split at hb
  · exact (List.mem_filter.1 hb).2
  · cases hb

theorem Table.Declares.mem_bases (hd : Table.Declares p t) {s sb : Scope} (h : sb ∈ t.bases s) :
    sb ∈ t.classes := by
  obtain ⟨b, -, hb⟩ := List.mem_filterMap.1 h
  exact (hd.of_class? hb).1

theorem exact_of_sum {α : Type} {size : α → Option Int64} {v : α → ℕ} {l : List α}
    (hv : ∀ a ∈ l, ∃ n, size a = some n ∧ (v a < 2 ^ 63 → n.toInt = v a))
    (hlt : (l.map v).sum < 2 ^ 63) : ∀ a ∈ l, ∃ n, size a = some n ∧ n.toInt = v a := by
  intro a ha
  obtain ⟨n, hn, he⟩ := hv a ha
  have hle : v a ≤ (l.map v).sum :=
    le_of_total (f := fun a => some (v a)) (total_eq_some.2 ⟨fun b _ => ⟨v b, rfl⟩, rfl⟩) ha rfl
  exact ⟨n, hn, he (by omega)⟩

theorem foldl_carries {α : Type} {size : α → Option Int64} {v : α → ℕ} {l : List α} {r : Int64}
    (hv : ∀ a ∈ l, ∃ n, size a = some n ∧ (v a < 2 ^ 63 → n.toInt = v a))
    (hlt : (l.map v).sum < 2 ^ 63)
    (h : l.foldl (fun total a => do return (← total) + (← size a)) (some 0) = some r) :
    r.toInt = ((l.map v).sum : ℕ) := by
  obtain ⟨r', hr', he⟩ := foldl_exact (k := 0) (m := 0) (by decide) (exact_of_sum hv hlt) (by omega)
  rw [h] at hr'
  cases hr'
  rw [he, Nat.zero_add]

def ExactEntries (p : Program) (sizes : Sizes) (s : Scope) : Prop :=
  ∀ e ∈ s.entries, ∀ n, e.size = some n →
    e.kind.isStorage = true ∧ Carries p sizes (fun classes => e.bytes sizes classes) n

theorem ExactEntries.sum {s : Scope} (h : ExactEntries p sizes s) {own : Int64}
    (hown : s.entriesSize = some own) :
    ∃ v : Entry → ℕ, (∀ e ∈ s.storage, ∃ n, e.size = some n ∧ (v e < 2 ^ 63 → n.toInt = v e))
      ∧ ∃ d, s.bytes sizes (p.classBytes sizes d) = some (s.storage.map v).sum := by
  refine carries_sum (f := fun classes (e : Entry) => e.bytes sizes classes)
    (fun _ _ h => Entry.bytes_refines h) fun e he => ?_
  obtain ⟨n, hn⟩ := Option.isSome_iff_exists.1 (Scope.isSome_of_foldl hown he)
  exact ⟨n, hn, (h e (List.mem_filter.1 he).1 n hn).2⟩

theorem carries_frame {s : Scope} (he : ExactEntries p sizes s) {own : Int64}
    (hown : s.entriesSize = some own) :
    Carries p sizes (fun classes => s.bytes sizes classes) own := by
  obtain ⟨v, hv, d, hd⟩ := he.sum hown
  exact ⟨d, _, hd, fun hlt => foldl_carries hv hlt hown⟩

theorem classBytes_of_sums (hd : Table.Declares p t) (hx : Exact p sizes t) {s s₁ : Scope}
    (hs : s ∈ t.classes) (ho : s₁.entries.map Entry.outline = s.entries.map Entry.outline)
    (he : ExactEntries p sizes s₁) {below own : Int64} (hbelow : t.basesSize s = some below)
    (hown : s₁.entriesSize = some own) :
    ∃ (w : Scope → ℕ) (v : Entry → ℕ),
      (∀ b ∈ t.bases s, ∃ n, b.size = some n ∧ (w b < 2 ^ 63 → n.toInt = w b))
      ∧ (∀ e ∈ s₁.storage, ∃ n, e.size = some n ∧ (v e < 2 ^ 63 → n.toInt = v e))
      ∧ ∃ d, p.classBytes sizes d s.name
        = some (((t.bases s).map w).sum + (s₁.storage.map v).sum) := by
  obtain ⟨c, hc, hdec, hclass⟩ := hd.of_mem hs
  obtain ⟨v, hv, d, hvd⟩ := he.sum hown
  rw [Scope.bytes_of_outline ho, hdec.bytes] at hvd
  obtain ⟨w, hw, d', hwd⟩ := @carries_sum p sizes Scope (fun classes sb => classes sb.name)
    (fun _ _ h sb => h sb.name) (t.bases s) Scope.size fun sb hsb => by
      obtain ⟨n, hn⟩ := Option.isSome_iff_exists.1 (Scope.isSome_of_foldl hbelow hsb)
      exact ⟨n, hn, hx.classes sb (hd.mem_bases hsb) n hn⟩
  rw [← total_map, hd.map_name_bases, hd.baseNames hc hdec] at hwd
  refine ⟨w, v, hw, hv, max d d' + 1, Program.classBytes_succ.2 ⟨c, _, _, hclass, ?_, ?_, rfl⟩⟩
  · exact total_refines (fun b _ => Program.classBytes_refines (Nat.le_max_right d d') b) hwd
  · exact total_refines (fun a _ => Ty.bytes_refines
      (Program.classBytes_refines (Nat.le_max_left d d')) a.type) hvd

theorem carries_class (hd : Table.Declares p t) (hx : Exact p sizes t) {s s₁ : Scope} (hs : s ∈ t.classes)
    (ho : s₁.entries.map Entry.outline = s.entries.map Entry.outline)
    (he : ExactEntries p sizes s₁) {below own : Int64} (hbelow : t.basesSize s = some below)
    (hown : s₁.entriesSize = some own) :
    Carries p sizes (fun classes => classes s.name) (below + own) := by
  obtain ⟨w, v, hw, hv, d, hbytes⟩ := classBytes_of_sums hd hx hs ho he hbelow hown
  exact ⟨_, _, hbytes, fun hlt => toInt_add_of_lt (foldl_carries hw (by omega) hbelow)
    (foldl_carries hv (by omega) hown) hlt⟩

theorem Exact.setScope (hx : Exact p sizes t) {id : ScopeId} {s' : Scope}
    (he : ExactEntries p sizes s')
    (hclass : ∀ i n, id = .ofClass i → s'.size = some n →
      Carries p sizes (fun classes => classes s'.name) n)
    (hfun : ∀ i n, id = .ofFunction i → s'.size = some n →
      Carries p sizes (fun classes => s'.bytes sizes classes) n) :
    Exact p sizes (t.setScope id s') := by
  cases id with
  | global => exact ⟨hx.classes, hx.functions, hx.entries⟩
  | ofClass i =>
    refine ⟨fun x hx' n hn => ?_, hx.functions, fun x hx' e he' n hn => ?_⟩
    · rcases List.mem_or_eq_of_mem_set hx' with hx' | rfl
      · exact hx.classes x hx' n hn
      · exact hclass i n rfl hn
    · rcases List.mem_append.1 hx' with hx' | hx'
      · rcases List.mem_or_eq_of_mem_set hx' with hx' | rfl
        · exact hx.entries x (List.mem_append_left _ hx') e he' n hn
        · exact he e he' n hn
      · exact hx.entries x (List.mem_append_right _ hx') e he' n hn
  | ofFunction i =>
    refine ⟨hx.classes, fun x hx' n hn => ?_, fun x hx' e he' n hn => ?_⟩
    · rcases List.mem_or_eq_of_mem_set hx' with hx' | rfl
      · exact hx.functions x hx' n hn
      · exact hfun i n rfl hn
    · rcases List.mem_append.1 hx' with hx' | hx'
      · exact hx.entries x (List.mem_append_left _ hx') e he' n hn
      · rcases List.mem_or_eq_of_mem_set hx' with hx' | rfl
        · exact hx.entries x (List.mem_append_right _ hx') e he' n hn
        · exact he e he' n hn

theorem mem_of_scope? {id : ScopeId} {s : Scope} (hs : t.scope? id = some s) (hid : id ≠ .global) :
    s ∈ t.classes ++ t.functions := by
  cases id with
  | global => exact absurd rfl hid
  | ofClass i => exact List.mem_append_left _ (List.mem_of_getElem? hs)
  | ofFunction i => exact List.mem_append_right _ (List.mem_of_getElem? hs)

theorem Exact.entriesOf (hp : sizes.Proper) (hd : Table.Declares p t) (hx : Exact p sizes t)
    {s : Scope} (hs : s ∈ t.classes ++ t.functions) {es : List Entry}
    (hes : List.Forall₂ (fun e e' => e' = e ∨ t.sizeEntry sizes e = .ok e') s.entries es) :
    List.Forall₂ Entry.Later s.entries es ∧ ExactEntries p sizes { s with entries := es } := by
  refine ⟨hes.imp fun e e' he => ?_, fun e' he' n hn => ?_⟩
  · rcases he with rfl | he
    · exact .refl _
    · exact (Table.of_sizeEntry he).1
  · obtain ⟨e, he, hstep⟩ := mem_right hes he'
    have hold := hx.entries s hs e he
    rcases hstep with rfl | hstep
    · exact hold n hn
    · exact sizeEntry_exact hp hd hx hold hstep hn

theorem Table.Declares.basesSize_function (hd : Table.Declares p t) {s : Scope}
    (hs : s ∈ t.functions) : t.basesSize s = some 0 := by
  unfold Table.basesSize Table.bases
  rw [hd.baseNames_function hs]
  rfl

theorem carries_scope (hd : Table.Declares p t) (hx : Exact p sizes t) {s s₁ : Scope}
    (ho : s₁.entries.map Entry.outline = s.entries.map Entry.outline)
    (he : ExactEntries p sizes s₁) {below own : Int64} (hbelow : t.basesSize s = some below)
    (hown : s₁.entriesSize = some own) :
    (s ∈ t.classes → Carries p sizes (fun classes => classes s.name) (below + own))
      ∧ (s ∈ t.functions →
        Carries p sizes (fun classes => s₁.bytes sizes classes) (below + own)) := by
  refine ⟨fun hs => carries_class hd hx hs ho he hbelow hown, fun hs => ?_⟩
  rw [hd.basesSize_function hs] at hbelow
  cases hbelow
  rw [Int64.zero_add]
  exact carries_frame he hown

theorem sizeOfWord_scope (hd : Table.Declares p t) (hx : Exact p sizes t) (hfit : Fits p sizes t)
    {s s₁ : Scope} (hs : s ∈ t.classes ++ t.functions)
    (ho : s₁.entries.map Entry.outline = s.entries.map Entry.outline)
    (he : ExactEntries p sizes s₁) {below own : Int64} (hbelow : t.basesSize s = some below)
    (hown : s₁.entriesSize = some own) : sizeOfWord (below + own) = some (below + own) := by
  obtain ⟨hclass, hframe⟩ := carries_scope hd hx ho he hbelow hown
  rcases List.mem_append.1 hs with hs | hs
  · obtain ⟨d, m, hm, hexact⟩ := hclass hs
    exact sizeOfWord_exact (hexact (hfit.classes d s.name m hm))
  · obtain ⟨d, m, hm, hexact⟩ := hframe hs
    simp only at hm
    rw [Scope.bytes_of_outline ho] at hm
    exact sizeOfWord_exact (hexact (hfit.frames d s hs m hm))

/-- An attempt to size a scope keeps all sizes exact. -/
theorem Exact.sizeScope (hp : sizes.Proper) (hd : Table.Declares p t) (hx : Exact p sizes t)
    {id : ScopeId} {s s' : Scope} {r : Except Fault Bool} (hs : t.scope? id = some s)
    (h : t.sizeScope sizes s = (r, s')) (hid : id ≠ .global) :
    s.Later s' ∧ Exact p sizes (t.setScope id s') := by
  obtain ⟨es, hes, hcase⟩ := sizeScope_cases h
  have hmem := mem_of_scope? hs hid
  obtain ⟨hlater, hentries⟩ := hx.entriesOf hp hd hmem hes
  have hout : es.map Entry.outline = s.entries.map Entry.outline := map_outline_later hlater
  rcases hcase with rfl | ⟨below, own, hb, ho, hnone, rfl⟩
  · refine ⟨⟨rfl, rfl, rfl, rfl, hlater, fun _ h => h, fun h => ⟨h, rfl⟩⟩,
      hx.setScope hentries (fun i n hi hn => ?_) fun i n hi hn => ?_⟩
    · subst hi
      exact hx.classes s (List.mem_of_getElem? hs) n hn
    · subst hi
      obtain ⟨d, m, hm, hnm⟩ := hx.functions s (List.mem_of_getElem? hs) n hn
      exact ⟨d, m, (Scope.bytes_of_outline hout sizes _).trans hm, hnm⟩
  · obtain ⟨hclass, hframe⟩ := carries_scope hd hx hout hentries hb ho
    refine ⟨⟨rfl, rfl, rfl, rfl, hlater, fun n h => ?_, fun h => ⟨h, rfl⟩⟩,
      hx.setScope hentries (fun i n hi hn => ?_) fun i n hi hn => ?_⟩
    · rw [hnone] at h
      cases h
    · subst hi
      rw [of_sizeOfWord hn]
      exact hclass (List.mem_of_getElem? hs)
    · subst hi
      rw [of_sizeOfWord hn]
      exact hframe (List.mem_of_getElem? hs)

end

end MoonBackend
