import MoonBackend.Proofs.Layout.Classes
import MoonBackend.Proofs.Layout.Exact

/-!
# The sizing of all scopes

The pending scopes are gone through until none is left. Whatever the outcome, all recorded sizes are
exact and there is at most one pass for each scope. As long as every storage entry takes space and no
class contains itself, an attempt never faults and every pass finishes a scope: of the classes that
are open, one that contains no open class, and a function when no class is open. So the sizing
succeeds exactly in that case.
-/

namespace MoonBackend

namespace Layout

/-! ### Every outcome is exact -/

def Unplaced (s : Scope) : Prop := s.placed = false ∧ ∀ e ∈ s.entries, e.offset = none

/-- A layout on its way from a table, of which all sizes are exact and nothing is placed. -/
structure Sizing (p : Program) (sizes : Sizes) (t : Table) (l : Layout) : Prop where
  later : t.Later l.table
  given : l.sizes = sizes
  exact : Exact p sizes l.table
  unplaced : ∀ s ∈ l.table.classes ++ l.table.functions, Unplaced s

theorem mem_setScope {t : Table} {id : ScopeId} {s x : Scope}
    (h : x ∈ (t.setScope id s).classes ++ (t.setScope id s).functions) :
    x ∈ t.classes ++ t.functions ∨ x = s := by
  cases id with
  | global => exact .inl h
  | ofClass i =>
    rcases List.mem_append.1 h with h | h
    · exact (List.mem_or_eq_of_mem_set h).imp_left (List.mem_append_left _)
    · exact .inl (List.mem_append_right _ h)
  | ofFunction i =>
    rcases List.mem_append.1 h with h | h
    · exact .inl (List.mem_append_left _ h)
    · exact (List.mem_or_eq_of_mem_set h).imp_left (List.mem_append_right _)

theorem offset_of_sizeEntry {t : Table} {sizes : Sizes} {e e' : Entry}
    (h : t.sizeEntry sizes e = .ok e') : e'.offset = e.offset := by
  unfold Table.sizeEntry at h
  split at h
  · obtain ⟨size, -, h⟩ := except_bind_eq_ok.1 h
    cases size with
    | none =>
      cases h
      rfl
    | some n =>
      have hset : e.setSize n = .ok e' := h
      unfold Entry.setSize at hset
      split at hset
      · cases hset
      · split at hset
        · cases hset
        · cases hset
          rfl
  · cases h
    rfl

theorem Unplaced.sizeScope {t : Table} {sizes : Sizes} {s s' : Scope} {r : Except Fault Bool}
    (h : Unplaced s) (hrun : t.sizeScope sizes s = (r, s')) : Unplaced s' := by
  obtain ⟨es, hes, hcase⟩ := sizeScope_cases hrun
  have hoff : ∀ e ∈ es, e.offset = none := by
    intro e' he'
    obtain ⟨e, he, rfl | hee⟩ := mem_right hes he'
    · exact h.2 e' he
    · rw [offset_of_sizeEntry hee]
      exact h.2 e he
  rcases hcase with rfl | ⟨below, own, -, -, -, rfl⟩
  · exact ⟨h.1, hoff⟩
  · exact ⟨h.1, hoff⟩

section

variable {p : Program} {sizes : Sizes} {t : Table}
variable (hp : sizes.Proper) (hd : Table.Declares p t)
include hp hd

theorem Sizing.attempt {l l' : Layout} {r : Except Fault Bool} {id : ScopeId}
    (h : Sizing p sizes t l) (hid : id ≠ .global)
    (hrun : (onScope id true fun t s => t.sizeScope l.sizes s).run l = (r, l')) :
    Sizing p sizes t l' ∧ l'.passes = l.passes := by
  cases hs : l.table.scope? id with
  | none =>
    rw [run_onScope_none hs] at hrun
    cases hrun
    exact ⟨h, rfl⟩
  | some s =>
    rw [run_onScope hs] at hrun
    simp only [h.given] at hrun
    rcases hw : l.table.sizeScope sizes s with ⟨r', s'⟩
    rw [hw] at hrun
    cases hrun
    obtain ⟨hl, hx⟩ := h.exact.sizeScope hp (hd.later h.later) hs hw hid
    refine ⟨⟨h.later.trans (Table.Later.of_setScope hs hl), rfl, hx, fun x hx => ?_⟩, rfl⟩
    rcases mem_setScope hx with hx | rfl
    · exact h.unplaced x hx
    · exact (h.unplaced s (mem_of_scope? hs hid)).sizeScope hw

theorem Sizing.sizePending {ids : List ScopeId} {l l' : Layout} {r : Except Fault (List ScopeId)}
    (h : Sizing p sizes t l) (hids : ∀ id ∈ ids, id ≠ .global)
    (hrun : (sizePending ids).run l = (r, l')) :
    Sizing p sizes t l' ∧ l'.passes = l.passes := by
  induction ids generalizing l r with
  | nil =>
    cases hrun
    exact ⟨h, rfl⟩
  | cons id ids ih =>
    unfold Layout.sizePending at hrun
    rcases run_bind_cases hrun with ⟨l₀, l₁, h0, hrun⟩ | ⟨e, h0, -⟩
    · cases h0
      rcases run_bind_cases hrun with ⟨finished, l₁, h1, hrun⟩ | ⟨e, h1, -⟩
      · obtain ⟨hs₁, hp₁⟩ := h.attempt hp hd (hids id List.mem_cons_self) h1
        have hids' : ∀ id ∈ ids, id ≠ .global := fun id' hid' => hids id' (List.mem_cons_of_mem _ hid')
        rcases run_bind_cases hrun with ⟨rest, l₂, h2, hrun⟩ | ⟨e, h2, -⟩
        · cases hrun
          obtain ⟨hs₂, hp₂⟩ := ih hs₁ hids' h2
          exact ⟨hs₂, hp₂.trans hp₁⟩
        · obtain ⟨hs₂, hp₂⟩ := ih hs₁ hids' h2
          exact ⟨hs₂, hp₂.trans hp₁⟩
      · exact h.attempt hp hd (hids id List.mem_cons_self) h1
    · cases h0

theorem Sizing.sizeAll {ids : List ScopeId} {l l' : Layout} {r : Except Fault Unit}
    (h : Sizing p sizes t l) (hids : ∀ id ∈ ids, id ≠ .global)
    (hrun : (sizeAll ids).run l = (r, l')) :
    Sizing p sizes t l' ∧ l'.passes ≤ l.passes + ids.length := by
  induction hlen : ids.length using Nat.strong_induction_on generalizing ids l with
  | _ n ih =>
    cases ids with
    | nil =>
      rw [sizeAll_nil] at hrun
      cases hrun
      exact ⟨h, by omega⟩
    | cons id ids =>
      have h0 : Sizing p sizes t { l with passes := l.passes + 1 } := ⟨h.later, h.given, h.exact, h.unplaced⟩
      have hone : 1 ≤ n := by rw [← hlen]; exact Nat.succ_le_succ (Nat.zero_le _)
      rw [Layout.sizeAll] at hrun
      simp only [List.isEmpty_cons, Bool.false_eq_true, if_false] at hrun
      rcases run_bind_cases hrun with ⟨u, l₁, h1, hrun⟩ | ⟨e, h1, -⟩
      · cases h1
        rcases run_bind_cases hrun with ⟨next, l₁, h1, hrun⟩ | ⟨e, h1, -⟩
        · obtain ⟨hs₁, hp₁⟩ := h0.sizePending hp hd hids h1
          simp only at hp₁
          rcases run_bind_cases hrun with ⟨l₂, l₂, h2, hrun⟩ | ⟨e, h2, -⟩
          · cases h2
            rcases run_bind_cases hrun with ⟨u, l₂, h2, hrun⟩ | ⟨e, h2, -⟩
            · cases h2
              split at hrun
              · rename_i hlt
                rw [hlen] at hlt
                have hs₂ : Sizing p sizes t (l₁.noted "layout pass" [("pass", .number l₁.passes),
                    ("pending", .number (id :: ids).length),
                    ("resolved", .number (((id :: ids).length : Int) - next.length))]) :=
                  ⟨hs₁.later, hs₁.given, hs₁.exact, hs₁.unplaced⟩
                obtain ⟨hs₃, hp₃⟩ := ih _ hlt hs₂
                  (fun id' hid' => hids id' (mem_of_sizePending h1 id' hid')) hrun rfl
                refine ⟨hs₃, ?_⟩
                have : (l₁.noted "layout pass" [("pass", .number l₁.passes),
                    ("pending", .number (id :: ids).length),
                    ("resolved", .number (((id :: ids).length : Int) - next.length))]).passes
                    = l₁.passes := rfl
                omega
              · cases hrun
                exact ⟨⟨hs₁.later, hs₁.given, hs₁.exact, hs₁.unplaced⟩, by simp only; omega⟩
            · cases h2
          · cases h2
        · obtain ⟨hs₁, hp₁⟩ := h0.sizePending hp hd hids h1
          simp only at hp₁
          exact ⟨hs₁, by omega⟩
      · cases h1

end

/-! ### Entries and scopes that can be sized -/

/-- Every storage entry that is no address takes space. -/
def AllSizable (p : Program) (t : Table) : Prop :=
  ∀ s ∈ t.classes ++ t.functions, ∀ e ∈ s.storage, e.kind.isAddress = false → e.type.Sizable p

theorem AllSizable.later {p : Program} {t t' : Table} (h : AllSizable p t) (hl : t.Later t') :
    AllSizable p t' := by
  intro s' hs' e' he' ha
  obtain ⟨s, hs, hss⟩ := hl.mem_scopes hs'
  obtain ⟨e, he, hee⟩ := mem_right (Scope.forall₂_storage hss.entries) he'
  rw [hee.type]
  exact h s hs e he (hee.kind ▸ ha)

def Waits (t : Table) (e : Entry) : Prop :=
  e.kind.isAddress = false ∧ ∃ name s, e.type.base = .object name ∧ t.class? name = some s
    ∧ s.size = none

/-- A base of the scope is open, or an entry waits for a class. -/
def Blocked (t : Table) (s : Scope) : Prop :=
  (∃ sb ∈ t.bases s, sb.size = none) ∨ ∃ e ∈ s.storage, Waits t e

theorem Blocked.of_later {t t' : Table} {s s' : Scope} (hl : t.Later t') (hs : s.Later s')
    (h : Blocked t' s') : Blocked t s := by
  have hopen : ∀ {x x' : Scope}, x.Later x' → x'.size = none → x.size = none := by
    intro x x' hx hn
    cases hxs : x.size with
    | none => rfl
    | some n =>
      rw [hx.size n hxs] at hn
      cases hn
  rcases h with ⟨sb', hsb', hn⟩ | ⟨e', he', ha, name, x', hb, hx', hn⟩
  · obtain ⟨sb, hsb, hl⟩ := mem_right (hl.bases hs) hsb'
    exact .inl ⟨sb, hsb, hopen hl hn⟩
  · obtain ⟨e, he, hee⟩ := mem_right (Scope.forall₂_storage hs.entries) he'
    have hr := hl.class? name
    rw [hx'] at hr
    cases hx : t.class? name with
    | none =>
      rw [hx] at hr
      cases hr
    | some x =>
      rw [hx] at hr
      cases hr with
      | some hxx =>
        exact .inr ⟨e, he, hee.kind ▸ ha, name, x, hee.type ▸ hb, hx, hopen hxx hn⟩

section

variable {p : Program} {sizes : Sizes} {t : Table}

theorem elementSize_ok (hd : Table.Declares p t) {type : Ty} (hs : type.Sizable p) :
    (∃ n, t.elementSize sizes type = .ok (some n))
      ∨ (t.elementSize sizes type = .ok none ∧ ∃ name s, type.base = .object name
        ∧ t.class? name = some s ∧ s.size = none) := by
  unfold Table.elementSize
  cases hb : type.base with
  | void => exact absurd hb hs.notVoid
  | integer => exact .inl ⟨_, rfl⟩
  | float => exact .inl ⟨_, rfl⟩
  | boolean => exact .inl ⟨_, rfl⟩
  | object name =>
    obtain ⟨s, hcs⟩ := hd.exists_class? (hs.declared name hb)
    simp only [hcs]
    cases hn : s.size with
    | none => exact .inr ⟨rfl, name, s, rfl, hcs, hn⟩
    | some n => exact .inl ⟨n, rfl⟩

theorem entrySize_ok (hp : sizes.Proper) (hd : Table.Declares p t) (hx : Exact p sizes t) {e : Entry}
    (hfit : ∀ d m, e.bytes sizes (p.classBytes sizes d) = some m → m < 2 ^ 63)
    (hs : e.kind.isAddress = false → e.type.Sizable p) :
    (∃ n, t.entrySize sizes e = .ok (some n) ∧ 0 ≤ n)
      ∨ (t.entrySize sizes e = .ok none ∧ Waits t e) := by
  have hknown : ∀ n, t.entrySize sizes e = .ok (some n) → 0 ≤ n := by
    intro n hn
    obtain ⟨d, m, hm, hexact⟩ := entrySize_exact hp hd hx hn
    have := hexact (hfit d m hm)
    rw [Int64.le_iff_toInt_le, this]
    simp
  have hcases : (∃ n, t.entrySize sizes e = .ok (some n))
      ∨ (t.entrySize sizes e = .ok none ∧ Waits t e) := by
    cases ha : e.kind.isAddress with
    | true =>
      have hword := sizeOfWord_exact (toInt_eq_toNat (Int64.le_of_lt hp.word))
      refine .inl ⟨sizes.word, ?_⟩
      unfold Table.entrySize
      cases hk : e.kind with
      | returnAddress | reference => exact congrArg Except.ok hword
      | _ =>
        rw [hk] at ha
        cases ha
    | false =>
      have hs := hs ha
      have htype : t.entrySize sizes e = t.sizeOf sizes e.type := by
        unfold Table.entrySize
        cases hk : e.kind with
        | returnAddress | reference =>
          rw [hk] at ha
          cases ha
        | _ => rfl
      have hbytes : ∀ classes, e.bytes sizes classes = e.type.bytes sizes classes := by
        exact fun _ => Entry.bytes_of_value ha
      rw [htype]
      rcases elementSize_ok hd hs with ⟨k, hk⟩ | ⟨hk, hw⟩
      · obtain ⟨d, k', hk', hexact⟩ := elementSize_exact hp hd hx hk
        have hlt := hfit d (k' * dimensions e.type.dims)
          ((hbytes _).trans (Ty.bytes_eq_some.2 ⟨hs.dims, k', hk', rfl⟩))
        have hle : k' ≤ k' * dimensions e.type.dims :=
          Nat.le_mul_of_pos_right _ (dimensions_pos hs.dims)
        obtain ⟨r, hr, hre⟩ := scale_exact (t := e.type) hs.dims (hexact (by omega)) hlt
        refine .inl ⟨r, except_bind_eq_ok.2 ⟨some k, hk, except_bind_eq_ok.2 ⟨r, hr, ?_⟩⟩⟩
        exact congrArg Except.ok (sizeOfWord_exact hre)
      · exact .inr ⟨except_bind_eq_ok.2 ⟨none, hk, rfl⟩, ha, hw⟩
  rcases hcases with ⟨n, hn⟩ | hw
  · exact .inl ⟨n, hn, hknown n hn⟩
  · exact .inr hw

theorem sizeEntry_ok (hp : sizes.Proper) (hd : Table.Declares p t) (hx : Exact p sizes t) {e : Entry}
    (hfit : ∀ d m, e.kind.isStorage = true →
      e.bytes sizes (p.classBytes sizes d) = some m → m < 2 ^ 63)
    (hs : e.kind.isStorage = true → e.kind.isAddress = false → e.type.Sizable p) :
    ∃ e', t.sizeEntry sizes e = .ok e'
      ∧ (e.kind.isStorage = true → e'.size.isSome = true ∨ Waits t e) := by
  unfold Table.sizeEntry
  split
  · rename_i hk
    simp only [Bool.and_eq_true, Option.isNone_iff_eq_none] at hk
    obtain ⟨hk, hnone⟩ := hk
    rcases entrySize_ok hp hd hx (fun d m => hfit d m hk) (hs hk) with ⟨n, hn, h0⟩ | ⟨hn, hw⟩
    · refine ⟨{ e with size := some n }, except_bind_eq_ok.2 ⟨some n, hn, ?_⟩, fun _ => .inl rfl⟩
      simp only [Entry.setSize, hnone]
      rw [if_neg (by simp), if_neg (Int64.not_lt.2 h0)]
    · exact ⟨e, except_bind_eq_ok.2 ⟨none, hn, rfl⟩, fun _ => .inr hw⟩
  · rename_i hk
    refine ⟨e, rfl, fun hst => .inl ?_⟩
    simp only [hst, Bool.true_and, Option.isNone_iff_eq_none] at hk
    exact Option.isSome_iff_ne_none.2 hk

theorem advance_ok {α ε : Type} {step : α → Except ε α} {as : List α}
    (h : ∀ a ∈ as, ∃ a', step a = .ok a') : ∃ as', advance step as = (.ok (), as') := by
  induction as with
  | nil => exact ⟨[], rfl⟩
  | cons a as ih =>
    obtain ⟨a', ha⟩ := h a List.mem_cons_self
    obtain ⟨as', has⟩ := ih fun b hb => h b (List.mem_cons_of_mem _ hb)
    exact ⟨a' :: as', by rw [advance, ha]; simp only [has]⟩

theorem foldl_cases {α : Type} (f : α → Option Int64) (l : List α) (k : Int64) :
    (∃ r, l.foldl (fun total a => do return (← total) + (← f a)) (some k) = some r)
      ∨ (l.foldl (fun total a => do return (← total) + (← f a)) (some k) = none
        ∧ ∃ a ∈ l, f a = none) := by
  induction l generalizing k with
  | nil => exact .inl ⟨k, rfl⟩
  | cons a l ih =>
    cases ha : f a with
    | none =>
      refine .inr ⟨?_, a, List.mem_cons_self, ha⟩
      rw [List.foldl_cons, ha]
      exact Scope.foldl_none f l
    | some n =>
      rcases ih (k + n) with ⟨r, hr⟩ | ⟨hr, b, hb, hn⟩
      · exact .inl ⟨r, Scope.foldl_eq_some.2 ⟨n, ha, hr⟩⟩
      · refine .inr ⟨?_, b, List.mem_cons_of_mem _ hb, hn⟩
        rw [List.foldl_cons, ha]
        exact hr

/-- An attempt at an open scope does not fault. It finishes the scope unless something that the
scope is made of is open. -/
theorem sizeScope_ok (hp : sizes.Proper) (hd : Table.Declares p t) (hx : Exact p sizes t)
    (hfit : Fits p sizes t) (ha : AllSizable p t) {s : Scope} (hs : s ∈ t.classes ++ t.functions)
    (hopen : s.size = none) :
    ∃ finished s', t.sizeScope sizes s = (.ok finished, s')
      ∧ (finished = true ↔ s'.size ≠ none) ∧ (finished = false → Blocked t s) := by
  unfold Table.sizeScope
  rcases foldl_cases Scope.size (t.bases s) 0 with ⟨below, hbelow⟩ | ⟨hbelow, sb, hsb, hn⟩
  · have hstep : ∀ e ∈ s.entries, ∃ e', t.sizeEntry sizes e = .ok e'
        ∧ (e.kind.isStorage = true → e'.size.isSome = true ∨ Waits t e) := fun e he =>
      sizeEntry_ok hp hd hx
        (fun d m hk hm => hfit.entries d s hs e (List.mem_filter.2 ⟨he, hk⟩) m hm)
        fun hk hadr => ha s hs e (List.mem_filter.2 ⟨he, hk⟩) hadr
    obtain ⟨es, hes⟩ := advance_ok fun e he => (hstep e he).imp fun _ h => h.1
    have hbelow' : t.basesSize s = some below := hbelow
    have hforall := of_advance hes
    simp only [hbelow', hes]
    rcases foldl_cases Entry.size (Scope.storage { s with entries := es }) 0 with
      ⟨own, hown⟩ | ⟨hown, e', he', hn⟩
    · have hown' : Scope.entriesSize { s with entries := es } = some own := hown
      obtain ⟨hlater, hentries⟩ := hx.entriesOf hp hd hs (hforall.imp fun _ _ h => .inr h)
      have hsome := sizeOfWord_scope hd hx hfit hs (map_outline_later hlater) hentries hbelow' hown'
      refine ⟨true, { s with entries := es, size := some (below + own) }, ?_, by simp, by simp⟩
      simp only [hown']
      simp only [Scope.setSize, hopen, Option.isSome_none, Bool.false_eq_true, if_false, hsome]
    · have hown' : Scope.entriesSize { s with entries := es } = none := hown
      refine ⟨false, { s with entries := es }, ?_, by simp [hopen], fun _ => .inr ?_⟩
      · simp only [hown']
      · obtain ⟨hm, hk⟩ := List.mem_filter.1 he'
        obtain ⟨e, he, hee⟩ := mem_right hforall hm
        obtain ⟨hl, -⟩ := Table.of_sizeEntry hee
        have hke : e.kind.isStorage = true := hl.kind ▸ hk
        obtain ⟨e₁, he₁, hor⟩ := hstep e he
        rw [hee] at he₁
        cases he₁
        rcases hor hke with hsome | hw
        · rw [hn] at hsome
          cases hsome
        · exact ⟨e, List.mem_filter.2 ⟨he, hke⟩, hw⟩
  · have hbelow' : t.basesSize s = none := hbelow
    refine ⟨false, s, ?_, by simp [hopen], fun _ => .inl ⟨sb, hsb, hn⟩⟩
    simp only [hbelow']

end

/-! ### Every pass finishes a scope -/

def Open (l : Layout) (id : ScopeId) : Prop := ∃ s, l.table.scope? id = some s ∧ s.size = none

theorem scope?_setScope_ne {t : Table} {id id' : ScopeId} {s : Scope} (h : id' ≠ id) :
    (t.setScope id s).scope? id' = t.scope? id' := by
  cases id with
  | global =>
    cases id' with
    | global => exact absurd rfl h
    | ofClass j => rfl
    | ofFunction j => rfl
  | ofClass i =>
    cases id' with
    | global => rfl
    | ofClass j => exact List.getElem?_set_ne fun hij => h (congrArg _ hij.symm)
    | ofFunction j => rfl
  | ofFunction i =>
    cases id' with
    | global => rfl
    | ofClass j => rfl
    | ofFunction j => exact List.getElem?_set_ne fun hij => h (congrArg _ hij.symm)

section

variable {p : Program} {sizes : Sizes} {t : Table}
variable (hp : sizes.Proper) (hd : Table.Declares p t) (hfit : Fits p sizes t) (ha : AllSizable p t)
include hp hd hfit ha

theorem Sizing.attempt_ok {l : Layout} (h : Sizing p sizes t l) {id : ScopeId} (hid : id ≠ .global)
    (hopen : l.Open id) :
    ∃ finished l', (onScope id true fun t s => t.sizeScope l.sizes s).run l = (.ok finished, l')
      ∧ l.table.Later l'.table
      ∧ (l'.Open id ↔ finished = false)
      ∧ (∀ id', id' ≠ id → l'.table.scope? id' = l.table.scope? id')
      ∧ (finished = false → ∃ s, l.table.scope? id = some s ∧ Blocked l.table s) := by
  obtain ⟨s, hs, hnone⟩ := hopen
  have hdl := hd.later h.later
  have hfl := hfit.later h.later
  obtain ⟨finished, s', hwork, hiff, hblocked⟩ := sizeScope_ok hp hdl h.exact hfl
    (ha.later h.later) (mem_of_scope? hs hid) hnone
  obtain ⟨hl, -⟩ := h.exact.sizeScope hp hdl hs hwork hid
  refine ⟨finished, { l with table := l.table.setScope id s' }, ?_, Table.Later.of_setScope hs hl,
    ?_, fun id' hne => scope?_setScope_ne hne, fun hf => ⟨s, hs, hblocked hf⟩⟩
  · refine onScope_of_some (w := fun t s => t.sizeScope l.sizes s) hs ?_
    rw [h.given]
    exact hwork
  · constructor
    · rintro ⟨s₁, hs₁, hn⟩
      have hs₁' : (l.table.setScope id s').scope? id = some s₁ := hs₁
      rw [scope?_setScope hs] at hs₁'
      cases hs₁'
      cases hf : finished with
      | false => rfl
      | true => exact absurd hn (hiff.1 hf)
    · intro hf
      refine ⟨s', scope?_setScope hs, ?_⟩
      by_contra hne
      rw [hiff.2 hne] at hf
      cases hf

/-- A pass over open scopes does not fault. It keeps exactly those that stay open, and each of them
waited for something when the pass began. -/
theorem Sizing.sizePending_ok {ids : List ScopeId} {l : Layout} (h : Sizing p sizes t l)
    (hids : ∀ id ∈ ids, id ≠ .global) (hnodup : ids.Nodup) (hopen : ∀ id ∈ ids, l.Open id) :
    ∃ rest l', (Layout.sizePending ids).run l = (.ok rest, l')
      ∧ l.table.Later l'.table
      ∧ rest.Sublist ids
      ∧ (∀ id ∈ ids, l'.Open id ↔ id ∈ rest)
      ∧ (∀ id', id' ∉ ids → l'.table.scope? id' = l.table.scope? id')
      ∧ (∀ id ∈ rest, ∃ s, l.table.scope? id = some s ∧ Blocked l.table s) := by
  induction ids generalizing l with
  | nil =>
    exact ⟨[], l, rfl, .refl _, .slnil, nofun, fun _ _ => rfl, nofun⟩
  | cons id ids ih =>
    obtain ⟨hnotin, hnodup⟩ := List.nodup_cons.1 hnodup
    obtain ⟨finished, l₁, h1, hlater₁, hopen₁, hframe₁, hblocked₁⟩ :=
      h.attempt_ok hp hd hfit ha (hids id List.mem_cons_self) (hopen id List.mem_cons_self)
    have hs₁ := (h.attempt hp hd (hids id List.mem_cons_self) h1).1
    have hopen' : ∀ id' ∈ ids, l₁.Open id' := by
      intro id' hid'
      obtain ⟨s, hs, hn⟩ := hopen id' (List.mem_cons_of_mem _ hid')
      refine ⟨s, ?_, hn⟩
      rw [hframe₁ id' fun he => hnotin (he ▸ hid')]
      exact hs
    obtain ⟨rest, l₂, h2, hlater₂, hsub, hiff, hframe₂, hblocked₂⟩ := ih hs₁
      (fun id' hid' => hids id' (List.mem_cons_of_mem _ hid')) hnodup hopen'
    refine ⟨if finished then rest else id :: rest, l₂, ?_, hlater₁.trans hlater₂, ?_, ?_, ?_, ?_⟩
    · unfold Layout.sizePending
      refine run_bind_eq_ok.2 ⟨l, l, rfl, run_bind_eq_ok.2 ⟨finished, l₁, h1, ?_⟩⟩
      exact run_bind_eq_ok.2 ⟨rest, l₂, h2, rfl⟩
    · cases finished with
      | true => exact hsub.cons id
      | false => exact hsub.cons_cons id
    · intro id' hid'
      rcases List.mem_cons.1 hid' with rfl | hmem
      · have hsame : l₂.Open id' ↔ l₁.Open id' := by
          unfold Open
          rw [hframe₂ id' hnotin]
        rw [hsame, hopen₁]
        cases finished with
        | true =>
          simp only [Bool.true_eq_false, if_true, false_iff]
          exact fun hin => hnotin (hsub.subset hin)
        | false => simp
      · have hne : id' ≠ id := fun he => hnotin (he ▸ hmem)
        rw [hiff id' hmem]
        cases finished with
        | true => simp
        | false => simp [hne]
    · intro id' hid'
      have hne : id' ≠ id := fun he => hid' (he ▸ List.mem_cons_self)
      rw [hframe₂ id' fun hin => hid' (List.mem_cons_of_mem _ hin), hframe₁ id' hne]
    · intro id' hid'
      have hrest : id' ∈ rest → ∃ s, l.table.scope? id' = some s ∧ Blocked l.table s := by
        intro hin
        have hne : id' ≠ id := fun he => hnotin (he ▸ hsub.subset hin)
        obtain ⟨s, hs, hb⟩ := hblocked₂ id' hin
        rw [hframe₁ id' hne] at hs
        exact ⟨s, hs, hb.of_later hlater₁ (.refl s)⟩
      cases finished with
      | true => exact hrest hid'
      | false =>
        rcases List.mem_cons.1 hid' with rfl | hin
        · exact hblocked₁ rfl
        · exact hrest hin

end

section

variable {p : Program} {sizes : Sizes} {t : Table}

theorem contains_of_blocked (hd : Table.Declares p t) {s : Scope} (hs : s ∈ t.classes)
    (hb : Blocked t s) : ∃ x ∈ t.classes, x.size = none ∧ p.Contains s.name x.name := by
  obtain ⟨c, hc, hdec, -⟩ := hd.of_mem hs
  rcases hb with ⟨sb, hsb, hn⟩ | ⟨e, he, -, name, x, hobj, hx, hn⟩
  · have hin : sb.name ∈ c.bases := by
      rw [← hd.baseNames hc hdec, ← hd.map_name_bases]
      exact List.mem_map_of_mem hsb
    exact ⟨sb, hd.mem_bases hsb, hn, c, hc, hdec.name.symm, .inl hin⟩
  · obtain ⟨hm, hname, -⟩ := hd.of_class? hx
    have hout : e.outline ∈ c.attributes.map VarDecl.outline := by
      rw [← hdec.storage]
      exact List.mem_map_of_mem he
    obtain ⟨a, ham, ha⟩ := List.mem_map.1 hout
    have htype : a.type = e.type := congrArg (fun o => o.2.2) ha
    refine ⟨x, hm, hn, c, hc, hdec.name.symm, .inr ⟨a, ham, ?_⟩⟩
    rw [htype, hobj, hname]

theorem open_of_blocked (hd : Table.Declares p t) {s : Scope} (hb : Blocked t s) :
    ∃ x ∈ t.classes, x.size = none := by
  rcases hb with ⟨sb, hsb, hn⟩ | ⟨e, he, -, name, x, -, hx, hn⟩
  · exact ⟨sb, hd.mem_bases hsb, hn⟩
  · exact ⟨x, (hd.of_class? hx).1, hn⟩

/-- Where classes have sizes by the rules, some open class contains no open class. -/
theorem exists_unblocked (hd : Table.Declares p t)
    (hb : ∀ c ∈ p.classes, ∃ d n, p.classBytes sizes d c.name = some n)
    (ho : ∃ s ∈ t.classes, s.size = none) : ∃ s ∈ t.classes, s.size = none ∧ ¬ Blocked t s := by
  classical
  -- an open class with a size at the least depth
  have hex : ∃ d, ∃ s ∈ t.classes, s.size = none ∧ (p.classBytes sizes d s.name).isSome = true := by
    obtain ⟨s, hs, hn⟩ := ho
    obtain ⟨c, hc, hdec, -⟩ := hd.of_mem hs
    obtain ⟨d, n, hdn⟩ := hb c hc
    refine ⟨d, s, hs, hn, ?_⟩
    rw [hdec.name, hdn]
    rfl
  obtain ⟨s, hs, hn, hsome⟩ := Nat.find_spec hex
  refine ⟨s, hs, hn, fun hblocked => ?_⟩
  obtain ⟨x, hx, hxn, hcon⟩ := contains_of_blocked hd hs hblocked
  cases hk : Nat.find hex with
  | zero =>
    rw [hk] at hsome
    cases hsome
  | succ k =>
    rw [hk] at hsome
    refine Nat.find_min hex (m := k) (by omega) ⟨x, hx, hxn, ?_⟩
    exact Program.isSome_of_contains hd.nodup hcon hsome

end

section

variable {p : Program} {sizes : Sizes} {t : Table}
variable (hp : sizes.Proper) (hd : Table.Declares p t) (hfit : Fits p sizes t) (ha : AllSizable p t)
variable (hb : ∀ c ∈ p.classes, ∃ d n, p.classBytes sizes d c.name = some n)
include hp hd hfit ha hb

theorem Sizing.sizeAll_ok {ids : List ScopeId} {l : Layout} (h : Sizing p sizes t l)
    (hids : ∀ id ∈ ids, id ≠ .global) (hnodup : ids.Nodup) (hopen : ∀ id ∈ ids, l.Open id)
    (hall : ∀ i, l.Open (.ofClass i) → .ofClass i ∈ ids) :
    ∃ l', (Layout.sizeAll ids).run l = (.ok (), l') := by
  induction hlen : ids.length using Nat.strong_induction_on generalizing ids l with
  | _ n ih =>
    cases ids with
    | nil => exact ⟨l, sizeAll_nil l⟩
    | cons id ids =>
      have h0 : Sizing p sizes t { l with passes := l.passes + 1 } := ⟨h.later, h.given, h.exact, h.unplaced⟩
      obtain ⟨next, l₁, h1, hlater, hsub, hiff, hframe, hblocked⟩ :=
        h0.sizePending_ok hp hd hfit ha hids hnodup hopen
      have hs₁ := (h0.sizePending hp hd hids h1).1
      have hdl := hd.later h.later
      -- a scope that is not blocked is finished in this pass
      have hfinished : ∃ id' ∈ id :: ids, id' ∉ next := by
        by_cases ho : ∃ s ∈ l.table.classes, s.size = none
        · obtain ⟨s, hs, hn, hfree⟩ := exists_unblocked hdl hb ho
          obtain ⟨i, hi⟩ := List.mem_iff_getElem?.1 hs
          refine ⟨.ofClass i, hall i ⟨s, hi, hn⟩, fun hin => ?_⟩
          obtain ⟨s', hs', hbl⟩ := hblocked _ hin
          have hs'' : l.table.classes[i]? = some s' := hs'
          rw [hi] at hs''
          cases hs''
          exact hfree hbl
        · refine ⟨id, List.mem_cons_self, fun hin => ?_⟩
          obtain ⟨s', -, hbl⟩ := hblocked _ hin
          exact ho (open_of_blocked hdl hbl)
      have hlt : next.length < (id :: ids).length := by
        refine lt_of_le_of_ne hsub.length_le fun he => ?_
        obtain ⟨id', hin, hout⟩ := hfinished
        exact hout (hsub.eq_of_length he ▸ hin)
      have hs₂ : Sizing p sizes t (l₁.noted "layout pass" [("pass", .number l₁.passes),
          ("pending", .number (id :: ids).length),
          ("resolved", .number (((id :: ids).length : Int) - next.length))]) :=
        ⟨hs₁.later, hs₁.given, hs₁.exact, hs₁.unplaced⟩
      have hall' : ∀ i, l₁.Open (.ofClass i) → .ofClass i ∈ next := by
        intro i hi
        by_cases hin : ScopeId.ofClass i ∈ id :: ids
        · exact (hiff _ hin).1 hi
        · obtain ⟨s, hs, hn⟩ := hi
          refine absurd (hall i ⟨s, ?_, hn⟩) hin
          exact (hframe _ hin).symm.trans hs
      obtain ⟨l', hl'⟩ := ih next.length (hlen ▸ hlt) hs₂
        (fun id' hid' => hids id' (hsub.subset hid')) (hnodup.sublist hsub)
        (fun id' hid' => (hiff id' (hsub.subset hid')).2 hid') hall' rfl
      exact ⟨l', sizeAll_eq_ok.2 ⟨next, l₁, _, h1, hlt, run_report _ _ l₁, hl'⟩⟩

end

/-! ### What a finished sizing says -/

section

variable {p : Program} {sizes : Sizes} {t : Table} {l : Layout}

theorem mem_sizedScopes {id : ScopeId} :
    id ∈ sizedScopes t ↔ (∃ i < t.classes.length, id = .ofClass i)
      ∨ ∃ i < t.functions.length, id = .ofFunction i := by
  unfold sizedScopes
  rw [List.mem_append, List.mem_map, List.mem_map]
  simp only [List.mem_range, eq_comm]

theorem nodup_sizedScopes : (sizedScopes t).Nodup := by
  unfold sizedScopes
  rw [List.nodup_append]
  refine ⟨(List.nodup_range).map fun _ _ h => ScopeId.ofClass.inj h,
    (List.nodup_range).map fun _ _ h => ScopeId.ofFunction.inj h, fun a ha b hb => ?_⟩
  obtain ⟨i, -, rfl⟩ := List.mem_map.1 ha
  obtain ⟨j, -, rfl⟩ := List.mem_map.1 hb
  nofun

def EntriesSized (t : Table) : Prop :=
  ∀ s ∈ t.classes ++ t.functions, ∀ e ∈ s.storage, e.size ≠ none

def ScopesSized (t : Table) : Prop := ∀ s ∈ t.classes ++ t.functions, s.size ≠ none

theorem EntriesSized.later {t' : Table} (h : EntriesSized t) (hl : t.Later t') :
    EntriesSized t' := by
  intro s' hs' e' he'
  obtain ⟨s, hs, hss⟩ := hl.mem_scopes hs'
  obtain ⟨e, he, hee⟩ := mem_right (Scope.forall₂_storage hss.entries) he'
  obtain ⟨n, hn⟩ := Option.ne_none_iff_exists'.1 (h s hs e he)
  rw [hee.size n hn]
  nofun

theorem ScopesSized.later {t' : Table} (h : ScopesSized t) (hl : t.Later t') : ScopesSized t' := by
  intro s' hs'
  obtain ⟨s, hs, hss⟩ := hl.mem_scopes hs'
  obtain ⟨n, hn⟩ := Option.ne_none_iff_exists'.1 (h s hs)
  rw [hss.size n hn]
  nofun

theorem finished_of_done (hdone : ∀ id ∈ sizedScopes l.table, l.Done id) :
    ∀ s ∈ l.table.classes ++ l.table.functions,
      ∃ below own, Scope.Finished l.table s below own := by
  intro s hs
  rcases List.mem_append.1 hs with hs | hs
  · obtain ⟨i, hi⟩ := List.mem_iff_getElem?.1 hs
    have hlt := (List.getElem?_eq_some_iff.1 hi).1
    exact hdone (.ofClass i) (mem_sizedScopes.2 (.inl ⟨i, hlt, rfl⟩)) s hi
  · obtain ⟨i, hi⟩ := List.mem_iff_getElem?.1 hs
    have hlt := (List.getElem?_eq_some_iff.1 hi).1
    exact hdone (.ofFunction i) (mem_sizedScopes.2 (.inr ⟨i, hlt, rfl⟩)) s hi

theorem entriesSized_of_done (hdone : ∀ id ∈ sizedScopes l.table, l.Done id) :
    EntriesSized l.table := by
  intro s hs e he
  obtain ⟨below, own, hf⟩ := finished_of_done hdone s hs
  exact Option.isSome_iff_ne_none.1 (Scope.isSome_of_foldl hf.entries he)

theorem Sizing.scopesSized (hd : Table.Declares p t) (hfit : Fits p sizes t) (h : Sizing p sizes t l)
    (hdone : ∀ id ∈ sizedScopes l.table, l.Done id) : ScopesSized l.table := by
  intro s hs
  obtain ⟨below, own, hf⟩ := finished_of_done hdone s hs
  have hsome := sizeOfWord_scope (hd.later h.later) h.exact (hfit.later h.later) hs rfl
    (fun e he n hn => h.exact.entries s hs e he n hn) hf.bases hf.entries
  rw [hf.size _ hsome]
  nofun

/-- A finished sizing says that every entry takes space and that the rules give each class a size. -/
theorem Sizing.sizable (hd : Table.Declares p t) (h : Sizing p sizes t l)
    (hdone : ∀ id ∈ sizedScopes l.table, l.Done id) :
    AllSizable p t ∧ ∀ c ∈ p.classes, ∃ d n, p.classBytes sizes d c.name = some n := by
  have hdl := hd.later h.later
  refine ⟨fun s hs e he hadr => ?_, fun c hc => ?_⟩
  · obtain ⟨s', hs', hss⟩ := h.later.exists_scope hs
    obtain ⟨e', he', hee⟩ := mem_left (Scope.forall₂_storage hss.entries) he
    obtain ⟨n, hn⟩ := Option.ne_none_iff_exists'.1 (entriesSized_of_done hdone s' hs' e' he')
    obtain ⟨-, d, m, hm, -⟩ := h.exact.entries s' hs' e' (List.mem_filter.1 he').1 n hn
    have hout : e'.outline = e.outline := by simp only [Entry.outline, hee.kind, hee.name, hee.type]
    simp only at hm
    rw [Entry.bytes_of_outline hout, Entry.bytes_of_value hadr] at hm
    refine Ty.sizable_of_bytes hm fun name k hk => ?_
    cases d with
    | zero => cases hk
    | succ d =>
      obtain ⟨c, -, -, hc, -⟩ := Program.classBytes_succ.1 hk
      exact ⟨c, (Program.class?_eq_some_iff hd.nodup).1 hc⟩
  · obtain ⟨s, hs⟩ := hdl.exists_class? ⟨c, hc, rfl⟩
    obtain ⟨hm, hname, -⟩ := hdl.of_class? hs
    have hmem := List.mem_append_left l.table.functions hm
    obtain ⟨below, own, hf⟩ := finished_of_done hdone s hmem
    obtain ⟨d, m, hdm, -⟩ := carries_class hdl h.exact hm rfl
      (fun e he n hn => h.exact.entries s hmem e he n hn) hf.bases hf.entries
    exact ⟨d, m, hname ▸ hdm⟩

end

end Layout

end MoonBackend
