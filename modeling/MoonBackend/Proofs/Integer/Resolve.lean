import MoonBackend.Proofs.Integer.Program
import MoonBackend.Proofs.Layout.Placing

/-!
# Integer programs can be laid out

Every operator of a body stands at a path of its own, so no unnamed slot is asked for twice, and a
frame of words is sized and placed at once. What can stand in the way of a layout are the classes of
a program.
-/

namespace MoonBackend.Integer

open Layout

/-! ### The paths of operators -/

def Through (path : Path) (paths : List Path) : Prop := ∀ q ∈ paths, path <:+ q

theorem Through.append {path : Path} {l k : List Path} (hl : Through path l) (hk : Through path k) :
    Through path (l ++ k) := by
  intro q hq
  rcases List.mem_append.1 hq with hq | hq
  · exact hl q hq
  · exact hk q hq

theorem Through.up {i : Nat} {path : Path} {l : List Path} (h : Through (i :: path) l) :
    Through path l := fun q hq => (List.suffix_cons i path).trans (h q hq)

theorem nodup_children {i j : Nat} {path : Path} {l k : List Path} (hl : Through (i :: path) l)
    (hk : Through (j :: path) k) (hij : i ≠ j) (h : l.Nodup) (h' : k.Nodup) : (l ++ k).Nodup := by
  rw [List.nodup_append]
  refine ⟨h, h', ?_⟩
  rintro q hq _ hq' rfl
  exact hij (child_inj (hl q hq) (hk q hq'))

theorem not_mem_of_through {i : Nat} {path : Path} {l : List Path} (hl : Through (i :: path) l) :
    path ∉ l := by
  intro hq
  have := (hl path hq).length_le
  simp at this

theorem through_exprPaths : ∀ (path : Path) (e : Expr), Through path (exprPaths path e)
  | path, .unary _ e _ => by
    refine (through_exprPaths (0 :: path) e).up.append ?_
    simp [Through]
  | path, .binary _ l r _ => by
    refine ((through_exprPaths (0 :: path) l).up.append (through_exprPaths (1 :: path) r).up).append ?_
    simp [Through]
  | _, .missing | _, .int _ | _, .float _ | _, .var _ _ | _, .dot _ _ _ | _, .index _ _ _
  | _, .call _ _ _ _ _ _ => by simp [Through, exprPaths]

theorem nodup_exprPaths : ∀ (path : Path) (e : Expr), (exprPaths path e).Nodup
  | path, .unary _ e _ => by
    rw [exprPaths, List.nodup_append]
    refine ⟨nodup_exprPaths (0 :: path) e, by simp, ?_⟩
    intro q hq q' hq' he
    rw [List.mem_singleton.1 hq'] at he
    exact not_mem_of_through (through_exprPaths (0 :: path) e) (he ▸ hq)
  | path, .binary _ l r _ => by
    have hl := through_exprPaths (0 :: path) l
    have hr := through_exprPaths (1 :: path) r
    rw [exprPaths, List.nodup_append]
    refine ⟨nodup_children hl hr (by decide) (nodup_exprPaths _ l) (nodup_exprPaths _ r),
      by simp, ?_⟩
    intro q hq q' hq' he
    rw [List.mem_singleton.1 hq'] at he
    rcases List.mem_append.1 (he ▸ hq) with hm | hm
    · exact not_mem_of_through hl hm
    · exact not_mem_of_through hr hm
  | _, .missing | _, .int _ | _, .float _ | _, .var _ _ | _, .dot _ _ _ | _, .index _ _ _
  | _, .call _ _ _ _ _ _ => by simp [exprPaths]

mutual

theorem through_stmtPaths (path : Path) : ∀ st : Stmt, Through path (stmtPaths path st)
  | .declare _ init => (through_exprPaths _ init).up
  | .assign _ e => (through_exprPaths _ e).up
  | .when cond body => (through_exprPaths _ cond).up.append (through_stmtsPaths _ 0 body).up
  | .branch cond yes no =>
    ((through_exprPaths _ cond).up.append (through_stmtsPaths _ 0 yes).up).append
      (through_stmtsPaths _ 0 no).up
  | .loop cond body => (through_exprPaths _ cond).up.append (through_stmtsPaths _ 0 body).up
  | .write e => (through_exprPaths _ e).up
  | .read _ | .ret _ | .call _ => fun _ hq => by cases hq

theorem through_stmtsPaths (path : Path) (i : Nat) : ∀ sts : List Stmt,
    Through path (stmtsPaths path i sts)
  | [] => fun _ hq => by cases hq
  | st :: sts => (through_stmtPaths (i :: path) st).up.append (through_stmtsPaths path (i + 1) sts)

end

theorem child_of_mem_stmtsPaths (path : Path) : ∀ (sts : List Stmt) (i : Nat) (q : Path),
    q ∈ stmtsPaths path i sts → ∃ j, i ≤ j ∧ (j :: path) <:+ q
  | [], _, _, hq => by cases hq
  | st :: sts, i, q, hq => by
    rcases List.mem_append.1 hq with hq | hq
    · exact ⟨i, Nat.le_refl i, through_stmtPaths (i :: path) st q hq⟩
    · obtain ⟨j, hj, hs⟩ := child_of_mem_stmtsPaths path sts (i + 1) q hq
      exact ⟨j, by omega, hs⟩

mutual

theorem nodup_stmtPaths (path : Path) : ∀ st : Stmt, (stmtPaths path st).Nodup
  | .declare _ init => nodup_exprPaths _ init
  | .assign _ e => nodup_exprPaths _ e
  | .when cond body =>
    nodup_children (through_exprPaths _ cond) (through_stmtsPaths _ 0 body) (by decide)
      (nodup_exprPaths _ cond) (nodup_stmtsPaths _ 0 body)
  | .branch cond yes no => by
    rw [stmtPaths, List.append_assoc, List.nodup_append]
    have hyes := through_stmtsPaths (1 :: path) 0 yes
    have hno := through_stmtsPaths (2 :: path) 0 no
    refine ⟨nodup_exprPaths _ cond, nodup_children hyes hno (by decide) (nodup_stmtsPaths _ 0 yes)
      (nodup_stmtsPaths _ 0 no), ?_⟩
    rintro q hq _ hq' rfl
    have hcond := through_exprPaths (0 :: path) cond q hq
    rcases List.mem_append.1 hq' with hq' | hq'
    · exact absurd (child_inj hcond (hyes q hq')) (by decide)
    · exact absurd (child_inj hcond (hno q hq')) (by decide)
  | .loop cond body =>
    nodup_children (through_exprPaths _ cond) (through_stmtsPaths _ 0 body) (by decide)
      (nodup_exprPaths _ cond) (nodup_stmtsPaths _ 0 body)
  | .write e => nodup_exprPaths _ e
  | .read _ | .ret _ | .call _ => List.nodup_nil

/-- No two operators stand at the same path. -/
theorem nodup_stmtsPaths (path : Path) (i : Nat) : ∀ sts : List Stmt, (stmtsPaths path i sts).Nodup
  | [] => List.nodup_nil
  | st :: sts => by
    rw [stmtsPaths, List.nodup_append]
    refine ⟨nodup_stmtPaths _ st, nodup_stmtsPaths path (i + 1) sts, ?_⟩
    rintro q hq _ hq' rfl
    obtain ⟨j, hj, hs⟩ := child_of_mem_stmtsPaths path sts (i + 1) q hq'
    have := child_inj (through_stmtPaths (i :: path) st q hq) hs
    omega

end

/-! ### Slots, sizes and offsets -/

theorem supply_temporaries {qs : List Path} {ds : List Demand} (h : List.Forall₂ IsTemporary qs ds) :
    ∀ s : Scope, qs.Nodup → (∀ q ∈ qs, s.slot (.expr q) .temporary = none) →
      ∃ s', supply ds s = (.ok (), s') := by
  induction h with
  | nil => exact fun s _ _ => ⟨s, rfl⟩
  | @cons q d qs ds ht _ ih =>
    intro s hd hs
    have hadd : s.synthesize d.kind d.type (some d.node)
        = .ok { s with entries := s.entries ++ [demanded d] } := by
      have hnone : s.slot d.node.key d.kind = none := by
        rw [ht.key, ht.kind]
        exact hs q List.mem_cons_self
      simp [Scope.synthesize, Scope.add, Entry.backed, hnone, demanded]
    rw [supply, hadd]
    refine ih _ (List.nodup_cons.1 hd).2 fun q' hq' => ?_
    have hne : q ≠ q' := by
      rintro rfl
      exact (List.nodup_cons.1 hd).1 hq'
    rw [slot_append, hs q' (List.mem_cons_of_mem _ hq'), Option.none_or, List.find?_eq_none]
    simp [Scope.backs, demanded, Entry.backed, ht.key, hne]

structure IsOpen (e : Entry) : Prop where
  word : IsWord e
  size : e.size = none
  offset : e.offset = none

def sizedWord (e : Entry) : Entry := { e with size := some 4 }

theorem advance_words {t : Table} {es : List Entry} (h : ∀ e ∈ es, IsOpen e) :
    advance (t.sizeEntry {}) es = (.ok (), es.map sizedWord) := by
  induction es with
  | nil => rfl
  | cons e es ih =>
    have he := h e List.mem_cons_self
    have hstep : t.sizeEntry {} e = .ok (sizedWord e) := by
      unfold Table.sizeEntry
      rw [if_pos (by simp [he.word.1, he.size]), entrySize_word he.word]
      show e.setSize 4 = _
      simp only [Entry.setSize, he.size]
      rfl
    rw [advance, hstep]
    simp only [ih fun e he => h e (List.mem_cons_of_mem _ he), List.map_cons]

def sizedWords (s : Scope) : Scope :=
  { s with entries := s.entries.map sizedWord, size := some (Int64.ofNat (4 * s.entries.length)) }

theorem sizedAt_words {s : Scope} (h : ∀ e ∈ s.entries, IsOpen e) (hs : s.size = none) {i : Nat}
    {head : Signature} (hb : s.backing = .function i head) : SizedAt {} s (sizedWords s) := by
  intro t
  have hbases : t.basesSize s = some 0 := by
    unfold Table.basesSize Table.bases Table.baseNames
    rw [hb]
    rfl
  have hwords : ∀ e ∈ s.entries.map sizedWord, IsWord e ∧ e.size = some 4 := by
    intro e he
    obtain ⟨e₀, he₀, rfl⟩ := List.mem_map.1 he
    exact ⟨(h e₀ he₀).word, rfl⟩
  have hsize : ({ s with entries := s.entries.map sizedWord } : Scope).entriesSize
      = some (Int64.ofNat (4 * s.entries.length)) := by
    have := entriesSize_of_words (s := { s with entries := s.entries.map sizedWord }) hwords
    rwa [List.length_map] at this
  unfold Table.sizeScope
  rw [hbases]
  simp only [advance_words h]
  rw [hsize]
  simp only [Scope.setSize, hs, Option.isSome_none, Bool.false_eq_true, if_false, Int64.zero_add,
    sizeOfWord_words]
  rfl

/-! ### The layout -/

/-- An integer program can be laid out if its classes can be. -/
theorem exists_layout {p : Program} {f : Function} {t : Table} {s : Scope} (hp : IsProgram p f)
    (hg : Ground f t s) (hc : (ofTable t.withoutFunctions {}).resolve.1 = .ok ()) :
    ∃ l, (ofTable t {}).resolve = (.ok (), l) := by
  have hdemands := demands_ground hp hg
  have hmem : s ∈ t.classes ++ t.functions := by
    rw [hg.functions]
    simp
  have hslot : ∀ q ∈ stmtsPaths [] 0 f.body, s.slot (.expr q) .temporary = none := by
    intro q _
    rw [Scope.slot, List.find?_eq_none]
    intro e he
    simp [Scope.backs, (hg.vars e he).named]
  obtain ⟨s₁, h1⟩ := supply_temporaries hdemands s (nodup_stmtsPaths [] 0 f.body) hslot
  obtain rfl : s₁ = withTemporaries t f s := of_supply h1
  have hopen : ∀ e ∈ (withTemporaries t f s).entries, IsOpen e := by
    intro e he
    rcases List.mem_append.1 he with he | he
    · obtain ⟨hn, ho⟩ := hg.fresh.entries s hmem e he
      exact ⟨(hg.vars e he).word, hn, ho⟩
    · obtain ⟨d, hd, rfl⟩ := List.mem_map.1 he
      obtain ⟨q, -, ht⟩ := mem_right hdemands hd
      refine ⟨⟨?_, ht.type⟩, rfl, rfl⟩
      show d.kind.isStorage = true
      rw [ht.kind]
      rfl
  have h2 := sizedAt_words hopen hg.scope.size hg.scope.backing
  have hsized : ∀ e ∈ (sizedWords (withTemporaries t f s)).entries,
      e.offset = none ∧ e.size ≠ none := by
    intro e he
    obtain ⟨e₀, he₀, rfl⟩ := List.mem_map.1 he
    exact ⟨(hopen e₀ he₀).offset, by simp [sizedWord]⟩
  have hplaced : (sizedWords (withTemporaries t f s)).placed = false := hg.scope.placed
  obtain ⟨s₃, h3⟩ := layOut_ok ⟨hplaced, fun e he => (hsized e he).1⟩
    (fun e he => (hsized e (List.mem_filter.1 he).1).2) 0
  exact exists_resolve hg.functions hg.program h1 h2 h3 hc

end MoonBackend.Integer
