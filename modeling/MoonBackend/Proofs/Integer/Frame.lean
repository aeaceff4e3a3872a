import MoonBackend.Proofs.Integer.Completion
import MoonBackend.Proofs.Integer.Execution
import MoonBackend.Proofs.Layout.Resolved

/-!
# The frame of an integer program

The slots of a function of integers are words, one below the other: first the variables, then a slot
for every operator of its body. So they are all different, and every value has its slot.
-/

namespace MoonBackend.Integer

open Layout

/-! ### The slots that are asked for -/

def exprPaths (path : Path) : Expr → List Path
  | .unary _ e _ => exprPaths (0 :: path) e ++ [path]
  | .binary _ l r _ => exprPaths (0 :: path) l ++ exprPaths (1 :: path) r ++ [path]
  | _ => []

mutual

def stmtPaths (path : Path) : Stmt → List Path
  | .declare _ init => exprPaths (0 :: path) init
  | .assign _ e => exprPaths (1 :: path) e
  | .when cond body => exprPaths (0 :: path) cond ++ stmtsPaths (1 :: path) 0 body
  | .branch cond yes no =>
    exprPaths (0 :: path) cond ++ stmtsPaths (1 :: path) 0 yes ++ stmtsPaths (2 :: path) 0 no
  | .loop cond body => exprPaths (0 :: path) cond ++ stmtsPaths (1 :: path) 0 body
  | .write e => exprPaths (0 :: path) e
  | _ => []

def stmtsPaths (path : Path) (i : Nat) : List Stmt → List Path
  | [] => []
  | st :: sts => stmtPaths (i :: path) st ++ stmtsPaths path (i + 1) sts

end

structure IsTemporary (q : Path) (d : Demand) : Prop where
  kind : d.kind = .temporary
  type : d.type = .integer
  key : d.node.key = .expr q

def NoMember (isMember : String → Bool) : Prop := ∀ name, isMember name = false

section
variable {isMember : String → Bool}

theorem demands_expr (hm : NoMember isMember) {e : Expr} (he : IsExpr e) : ∀ use path,
    List.Forall₂ IsTemporary (exprPaths path e) (Demand.ofExpr isMember use path (typed e)) := by
  refine IsExpr.induction (motive := fun e => ∀ use path, List.Forall₂ IsTemporary (exprPaths path e)
    (Demand.ofExpr isMember use path (typed e))) ?_ ?_ ?_ ?_ e he
  · intro v _ _ use path
    simp only [exprPaths, typed, Demand.ofExpr]
    exact .nil
  · intro name use path
    simp only [exprPaths, typed, Demand.ofExpr, hm name, Bool.false_eq_true, if_false]
    exact .nil
  · intro op e he ih use path
    simp only [exprPaths, typed, Demand.ofExpr]
    exact List.rel_append (ih .value _) (.cons ⟨rfl, rfl, rfl⟩ .nil)
  · intro op l r hl hr ihl ihr use path
    simp only [exprPaths, typed, Demand.ofExpr]
    exact List.rel_append (List.rel_append (ihl .value _) (ihr .value _))
      (.cons ⟨rfl, rfl, rfl⟩ .nil)

theorem demands_target (hm : NoMember isMember) {target : Expr} (ht : IsTarget target) (use : Use)
    (path : Path) : Demand.ofExpr isMember use path (typed target) = [] := by
  cases target with
  | var name type => simp [typed, Demand.ofExpr, hm name]
  | _ => exact absurd ht (by simp [IsTarget])

mutual

theorem demands_stmt (hm : NoMember isMember) {st : Stmt} (hst : IsStmt st) (path : Path) :
    List.Forall₂ IsTemporary (stmtPaths path st) (Demand.ofStmt isMember path (typedStmt st)) := by
  cases st with
  | declare d init =>
    simp only [stmtPaths, typedStmt, Demand.ofStmt]
    rcases hst.2 with rfl | he
    · simp only [exprPaths, typed, Demand.ofExpr]
      exact .nil
    · exact demands_expr hm he .value _
  | assign target e =>
    simp only [stmtPaths, typedStmt, Demand.ofStmt, demands_target hm hst.1, List.nil_append]
    exact demands_expr hm hst.2 .value _
  | «when» cond body =>
    simp only [stmtPaths, typedStmt, Demand.ofStmt]
    exact List.rel_append (demands_expr hm hst.1 .value _) (demands_stmts hm hst.2 _ _)
  | branch cond yes no =>
    simp only [stmtPaths, typedStmt, Demand.ofStmt]
    exact List.rel_append
      (List.rel_append (demands_expr hm hst.1 .value _) (demands_stmts hm hst.2.1 _ _))
      (demands_stmts hm hst.2.2 _ _)
  | loop cond body =>
    simp only [stmtPaths, typedStmt, Demand.ofStmt]
    exact List.rel_append (demands_expr hm hst.1 .value _) (demands_stmts hm hst.2 _ _)
  | write e =>
    simp only [stmtPaths, typedStmt, Demand.ofStmt]
    exact demands_expr hm hst .value _
  | read target =>
    simp only [stmtPaths, typedStmt, Demand.ofStmt, demands_target hm hst]
    exact .nil
  | ret e =>
    have he : e = .missing := hst
    subst he
    simp only [stmtPaths, typedStmt, Demand.ofStmt, Demand.ofExpr]
    exact .nil
  | call e => exact absurd hst (by simp [IsStmt])

theorem demands_stmts (hm : NoMember isMember) {sts : List Stmt} (hst : AreStmts sts) (path : Path)
    (i : Nat) : List.Forall₂ IsTemporary (stmtsPaths path i sts)
      (Demand.ofStmts isMember path i (typedStmts sts)) := by
  cases sts with
  | nil =>
    simp only [stmtsPaths, typedStmts, Demand.ofStmts]
    exact .nil
  | cons st sts =>
    simp only [stmtsPaths, typedStmts, Demand.ofStmts]
    exact List.rel_append (demands_stmt hm hst.1 _) (demands_stmts hm hst.2 _ _)

end

end

/-! ### Every value has a slot -/

section
variable {slots : Slots} {known : String → Prop}

theorem covered_expr (hk : ∀ n, known n → (slots.var n).isSome = true) {e : Expr}
    (he : IsExpr e) : ∀ path,
    Declared known e →
    (∀ q ∈ exprPaths path e, (slots.temp q).isSome = true) → Covered slots path e := by
  refine IsExpr.induction (motive := fun e => ∀ path,
    Declared known e →
    (∀ q ∈ exprPaths path e, (slots.temp q).isSome = true) → Covered slots path e) ?_ ?_ ?_ ?_ e he
  · intro v _ _ path _ _
    exact trivial
  · intro name path hd _
    exact hk name hd
  · intro op e _ ih path hd hq
    simp only [exprPaths, List.mem_append, List.mem_singleton] at hq
    exact ⟨ih _ hd fun q h => hq q (.inl h), hq path (.inr rfl)⟩
  · intro op l r _ _ ihl ihr path hd hq
    simp only [exprPaths, List.mem_append, List.mem_singleton] at hq
    exact ⟨⟨ihl _ hd.1 fun q h => hq q (.inl (.inl h)), ihr _ hd.2 fun q h => hq q (.inl (.inr h))⟩,
      hq path (.inr rfl)⟩

theorem covered_of_target (hk : ∀ n, known n → (slots.var n).isSome = true) {target : Expr}
    (ht : IsTarget target) {path : Path}
    (hd : Declared known target) : Covered slots path target := by
  cases target with
  | var name type => exact hk name hd
  | _ => exact absurd ht (by simp [IsTarget])

mutual

theorem covered_stmt (hk : ∀ n, known n → (slots.var n).isSome = true) {st : Stmt} (hst : IsStmt st) (path : Path)
    (hd : DeclaredStmt known st)
    (hq : ∀ q ∈ stmtPaths path st, (slots.temp q).isSome = true) : CoveredStmt slots path st := by
  cases st with
  | declare d init =>
    rcases hst.2 with rfl | he
    · exact ⟨hk _ hd.1, trivial⟩
    · exact ⟨hk _ hd.1, covered_expr hk he _ hd.2 hq⟩
  | assign target e => exact ⟨covered_of_target hk hst.1 hd.1, covered_expr hk hst.2 _ hd.2 hq⟩
  | «when» cond body =>
    simp only [stmtPaths, List.mem_append] at hq
    exact ⟨covered_expr hk hst.1 _ hd.1 fun q h => hq q (.inl h),
      covered_stmts hk hst.2 _ _ hd.2 fun q h => hq q (.inr h)⟩
  | branch cond yes no =>
    simp only [stmtPaths, List.mem_append] at hq
    exact ⟨covered_expr hk hst.1 _ hd.1 fun q h => hq q (.inl (.inl h)),
      covered_stmts hk hst.2.1 _ _ hd.2.1 fun q h => hq q (.inl (.inr h)),
      covered_stmts hk hst.2.2 _ _ hd.2.2 fun q h => hq q (.inr h)⟩
  | loop cond body =>
    simp only [stmtPaths, List.mem_append] at hq
    exact ⟨covered_expr hk hst.1 _ hd.1 fun q h => hq q (.inl h),
      covered_stmts hk hst.2 _ _ hd.2 fun q h => hq q (.inr h)⟩
  | write e => exact covered_expr hk hst _ hd hq
  | read target => exact covered_of_target hk hst hd
  | ret e => exact trivial
  | call e => exact trivial

theorem covered_stmts (hk : ∀ n, known n → (slots.var n).isSome = true) {sts : List Stmt}
    (hst : AreStmts sts) (path : Path) (i : Nat)
    (hd : DeclaredStmts known sts)
    (hq : ∀ q ∈ stmtsPaths path i sts, (slots.temp q).isSome = true) :
    CoveredStmts slots path i sts := by
  cases sts with
  | nil => exact trivial
  | cons st sts =>
    simp only [stmtsPaths, List.mem_append] at hq
    exact ⟨covered_stmt hk hst.1 _ hd.1 fun q h => hq q (.inl h),
      covered_stmts hk hst.2 _ _ hd.2 fun q h => hq q (.inr h)⟩

end

end

/-! ### Words one below the other -/

def IsWord (e : Entry) : Prop := e.kind.isStorage = true ∧ e.type = .integer

/-- A frame of words, of which each stands right below the one before it. -/
structure Framed (s : Scope) : Prop where
  words : ∀ e ∈ s.entries, IsWord e ∧ e.size = some 4
  tiled : Scope.Tiled 0 s.entries
  size : s.size = some (Int64.ofNat (4 * s.entries.length))

theorem ofInt_sub_four (x : Int) : Int64.ofInt x - 4 = Int64.ofInt (x - 4) := by
  rw [Int64.ofInt_sub]
  rfl

theorem offset_of_tiled {es : List Entry} (hw : ∀ e ∈ es, IsWord e ∧ e.size = some 4) {x : Int}
    (ht : Scope.Tiled (Int64.ofInt x) es) {i : Nat} {e : Entry} (he : es[i]? = some e) :
    e.offset = some (Int64.ofInt (x - 4 * i)) := by
  induction es generalizing x i with
  | nil => simp at he
  | cons d es ih =>
    obtain ⟨⟨hk, -⟩, hs⟩ := hw d List.mem_cons_self
    rw [Scope.Tiled, if_pos hk] at ht
    obtain ⟨hoff, -, hrest⟩ := ht
    cases i with
    | zero =>
      obtain rfl : d = e := by simpa using he
      rw [hoff]
      simp
    | succ i =>
      rw [hs] at hrest
      have h4 : Int64.ofInt x - wordOfSize (some 4) = Int64.ofInt (x - 4) := ofInt_sub_four x
      rw [h4] at hrest
      rw [ih (fun e he => hw e (List.mem_cons_of_mem _ he)) hrest (by simpa using he)]
      congr 2
      push_cast
      omega

theorem Framed.offset {s : Scope} (h : Framed s) {i : Nat} {e : Entry}
    (he : s.entries[i]? = some e) : e.offset = some (Int64.ofInt (-(4 * i))) := by
  have ho := offset_of_tiled h.words (x := 0) h.tiled he
  rw [ho]
  congr 2
  omega

def frameBytes (s : Scope) : Int := (s.storage.map fun e => (wordOfSize e.size).toInt).sum

theorem storage_eq {es : List Entry} (hw : ∀ e ∈ es, IsWord e) :
    es.filter (·.kind.isStorage) = es :=
  List.filter_eq_self.2 fun e he => (hw e he).1

theorem Framed.frameBytes {s : Scope} (h : Framed s) : frameBytes s = 4 * s.entries.length := by
  rw [Integer.frameBytes, Scope.storage, storage_eq fun e he => (h.words e he).1]
  have hall : ∀ es : List Entry, (∀ e ∈ es, e.size = some 4) →
      (es.map fun e => (wordOfSize e.size).toInt).sum = 4 * es.length := by
    intro es hes
    induction es with
    | nil => rfl
    | cons e es ih =>
      rw [List.map_cons, List.sum_cons, ih fun e he => hes e (List.mem_cons_of_mem _ he),
        hes e List.mem_cons_self, List.length_cons]
      show (4 : Int) + _ = _
      push_cast
      omega
  exact hall s.entries fun e he => (h.words e he).2

theorem sum_of_words {es : List Entry} (h : ∀ e ∈ es, e.size = some 4) (k : Nat) :
    es.foldl (fun total e => do return (← total) + (← e.size)) (some (Int64.ofNat k))
      = some (Int64.ofNat (k + 4 * es.length)) := by
  induction es generalizing k with
  | nil => rfl
  | cons e es ih =>
    rw [Scope.foldl_eq_some]
    refine ⟨4, h e List.mem_cons_self, ?_⟩
    have h4 : Int64.ofNat k + 4 = Int64.ofNat (k + 4) := by
      rw [Int64.ofNat_add]
      rfl
    rw [h4, ih (fun e he => h e (List.mem_cons_of_mem _ he)) (k + 4), List.length_cons]
    congr 2
    omega

theorem entriesSize_of_words {s : Scope} (hw : ∀ e ∈ s.entries, IsWord e ∧ e.size = some 4) :
    s.entriesSize = some (Int64.ofNat (4 * s.entries.length)) := by
  have hsum := sum_of_words (fun e he => (hw e he).2) 0
  rw [Nat.zero_add] at hsum
  rw [Scope.entriesSize, Scope.storage, storage_eq fun e he => (hw e he).1]
  exact hsum

/-- A sum of words is never taken for an unknown size. -/
theorem sizeOfWord_words (n : Nat) :
    sizeOfWord (Int64.ofNat (4 * n)) = some (Int64.ofNat (4 * n)) := by
  have hne : Int64.ofNat (4 * n) ≠ -1 := by
    intro h
    have hm := congrArg (fun v : Int64 => v.toBitVec.toNat % 4) h
    rw [show (-1 : Int64).toBitVec.toNat % 4 = 3 from rfl] at hm
    simp only [Int64.toBitVec_ofNat', BitVec.toNat_ofNat] at hm
    omega
  rw [sizeOfWord, if_neg (by simpa using hne)]

theorem entrySize_word {t : Table} {e : Entry} (h : IsWord e) :
    t.entrySize {} e = .ok (some 4) := by
  unfold Table.entrySize
  split
  · rfl
  · rfl
  · rw [h.2]
    rfl

theorem framed_of_settled {l : Layout} (hl : l.Settled) (hsizes : l.sizes = {}) {s : Scope}
    (hs : l.table.functions[0]? = some s) (hw : ∀ e ∈ s.entries, IsWord e) {i : Nat}
    {head : Signature} (hb : s.backing = .function i head) : Framed s := by
  have hlt : 0 < l.table.functions.length := (List.getElem?_eq_some_iff.1 hs).1
  have hmem : s ∈ l.scopes := List.mem_append_right _ (List.mem_of_getElem? hs)
  obtain ⟨below, own, hfin⟩ := hl.done (.ofFunction 0)
    (List.mem_append_right _ (List.mem_map.2 ⟨0, List.mem_range.2 hlt, rfl⟩)) s hs
  obtain ⟨hplaced, hbase⟩ := hl.functions 0 hlt s hs
  have hwords : ∀ e ∈ s.entries, IsWord e ∧ e.size = some 4 := by
    intro e he
    refine ⟨hw e he, ?_⟩
    obtain ⟨n, hn⟩ := Option.isSome_iff_exists.1
      (Scope.size_isSome_of_entriesSize hfin.entries he (hw e he).1)
    have hfair := (hl.sane.fair s hmem e he n hn).2
    rw [hsizes, entrySize_word (hw e he)] at hfair
    rw [hn, ← Except.ok.inj hfair]
  have htiled := hl.sane.tiled s hmem hplaced
  rw [hbase 0 rfl] at htiled
  refine ⟨hwords, htiled, ?_⟩
  have hbelow : below = 0 := by
    have hnone : l.table.basesSize s = some 0 := by
      unfold Table.basesSize Table.bases Table.baseNames
      rw [hb]
      rfl
    exact Option.some.inj (hfin.bases.symm.trans hnone)
  have hown := Option.some.inj (hfin.entries.symm.trans (entriesSize_of_words hwords))
  apply hfin.size
  rw [hbelow, hown, Int64.zero_add]
  exact sizeOfWord_words _

/-! ### The slots of a frame -/

namespace Framed

variable {s : Scope}

theorem toInt_offset (h : Framed s) (hn : 4 * s.entries.length ≤ 32768) {i : Nat} {e : Entry}
    (he : s.entries[i]? = some e) {o : Int64} (ho : e.offset = some o) :
    o.toInt = -(4 * i) ∧ i < s.entries.length := by
  have hi := (List.getElem?_eq_some_iff.1 he).1
  obtain rfl := Option.some.inj (ho.symm.trans (h.offset he))
  exact ⟨Int64.toInt_ofInt_of_le (by omega) (by omega), hi⟩

theorem exists_of_var {size : Int64} {n : String} {o : Int64}
    (h : (s.slots size).var n = some o) : ∃ (i : Nat) (e : Entry), s.entries[i]? = some e ∧ e.name = n ∧ n ≠ ""
      ∧ s.lookup n = some e ∧ e.offset = some o := by
  obtain ⟨e, he, ho⟩ := Option.bind_eq_some_iff.1 h
  have hl := he
  unfold Scope.lookup at he
  split at he
  · cases he
  · rename_i hne
    obtain ⟨i, hi⟩ := List.mem_iff_getElem?.1 (List.mem_of_find?_eq_some he)
    have hname := List.find?_some he
    exact ⟨i, e, hi, by simpa using hname, by simpa using hne, hl, ho⟩

theorem exists_of_temp {size : Int64} {q : Path} {o : Int64}
    (h : (s.slots size).temp q = some o) : ∃ (i : Nat) (e : Entry), s.entries[i]? = some e ∧ e.name = ""
      ∧ e.backing.map Backing.key = some (.expr q) ∧ s.slot (.expr q) .temporary = some e
      ∧ e.offset = some o := by
  obtain ⟨e, he, ho⟩ := Option.bind_eq_some_iff.1 h
  have hl := he
  unfold Scope.slot at he
  obtain ⟨i, hi⟩ := List.mem_iff_getElem?.1 (List.mem_of_find?_eq_some he)
  have hb := List.find?_some he
  simp only [Scope.backs, Bool.and_eq_true, beq_iff_eq] at hb
  exact ⟨i, e, hi, hb.1.1, hb.2, hl, ho⟩

theorem entry_inj (h : Framed s) (hn : 4 * s.entries.length ≤ 32768) {i j : Nat} {e d : Entry}
    (he : s.entries[i]? = some e) (hd : s.entries[j]? = some d) {o : Int64} (ho : e.offset = some o)
    (ho' : d.offset = some o) : e = d := by
  have h1 := (h.toInt_offset hn he ho).1
  have h2 := (h.toInt_offset hn hd ho').1
  obtain rfl : i = j := by omega
  exact Option.some.inj (he.symm.trans hd)

theorem inFrame (h : Framed s) (hn : 4 * s.entries.length ≤ 32768) {i : Nat} {e : Entry}
    (he : s.entries[i]? = some e) {o : Int64} (ho : e.offset = some o) :
    InFrame (s.slots (Int64.ofNat (4 * s.entries.length))) o := by
  obtain ⟨h1, h2⟩ := h.toInt_offset hn he ho
  have hs : (Int64.ofNat (4 * s.entries.length)).toInt = 4 * s.entries.length := by
    rw [Int64.toInt_ofNat_of_lt (by omega)]
    push_cast
    rfl
  refine ⟨?_, by omega, by omega⟩
  show 4 - (Int64.ofNat (4 * s.entries.length)).toInt ≤ o.toInt
  omega

/-- The slots of a small frame are different words. -/
theorem apart (h : Framed s) (hn : 4 * s.entries.length ≤ 32768) :
    Apart (s.slots (Int64.ofNat (4 * s.entries.length))) := by
  constructor
  · intro n o ho
    obtain ⟨i, e, hi, -, -, -, hoff⟩ := exists_of_var ho
    exact h.inFrame hn hi hoff
  · intro q o ho
    obtain ⟨i, e, hi, -, -, -, hoff⟩ := exists_of_temp ho
    exact h.inFrame hn hi hoff
  · intro n k o ho hk
    obtain ⟨i, e, hi, rfl, -, -, hoff⟩ := exists_of_var ho
    obtain ⟨j, d, hj, rfl, -, -, hoff'⟩ := exists_of_var hk
    rw [h.entry_inj hn hi hj hoff hoff']
  · intro p q o hp hq
    obtain ⟨i, e, hi, -, hkey, -, hoff⟩ := exists_of_temp hp
    obtain ⟨j, d, hj, -, hkey', -, hoff'⟩ := exists_of_temp hq
    rw [h.entry_inj hn hi hj hoff hoff', hkey'] at hkey
    exact (Backing.Key.expr.inj (Option.some.inj hkey)).symm
  · intro n q o hv ht
    obtain ⟨i, e, hi, hname, hne, -, hoff⟩ := exists_of_var hv
    obtain ⟨j, d, hj, hname', -, -, hoff'⟩ := exists_of_temp ht
    rw [h.entry_inj hn hi hj hoff hoff', hname'] at hname
    exact hne hname.symm

theorem var_isSome (h : Framed s) (size : Int64) {n : String} :
    ((s.slots size).var n).isSome = true ↔ (s.lookup n).isSome = true := by
  constructor
  · intro hv
    obtain ⟨o, ho⟩ := Option.isSome_iff_exists.1 hv
    obtain ⟨i, e, -, -, -, hl, -⟩ := exists_of_var ho
    rw [hl]
    rfl
  · intro hl
    obtain ⟨e, he⟩ := Option.isSome_iff_exists.1 hl
    have hmem : e ∈ s.entries := by
      unfold Scope.lookup at he
      split at he
      · cases he
      · exact List.mem_of_find?_eq_some he
    obtain ⟨i, hi⟩ := List.mem_iff_getElem?.1 hmem
    simp only [Scope.slots, he, Option.bind_some, h.offset hi]
    rfl

theorem temp_isSome (h : Framed s) (size : Int64) {q : Path}
    (hq : (s.slot (.expr q) .temporary).isSome = true) :
    ((s.slots size).temp q).isSome = true := by
  obtain ⟨e, he⟩ := Option.isSome_iff_exists.1 hq
  obtain ⟨i, hi⟩ := List.mem_iff_getElem?.1 (List.mem_of_find?_eq_some he)
  simp only [Scope.slots, he, Option.bind_some, h.offset hi]
  rfl

end Framed

end MoonBackend.Integer
