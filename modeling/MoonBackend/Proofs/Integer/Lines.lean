import MoonBackend.Proofs.Assembly.Acceptable
import MoonBackend.Proofs.Integer.Execution
import MoonBackend.Proofs.Text.Numeral

/-!
# The lines of the integer language

The emitted lines are ones that the assembler takes, if the frame is small enough for its offsets to
fit in a half word, and their labels are all different.
-/

namespace MoonBackend.Integer

open Text Assembly Code

/-! ### Comments -/

def Named (slots : Slots) : Prop := ∀ n, (slots.var n).isSome = true → OneLine n

theorem oneLine_expr {slots : Slots} (hn : Named slots) {e : Expr} (he : IsExpr e) :
    ∀ path, Covered slots path e → OneLine e.text := by
  refine IsExpr.induction (motive := fun e => ∀ path, Covered slots path e → OneLine e.text)
    ?_ ?_ ?_ ?_ e he
  · intro v _ _ path _
    exact oneLine_decimal v.toInt
  · intro name path hc
    exact hn name hc
  · intro op e _ ih path hc
    have hsub := ih _ hc.1
    cases op with
    | not =>
      simp only [Expr.text, if_true, oneLine_append]
      exact ⟨⟨by decide, hsub⟩, by decide⟩
    | plus =>
      simp only [Expr.text, reduceCtorEq, if_false, oneLine_append]
      exact ⟨⟨⟨by decide, by decide⟩, hsub⟩, by decide⟩
    | minus =>
      simp only [Expr.text, reduceCtorEq, if_false, oneLine_append]
      exact ⟨⟨⟨by decide, by decide⟩, hsub⟩, by decide⟩
  · intro op l r _ _ ihl ihr path hc
    have hop : OneLine op.text := by cases op <;> decide
    simp only [Expr.text, oneLine_append]
    exact ⟨⟨⟨⟨⟨⟨by decide, ihl _ hc.1.1⟩, by decide⟩, hop⟩, by decide⟩, ihr _ hc.1.2⟩, by decide⟩

theorem oneLine_target {slots : Slots} (hn : Named slots) {path : Path} {target : Expr}
    (ht : IsTarget target) (hc : Covered slots path target) : OneLine target.text := by
  cases target with
  | var name type => exact hn name hc
  | _ => exact absurd ht (by simp [IsTarget])

/-! ### Acceptable lines -/

/-- What the lines rely on: names of the library, and a frame whose offsets fit in a half word. -/
structure Linked (names : Names) (slots : Slots) (exit : String) : Prop where
  proper : names.Proper
  named : Named slots
  library : ∀ s ∈ ["intstr", "putstr", "getstr", "strint", "buf", exit],
    (names.address? s).isSome = true
  var : ∀ n o, slots.var n = some o → -32768 ≤ o.toInt ∧ o.toInt ≤ 0
  temp : ∀ q o, slots.temp q = some o → -32768 ≤ o.toInt ∧ o.toInt ≤ 0
  size : 0 ≤ slots.size.toInt ∧ slots.size.toInt ≤ 32768

section
variable {names : Names} {slots : Slots} {exit : String}

theorem acceptable_constantCode (hn : names.Proper) {r : Register} (hr : r.index?.isSome = true)
    {v : Int64} (hv : -2 ^ 31 ≤ v.toInt ∧ v.toInt < 2 ^ 31) :
    Acceptable names (constantCode r v) := by
  unfold constantCode
  split
  · rename_i h
    simp only [Bool.and_eq_true, decide_eq_true_eq, Int64.le_iff_toInt_le, Int64.lt_iff_toInt_lt] at h
    have h1 : -32768 ≤ v.toInt := h.1
    have h2 : v.toInt < 32768 := h.2
    refine acceptable_plain hn ?_
    simp only [List.mem_singleton, forall_eq]
    exact Item.proper_imm (by decide) rfl hr rfl (value?_number h1 (by omega))
  · refine acceptable_plain hn ?_
    have hhigh := toInt_highHalf v
    have hlow := toInt_lowHalf v
    simp only [List.mem_cons, List.not_mem_nil, or_false, forall_eq_or_imp, forall_eq]
    exact ⟨Item.proper_imm (by decide) rfl hr rfl (value?_number (by omega) (by omega)),
      Item.proper_sl hr rfl,
      Item.proper_imm (by decide) rfl hr hr (value?_number (by omega) (by omega))⟩

def Near : Place → Prop
  | .immediate v => -2 ^ 31 ≤ v.toInt ∧ v.toInt < 2 ^ 31
  | .slot o => -32768 ≤ o.toInt ∧ o.toInt ≤ 0

theorem near_place (h : Linked names slots exit) {e : Expr} (he : IsExpr e) {path : Path}
    (hc : Covered slots path e) : Near (place slots path e) := by
  have htemp : (slots.temp path).isSome = true → Near (.slot ((slots.temp path).getD 0)) := by
    intro hs
    obtain ⟨o, ho⟩ := Option.isSome_iff_exists.1 hs
    rw [ho]
    exact h.temp path o ho
  cases e with
  | int v => exact he
  | var name type =>
    obtain ⟨o, ho⟩ := Option.isSome_iff_exists.1 hc
    simp only [place, ho]
    exact h.var name o ho
  | unary op e type => exact htemp hc.2
  | binary op l r type => exact htemp hc.2
  | _ => exact absurd he (by simp [IsExpr])

theorem acceptable_loadCode (hn : names.Proper) {r : Register} (hr : r.index?.isSome = true)
    {p : Place} (hp : Near p) : Acceptable names (loadCode r p) := by
  cases p with
  | immediate v => exact acceptable_constantCode hn hr hp
  | slot o =>
    refine acceptable_plain hn ?_
    simp only [List.mem_singleton, forall_eq]
    exact Item.proper_lw hr rfl (value?_number hp.1 (by have := hp.2; omega))

theorem acceptable_keep (hn : names.Proper) {r : Register} (hr : r.index?.isSome = true)
    {o : Int64} (ho : -32768 ≤ o.toInt ∧ o.toInt ≤ 0) :
    Acceptable names (plain [.sw o stack r]) := by
  refine acceptable_plain hn ?_
  simp only [List.mem_singleton, forall_eq]
  exact Item.proper_sw hr rfl (value?_number ho.1 (by omega))

theorem acceptable_storeCode (hn : names.Proper) {o : Int64}
    (ho : -32768 ≤ o.toInt ∧ o.toInt ≤ 0) {p : Place} (hp : Near p) :
    Acceptable names (storeCode o p) :=
  acceptable_append.2 ⟨acceptable_loadCode hn rfl hp, acceptable_keep hn rfl ho⟩

theorem acceptable_unaryCode (hn : names.Proper) (op : UnaryOp) :
    Acceptable names (unaryCode op) := by
  cases op with
  | plus => exact acceptable_nil
  | minus =>
    refine acceptable_plain hn ?_
    simp only [List.mem_singleton, forall_eq]
    exact Item.proper_reg3 (by decide) rfl rfl rfl rfl
  | not =>
    refine acceptable_plain hn ?_
    simp only [List.mem_singleton, forall_eq]
    exact Item.proper_reg3 (by decide) rfl rfl rfl rfl

theorem acceptable_integerOperation (hn : names.Proper) (op : BinaryOp) :
    Acceptable names (Emit.integerOperation first second zero op) := by
  have hone : ∀ (op : Opcode) (ri rj rk : Register), op ∈ Opcode.all → op.form = .threeRegisters →
      ri.index?.isSome = true → rj.index?.isSome = true → rk.index?.isSome = true →
      Acceptable names (plain [.reg3 op ri rj rk]) := by
    intro op ri rj rk h1 h2 h3 h4 h5
    refine acceptable_plain hn ?_
    simp only [List.mem_singleton, forall_eq]
    exact Item.proper_reg3 h1 h2 h3 h4 h5
  have htruth : ∀ op : Opcode, op ∈ Opcode.all → op.form = .threeRegisters →
      Acceptable names (plain [.reg3 .cne first first zero, .reg3 .cne second second zero,
        .reg3 op first first second]) := by
    intro op h1 h2
    refine acceptable_plain hn ?_
    simp only [List.mem_cons, List.not_mem_nil, or_false, forall_eq_or_imp, forall_eq]
    exact ⟨Item.proper_reg3 (by decide) rfl rfl rfl rfl,
      Item.proper_reg3 (by decide) rfl rfl rfl rfl, Item.proper_reg3 h1 h2 rfl rfl rfl⟩
  cases op with
  | and => exact htruth .and (by decide) rfl
  | or => exact htruth .or (by decide) rfl
  | _ => exact hone _ _ _ _ (by decide) rfl rfl rfl rfl

theorem acceptable_exprCode (h : Linked names slots exit) {e : Expr} (he : IsExpr e) :
    ∀ path, Covered slots path e → Acceptable names (exprCode slots path e) := by
  have htemp : ∀ path, (slots.temp path).isSome = true →
      Acceptable names (plain [.sw ((slots.temp path).getD 0) stack first]) := by
    intro path hs
    obtain ⟨o, ho⟩ := Option.isSome_iff_exists.1 hs
    rw [ho]
    exact acceptable_keep h.proper rfl (h.temp path o ho)
  refine IsExpr.induction (motive := fun e => ∀ path, Covered slots path e →
    Acceptable names (exprCode slots path e)) ?_ ?_ ?_ ?_ e he
  · intro v _ _ path _
    exact acceptable_nil
  · intro name path _
    exact acceptable_nil
  · intro op e he ih path hc
    simp only [exprCode, acceptable_append]
    exact ⟨ih _ hc.1, ⟨acceptable_loadCode h.proper rfl (near_place h he hc.1),
      acceptable_unaryCode h.proper op⟩, htemp path hc.2⟩
  · intro op l r hl hr ihl ihr path hc
    simp only [exprCode, acceptable_append]
    exact ⟨⟨ihl _ hc.1.1, ihr _ hc.1.2⟩, ⟨⟨acceptable_loadCode h.proper rfl (near_place h hl hc.1.1),
      acceptable_loadCode h.proper rfl (near_place h hr hc.1.2)⟩,
      acceptable_integerOperation h.proper op⟩, htemp path hc.2⟩

end

/-! ### Labels -/

/-- The text is a name that does not end in a digit. -/
def Stem (s : String) : Prop :=
  isIdentifier s.toList = true ∧ ∃ cs c, s = String.ofList (cs ++ [c]) ∧ c.isDigit = false

theorem decimal_natCast (n : Nat) : (decimal n).toList = Nat.toDigits 10 n := by
  show (String.ofList (Nat.toDigits 10 n)).toList = _
  exact String.toList_ofList

theorem label_inj {s t : String} (hs : Stem s) (ht : Stem t) {m n : Nat}
    (h : label s m = label t n) : m = n := by
  obtain ⟨-, cs, c, rfl, hc⟩ := hs
  obtain ⟨-, ds, d, rfl, hd⟩ := ht
  have hl := congrArg String.toList h
  simp only [label, String.toList_append, decimal_natCast, String.toList_ofList,
    List.append_assoc, List.singleton_append] at hl
  exact append_toDigits_inj hc hd hl

theorem label_ne {s t : String} (ht : Stem t) (n : Nat) : label s n ≠ t := by
  obtain ⟨-, ds, d, rfl, hd⟩ := ht
  intro h
  have hl := congrArg String.toList h
  simp only [label, String.toList_append, decimal_natCast, String.toList_ofList] at hl
  have hlast := congrArg List.getLast? hl
  cases he : (Nat.toDigits 10 n).getLast? with
  | none => exact Nat.toDigits_ne_nil (List.getLast?_eq_none_iff.1 he)
  | some e =>
    simp only [List.getLast?_append, he, List.getLast?_singleton, Option.some_or,
      Option.some.injEq] at hlast
    have hdig := Nat.isDigit_of_mem_toDigits (by decide) (by decide) (List.mem_of_getLast? he)
    rw [hlast, hd] at hdig
    cases hdig

structure Numbered (p : Nat → Prop) (labels : List String) : Prop where
  nodup : labels.Nodup
  label : ∀ s ∈ labels, ∃ t n, Stem t ∧ s = label t n ∧ p n

theorem Numbered.nil {p : Nat → Prop} : Numbered p [] := ⟨List.nodup_nil, fun _ h => by cases h⟩

theorem Numbered.single {t : String} (ht : Stem t) (n : Nat) : Numbered (· = n) [Integer.label t n] :=
  ⟨by simp, fun s hs => ⟨t, n, ht, List.mem_singleton.1 hs, rfl⟩⟩

theorem Numbered.append {p q : Nat → Prop} {l k : List String} (hl : Numbered p l)
    (hk : Numbered q k) (hd : ∀ n, p n → q n → False) : Numbered (fun n => p n ∨ q n) (l ++ k) := by
  constructor
  · rw [List.nodup_append]
    refine ⟨hl.nodup, hk.nodup, ?_⟩
    rintro s hs _ hs' rfl
    obtain ⟨t, n, ht, rfl, hp⟩ := hl.label s hs
    obtain ⟨t', n', ht', he, hq⟩ := hk.label _ hs'
    rw [← label_inj ht ht' he] at hq
    exact hd n hp hq
  · intro s hs
    rcases List.mem_append.1 hs with hs | hs
    · obtain ⟨t, n, h1, h2, h3⟩ := hl.label s hs
      exact ⟨t, n, h1, h2, .inl h3⟩
    · obtain ⟨t, n, h1, h2, h3⟩ := hk.label s hs
      exact ⟨t, n, h1, h2, .inr h3⟩

theorem Numbered.mono {p q : Nat → Prop} {l : List String} (h : Numbered p l)
    (hq : ∀ n, p n → q n) : Numbered q l := by
  refine ⟨h.nodup, fun s hs => ?_⟩
  obtain ⟨t, n, h1, h2, h3⟩ := h.label s hs
  exact ⟨t, n, h1, h2, hq n h3⟩

def Within (n k : Nat) (m : Nat) : Prop := n < m ∧ m ≤ n + k

theorem stem_else : Stem "else" := ⟨by decide, ['e', 'l', 's'], 'e', rfl, rfl⟩
theorem stem_endif : Stem "endif" := ⟨by decide, ['e', 'n', 'd', 'i'], 'f', rfl, rfl⟩
theorem stem_top : Stem "top" := ⟨by decide, ['t', 'o'], 'p', rfl, rfl⟩
theorem stem_endwhile : Stem "endwhile" :=
  ⟨by decide, ['e', 'n', 'd', 'w', 'h', 'i', 'l'], 'e', rfl, rfl⟩

section
variable {slots : Slots} {exit : String}

@[simp] theorem labelNames_loadCode (r : Register) (p : Place) : labelNames (loadCode r p) = [] := by
  cases p with
  | immediate v =>
    simp only [loadCode, constantCode]
    split <;> simp
  | slot o => simp [loadCode]

@[simp] theorem labelNames_unaryCode (op : UnaryOp) : labelNames (unaryCode op) = [] := by
  cases op <;> simp [unaryCode]

@[simp] theorem labelNames_integerOperation (a b z : Register) (op : BinaryOp) :
    labelNames (Emit.integerOperation a b z op) = [] := by
  cases op <;> simp [Emit.integerOperation]

theorem labelNames_exprCode (slots : Slots) : ∀ (path : Path) (e : Expr),
    labelNames (exprCode slots path e) = []
  | path, .unary op e _ => by
    have := labelNames_exprCode slots (0 :: path) e
    simp [exprCode, this]
  | path, .binary op l r _ => by
    have hl := labelNames_exprCode slots (0 :: path) l
    have hr := labelNames_exprCode slots (1 :: path) r
    simp [exprCode, hl, hr]
  | _, .missing | _, .int _ | _, .float _ | _, .var _ _ | _, .dot _ _ _ | _, .index _ _ _
  | _, .call _ _ _ _ _ _ => by simp [exprCode]

theorem labelNames_testCode (slots : Slots) (path : Path) (e : Expr) (target : String) :
    labelNames (testCode slots path e target) = [] := by
  simp [testCode, labelNames_exprCode]

theorem labelNames_choice {cond yes no : Code} {stop next : String} (hc : labelNames cond = []) :
    labelNames (Emit.choice cond yes no stop next)
      = labelNames yes ++ [stop] ++ labelNames no ++ [next] := by
  simp [Emit.choice, hc, mark]

theorem numbered_choice {cond yes no : Code} {n k j : Nat} (hc : labelNames cond = [])
    (hy : Numbered (Within (n + 2) k) (labelNames yes))
    (hn : Numbered (Within (n + 2 + k) j) (labelNames no)) :
    Numbered (Within n (2 + k + j))
      (labelNames (Emit.choice cond yes no (label "else" (n + 1)) (label "endif" (n + 2)))) := by
  rw [labelNames_choice hc]
  refine (((hy.append (.single stem_else (n + 1)) ?_).append hn ?_).append
    (.single stem_endif (n + 2)) ?_).mono ?_
  all_goals
    intro m
    simp only [Within]
    omega

mutual

/-- The labels of a statement are numbered in its own range. -/
theorem numbered_stmtCode (slots : Slots) (exit : String) (path : Path) (n : Nat) : ∀ st : Stmt,
    Numbered (Within n (labelCount st)) (labelNames (stmtCode slots exit path n st))
  | .declare d init => by
    simp only [stmtCode]
    split
    · exact .nil
    · simp [note, labelNames_exprCode, storeCode, Numbered.nil]
  | .assign target e => by simp [stmtCode, note, labelNames_exprCode, storeCode, Numbered.nil]
  | .when cond body => by
    have hb := numbered_stmtsCode slots exit (1 :: path) 0 (n + 2) body
    have ht : labelNames (note ("if " ++ cond.text)
        ++ testCode slots (0 :: path) cond (label "else" (n + 1))) = [] := by
      simp [note, labelNames_testCode]
    exact numbered_choice (j := 0) ht hb .nil
  | .branch cond yes no => by
    have hy := numbered_stmtsCode slots exit (1 :: path) 0 (n + 2) yes
    have hn := numbered_stmtsCode slots exit (2 :: path) 0 (n + 2 + labelCountAll yes) no
    have ht : labelNames (note ("if " ++ cond.text)
        ++ testCode slots (0 :: path) cond (label "else" (n + 1))) = [] := by
      simp [note, labelNames_testCode]
    exact numbered_choice ht hy hn
  | .loop cond body => by
    have hb := numbered_stmtsCode slots exit (1 :: path) 0 (n + 2) body
    have hl : labelNames (stmtCode slots exit path n (.loop cond body))
        = [label "top" (n + 1)] ++ labelNames (stmtsCode slots exit (1 :: path) 0 (n + 2) body)
          ++ [label "endwhile" (n + 2)] := by
      simp [stmtCode, note, mark, labelNames_testCode]
    rw [hl]
    refine (((Numbered.single stem_top (n + 1)).append hb ?_).append
      (.single stem_endwhile (n + 2)) ?_).mono ?_
    all_goals
      intro m
      simp only [Within, labelCount]
      omega
  | .write e => by
    simp [stmtCode, note, labelNames_exprCode, printCode, newlineCode, Numbered.nil]
  | .read target => by simp [stmtCode, note, readCode, Numbered.nil]
  | .ret e => by simp [stmtCode, Numbered.nil]
  | .call e => by simp [stmtCode, Numbered.nil]

theorem numbered_stmtsCode (slots : Slots) (exit : String) (path : Path) (i n : Nat) :
    ∀ sts : List Stmt,
    Numbered (Within n (labelCountAll sts)) (labelNames (stmtsCode slots exit path i n sts))
  | [] => .nil
  | st :: sts => by
    have h1 := numbered_stmtCode slots exit (i :: path) n st
    have h2 := numbered_stmtsCode slots exit path (i + 1) (n + labelCount st) sts
    rw [stmtsCode, labelNames_append]
    refine (h1.append h2 ?_).mono ?_
    all_goals
      intro m
      simp only [Within, labelCountAll]
      omega

end

end

/-! ### Acceptable statements -/

theorem isIdentifier_label {s : String} (h : isIdentifier s.toList = true) (n : Nat) :
    isIdentifier (label s n).toList = true := by
  rw [label, String.toList_append, decimal_natCast]
  cases hs : s.toList with
  | nil =>
    rw [hs] at h
    cases h
  | cons c cs =>
    rw [hs] at h
    simp only [isIdentifier, List.cons_append, Bool.and_eq_true, List.all_append] at h ⊢
    refine ⟨h.1, h.2, ?_⟩
    rw [List.all_eq_true]
    intro d hd
    exact isNameChar_of_isDigit (Nat.isDigit_of_mem_toDigits (by decide) (by decide) hd)

section
variable {names : Names} {slots : Slots} {exit : String}

theorem acceptable_mark (hn : names.Proper) {s : String} (hs : isIdentifier s.toList = true) :
    Acceptable names [mark s] :=
  acceptable_labeled hn hs (Item.proper_bare (by decide) rfl)

theorem acceptable_jump (hn : names.Proper) {s : String} (hs : (names.address? s).isSome = true) :
    Acceptable names (plain [.j s]) := by
  refine acceptable_plain hn ?_
  simp only [List.mem_singleton, forall_eq]
  exact Item.proper_j hs

theorem acceptable_testCode (h : Linked names slots exit) {e : Expr} (he : IsExpr e) {path : Path}
    (hc : Covered slots path e) {target : String} (ht : (names.address? target).isSome = true) :
    Acceptable names (testCode slots path e target) := by
  simp only [testCode, acceptable_append]
  refine ⟨acceptable_exprCode h he path hc,
    acceptable_loadCode h.proper rfl (near_place h he hc), acceptable_plain h.proper ?_⟩
  simp only [List.mem_singleton, forall_eq]
  exact Item.proper_bz rfl ht

theorem size_operand (h : Linked names slots exit) :
    ((Operand.number slots.size).value? names).isSome = true
      ∧ ((Operand.number (-slots.size)).value? names).isSome = true := by
  obtain ⟨h0, h1⟩ := h.size
  have hneg : (-slots.size).toInt = -slots.size.toInt := by
    rw [Int64.toInt_neg]
    exact Int.bmod_eq_of_le (by omega) (by omega)
  exact ⟨value?_number (by omega) (by omega), value?_number (by omega) (by omega)⟩

theorem acceptable_printCode (h : Linked names slots exit) {p : Place} (hp : Near p) :
    Acceptable names (printCode slots.size p) := by
  obtain ⟨hs, hs'⟩ := size_operand h
  refine acceptable_append.2 ⟨acceptable_loadCode h.proper rfl hp, acceptable_plain h.proper ?_⟩
  simp only [List.mem_cons, List.not_mem_nil, or_false, forall_eq_or_imp, forall_eq]
  exact ⟨Item.proper_imm (by decide) rfl rfl rfl hs', Item.proper_sw rfl rfl rfl,
    Item.proper_named rfl rfl (h.library _ (by simp)), Item.proper_sw rfl rfl rfl,
    Item.proper_jl rfl (h.library _ (by simp)), Item.proper_sw rfl rfl rfl,
    Item.proper_jl rfl (h.library _ (by simp)), Item.proper_imm (by decide) rfl rfl rfl hs⟩

theorem acceptable_newlineCode (hn : names.Proper) : Acceptable names newlineCode := by
  refine acceptable_plain hn ?_
  simp only [List.mem_cons, List.not_mem_nil, or_false, forall_eq_or_imp, forall_eq]
  exact ⟨Item.proper_imm (by decide) rfl rfl rfl rfl, Item.proper_reg1 (by decide) rfl rfl⟩

theorem acceptable_readCode (h : Linked names slots exit) {o : Int64}
    (ho : -32768 ≤ o.toInt ∧ o.toInt ≤ 0) : Acceptable names (readCode slots.size o) := by
  obtain ⟨hs, hs'⟩ := size_operand h
  refine acceptable_append.2 ⟨acceptable_plain h.proper ?_, acceptable_keep h.proper rfl ho⟩
  simp only [List.mem_cons, List.not_mem_nil, or_false, forall_eq_or_imp, forall_eq]
  exact ⟨Item.proper_imm (by decide) rfl rfl rfl hs',
    Item.proper_named rfl rfl (h.library _ (by simp)), Item.proper_sw rfl rfl rfl,
    Item.proper_jl rfl (h.library _ (by simp)), Item.proper_named rfl rfl (h.library _ (by simp)),
    Item.proper_sw rfl rfl rfl, Item.proper_jl rfl (h.library _ (by simp)),
    Item.proper_imm (by decide) rfl rfl rfl hs⟩

theorem acceptable_choice (hn : names.Proper) {cond yes no : Code} {stop next : String}
    (hc : Acceptable names cond) (hy : Acceptable names yes) (hno : Acceptable names no)
    (hs : isIdentifier stop.toList = true) (ht : isIdentifier next.toList = true)
    (hnext : (names.address? next).isSome = true) :
    Acceptable names (Emit.choice cond yes no stop next) := by
  simp only [Emit.choice, acceptable_append]
  exact ⟨⟨⟨⟨⟨hc, hy⟩, acceptable_jump hn hnext⟩, acceptable_mark hn hs⟩, hno⟩, acceptable_mark hn ht⟩

mutual

theorem acceptable_stmtCode (h : Linked names slots exit) {path : Path} {n : Nat} {st : Stmt}
    (hst : IsStmt st) (hc : CoveredStmt slots path st)
    (hl : ∀ s ∈ labelNames (stmtCode slots exit path n st), (names.address? s).isSome = true) :
    Acceptable names (stmtCode slots exit path n st) := by
  cases st with
  | declare d init =>
    obtain ⟨o, ho⟩ := Option.isSome_iff_exists.1 hc.1
    simp only [stmtCode]
    split
    · exact acceptable_nil
    · rename_i hm
      have he : IsExpr init := by
        rcases hst.2 with rfl | he
        · exact absurd rfl hm
        · exact he
      simp only [ho, Option.getD_some, acceptable_append]
      refine ⟨acceptable_comment ?_, acceptable_exprCode h he _ hc.2,
        acceptable_storeCode h.proper (h.var _ o ho) (near_place h he hc.2)⟩
      exact oneLine_append.2 ⟨oneLine_append.2 ⟨h.named _ hc.1, by decide⟩,
        oneLine_expr h.named he _ hc.2⟩
  | assign target e =>
    obtain ⟨o, ho, hget⟩ := covered_target hst.1 hc.1
    simp only [stmtCode, hget, acceptable_append]
    refine ⟨acceptable_comment ?_, acceptable_exprCode h hst.2 _ hc.2,
      acceptable_storeCode h.proper (h.var _ o ho) (near_place h hst.2 hc.2)⟩
    exact oneLine_append.2 ⟨oneLine_append.2 ⟨oneLine_target h.named hst.1 hc.1, by decide⟩,
      oneLine_expr h.named hst.2 _ hc.2⟩
  | «when» cond body =>
    have hcond : labelNames (note ("if " ++ cond.text)
        ++ testCode slots (0 :: path) cond (label "else" (n + 1))) = [] := by
      simp [note, labelNames_testCode]
    rw [stmtCode] at hl ⊢
    rw [labelNames_choice hcond] at hl
    refine acceptable_choice h.proper (acceptable_append.2 ⟨acceptable_comment ?_,
      acceptable_testCode h hst.1 hc.1 (hl _ (by simp))⟩)
      (acceptable_stmtsCode h hst.2 hc.2 fun s hs => hl s (by simp [hs])) acceptable_nil
      (isIdentifier_label (by decide) _) (isIdentifier_label (by decide) _) (hl _ (by simp))
    exact oneLine_append.2 ⟨by decide, oneLine_expr h.named hst.1 _ hc.1⟩
  | branch cond yes no =>
    have hcond : labelNames (note ("if " ++ cond.text)
        ++ testCode slots (0 :: path) cond (label "else" (n + 1))) = [] := by
      simp [note, labelNames_testCode]
    rw [stmtCode] at hl ⊢
    rw [labelNames_choice hcond] at hl
    refine acceptable_choice h.proper (acceptable_append.2 ⟨acceptable_comment ?_,
      acceptable_testCode h hst.1 hc.1 (hl _ (by simp))⟩)
      (acceptable_stmtsCode h hst.2.1 hc.2.1 fun s hs => hl s (by simp [hs]))
      (acceptable_stmtsCode h hst.2.2 hc.2.2 fun s hs => hl s (by simp [hs]))
      (isIdentifier_label (by decide) _) (isIdentifier_label (by decide) _) (hl _ (by simp))
    exact oneLine_append.2 ⟨by decide, oneLine_expr h.named hst.1 _ hc.1⟩
  | loop cond body =>
    have hlabels : labelNames (stmtCode slots exit path n (.loop cond body))
        = [label "top" (n + 1)] ++ labelNames (stmtsCode slots exit (1 :: path) 0 (n + 2) body)
          ++ [label "endwhile" (n + 2)] := by
      simp [stmtCode, note, mark, labelNames_testCode]
    rw [hlabels] at hl
    simp only [stmtCode, acceptable_append]
    refine ⟨⟨⟨⟨⟨acceptable_comment ?_, acceptable_mark h.proper (isIdentifier_label (by decide) _)⟩,
      acceptable_testCode h hst.1 hc.1 (hl _ (by simp))⟩,
      acceptable_stmtsCode h hst.2 hc.2 fun s hs => hl s (by simp [hs])⟩,
      acceptable_jump h.proper (hl _ (by simp))⟩,
      acceptable_mark h.proper (isIdentifier_label (by decide) _)⟩
    exact oneLine_append.2 ⟨by decide, oneLine_expr h.named hst.1 _ hc.1⟩
  | write e =>
    simp only [stmtCode, acceptable_append]
    refine ⟨acceptable_comment ?_, ⟨acceptable_exprCode h hst _ hc,
      acceptable_printCode h (near_place h hst hc)⟩, acceptable_newlineCode h.proper⟩
    exact oneLine_append.2 ⟨oneLine_append.2 ⟨by decide, oneLine_expr h.named hst _ hc⟩, by decide⟩
  | read target =>
    obtain ⟨o, ho, hget⟩ := covered_target hst hc
    simp only [stmtCode, hget, acceptable_append]
    refine ⟨acceptable_comment ?_, acceptable_readCode h (h.var _ o ho)⟩
    exact oneLine_append.2 ⟨oneLine_append.2 ⟨by decide, oneLine_target h.named hst hc⟩, by decide⟩
  | ret e => exact acceptable_jump h.proper (h.library _ (by simp))
  | call e => exact absurd hst (by simp [IsStmt])

/-- The lines of statements are ones that the assembler takes. -/
theorem acceptable_stmtsCode (h : Linked names slots exit) {path : Path} {i n : Nat}
    {sts : List Stmt} (hst : AreStmts sts) (hc : CoveredStmts slots path i sts)
    (hl : ∀ s ∈ labelNames (stmtsCode slots exit path i n sts), (names.address? s).isSome = true) :
    Acceptable names (stmtsCode slots exit path i n sts) := by
  cases sts with
  | nil => exact acceptable_nil
  | cons st sts =>
    rw [stmtsCode] at hl ⊢
    rw [labelNames_append] at hl
    exact acceptable_append.2
      ⟨acceptable_stmtCode h hst.1 hc.1 fun s hs => hl s (List.mem_append_left _ hs),
        acceptable_stmtsCode h hst.2 hc.2 fun s hs => hl s (List.mem_append_right _ hs)⟩

end

end

end MoonBackend.Integer
