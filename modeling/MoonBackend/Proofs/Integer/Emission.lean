import MoonBackend.Proofs.Code.Printing
import MoonBackend.Proofs.Emit.Registers
import MoonBackend.Proofs.Integer.Code

/-!
# Emission of the integer language

In the context of a function of the stock machine, emission of the completed statements of the
integer language answers with exactly the lines of `stmtCode`, gives out as many labels as
`labelCount` says and has all registers back in the pool.
-/

namespace MoonBackend.Integer

open Emit Code

/-- The expression with the types that completion gives it. -/
def typed : Expr → Expr
  | .var name _ => .var name .integer
  | .unary op e _ => .unary op (typed e) .integer
  | .binary op l r _ => .binary op (typed l) (typed r) .integer
  | e => e

/-- Every variable of the expression has a slot, and so has every value inside it. -/
def Covered (slots : Slots) (path : Path) : Expr → Prop
  | .var name _ => (slots.var name).isSome = true
  | .unary _ e _ => Covered slots (0 :: path) e ∧ (slots.temp path).isSome = true
  | .binary _ l r _ =>
    (Covered slots (0 :: path) l ∧ Covered slots (1 :: path) r) ∧ (slots.temp path).isSome = true
  | _ => True

/-- The context is that of a function of the stock machine with the given slots. -/
structure Ready (c : Context) (slots : Slots) : Prop where
  config : c.config = {}
  sizes : c.layout.sizes = {}
  size : c.scope.size = some slots.size
  var : ∀ x o, slots.var x = some o → ∃ l, c.layout.table.resolveName c.index x = some (l, false)
    ∧ c.scope.lookup x = some l.entry ∧ l.entry.offset = some o ∧ l.entry.type = .integer
  temp : ∀ q o, slots.temp q = some o →
    ∃ e, c.scope.slot (.expr q) .temporary = some e ∧ e.offset = some o

def stockPool : RegisterPool := .ofNumbers ({} : Registers).general

theorem sound_stockPool : stockPool.Sound := RegisterPool.sound_ofNumbers (by decide)

section
variable {c : Context} {slots : Slots} {k : Counts} {path : Path} {e : Expr}

theorem eval_temporary (h : Ready c slots) {o : Int64} (ho : slots.temp path = some o) (e : Expr)
    (k : Counts) : eval (temporary path e) c k = (.ok o, k) := by
  obtain ⟨entry, hs, hoff⟩ := h.temp path o ho
  unfold temporary
  rw [eval_slotOffset]
  simp only [Scope.requireSlot, Backing.key, hs, Except.bind, Entry.getOffset, hoff]

theorem type_typed (he : IsExpr e) : (typed e).type = .integer := by
  cases e with
  | int v => rfl
  | var name type => rfl
  | unary op e type => rfl
  | binary op l r type => rfl
  | _ => exact absurd he (by simp [IsExpr])

theorem eval_placeOf (h : Ready c slots) (he : IsExpr e) (hc : Covered slots path e) (k : Counts) :
    eval (placeOf path (typed e)) c k = (.ok (place slots path e), k) := by
  have htemp : (slots.temp path).isSome = true → ∀ e',
      eval (do return Place.slot (← temporary path e')) c k
        = (.ok (.slot ((slots.temp path).getD 0)), k) := by
    intro hs e'
    obtain ⟨o, ho⟩ := Option.isSome_iff_exists.1 hs
    rw [eval_bind_ok (eval_temporary h ho e' k), ho]
    rfl
  cases e with
  | int v => rfl
  | var name type =>
    obtain ⟨o, ho⟩ := Option.isSome_iff_exists.1 hc
    obtain ⟨l, hres, -, hoff, -⟩ := h.var name o ho
    simp only [typed, placeOf, eval_bind, eval_resolve, hres, Entry.getOffset, hoff, eval_lift_ok,
      place, ho]
    rfl
  | unary op e type => exact htemp hc.2 _
  | binary op l r type => exact htemp hc.2 _
  | _ => exact absurd he (by simp [IsExpr])

def Fits : Place → Prop
  | .immediate v => -2 ^ 31 ≤ v.toInt ∧ v.toInt < 2 ^ 31
  | .slot _ => True

theorem fits_place (he : IsExpr e) : Fits (place slots path e) := by
  cases e with
  | int v => exact he
  | _ => exact trivial

theorem eval_constant (h : c.config = {}) {v : Int64} (hv : -2 ^ 31 ≤ v.toInt ∧ v.toInt < 2 ^ 31)
    (r : Register) (k : Counts) : eval (constant r v) c k = (.ok (constantCode r v), k) := by
  have h2 : (-2147483648 ≤ v && v < 2147483648) = true := by
    simp only [Bool.and_eq_true, decide_eq_true_eq, Int64.le_iff_toInt_le, Int64.lt_iff_toInt_lt]
    exact hv
  unfold constant constantCode
  simp only [eval_bind, eval_zero, h]
  by_cases h1 : (-32768 ≤ v && v < 32768) = true
  · rw [if_pos h1, if_pos h1]
    rfl
  · rw [if_neg h1, if_neg h1, if_pos h2]
    rfl

theorem eval_load (h : c.config = {}) {p : Place} (hp : Fits p) (r : Register) (k : Counts) :
    eval (load r p 0) c k = (.ok (loadCode r p), k) := by
  cases p with
  | immediate v => exact eval_constant h hp r k
  | slot off =>
    have h0 : off - 0 * c.config.sizes.word = off := by simp
    show (Except.ok (plain [.lw r (off - 0 * c.config.sizes.word) _]), k) = _
    rw [h0, h]
    rfl

/-- A body that leaves the counts alone runs with the first registers and leaves them alone. -/
theorem eval_withRegisters {α : Type} {n : Nat} {body : List Register → Emit α}
    {result : Except Fault α} (hk : k.pool = stockPool) (hn : n ≤ 12)
    (hb : ∀ s, eval (body (stockPool.free.take n)) c s = (result, s)) :
    eval (withRegisters n body) c k = (result, k) := by
  rw [← hk] at hb
  rw [eval_withRegisters_of_sound (hk ▸ sound_stockPool) (hk ▸ hn) (hb _) rfl]

theorem eval_withRegister {α : Type} {body : Register → Emit α} {result : Except Fault α}
    (hk : k.pool = stockPool) (hb : ∀ s, eval (body first) c s = (result, s)) :
    eval (withRegister body) c k = (result, k) :=
  eval_withRegisters hk (by decide) hb

theorem eval_unary (h : Ready c slots) (hk : k.pool = stockPool) {o : Int64}
    (ho : slots.temp path = some o) (e : Expr) (op : UnaryOp) {p : Place} (hp : Fits p) :
    eval (unary path e op .integer p) c k
      = (.ok (loadCode first p ++ unaryCode op ++ plain [.sw o stack first]), k) := by
  unfold unary
  rw [eval_bind_ok (eval_temporary h ho e k), eval_bind_ok (eval_stackPointer c k),
    eval_bind_ok (eval_zero c k), eval_bind_ok (eval_wordSize c k)]
  have hfloat : (Ty.integer.isFloat && op != .not) = false := rfl
  rw [hfloat, if_neg Bool.false_ne_true, if_pos (by decide)]
  refine eval_withRegister hk fun s => ?_
  rw [eval_bind_ok (eval_load h.config hp first s), h.config]
  cases op <;> rfl

theorem eval_binary (h : Ready c slots) (hk : k.pool = stockPool) {o : Int64}
    (ho : slots.temp path = some o) (e : Expr) (op : BinaryOp) {p q : Place} (hp : Fits p)
    (hq : Fits q) :
    eval (binary path e op .integer p q) c k
      = (.ok (loadCode first p ++ loadCode second q ++ integerOperation first second zero op
        ++ plain [.sw o stack first]), k) := by
  unfold binary
  rw [if_neg (by decide), if_neg (by decide)]
  rw [eval_bind_ok (eval_temporary h ho e k), eval_bind_ok (eval_stackPointer c k),
    eval_bind_ok (eval_zero c k)]
  refine eval_withRegisters hk (by decide) fun s => ?_
  rw [show stockPool.free.take 2 = [first, second] from rfl]
  simp only [List.getD_cons_zero, List.getD_cons_succ]
  rw [eval_bind_ok (eval_load h.config hp first s), eval_bind_ok (eval_load h.config hq second s),
    h.config]
  rfl

theorem eval_evaluate (h : Ready c slots) (hk : k.pool = stockPool) (he : IsExpr e) :
    ∀ path, Covered slots path e →
      eval (evaluate .value path (typed e)) c k = (.ok (exprCode slots path e), k) := by
  refine IsExpr.induction (motive := fun e => ∀ path, Covered slots path e →
    eval (evaluate .value path (typed e)) c k = (.ok (exprCode slots path e), k)) ?_ ?_ ?_ ?_ e he
  · intro v _ _ path _
    rfl
  · intro name path hc
    obtain ⟨o, ho⟩ := Option.isSome_iff_exists.1 hc
    obtain ⟨l, hres, -, -, -⟩ := h.var name o ho
    simp only [typed, evaluate]
    rw [if_neg (by decide), eval_bind_ok (eval_resolve name c k), hres]
    rfl
  · intro op e he ih path hc
    obtain ⟨o, ho⟩ := Option.isSome_iff_exists.1 hc.2
    simp only [typed, evaluate]
    rw [eval_bind_ok (ih _ hc.1), eval_bind_ok (eval_placeOf h he hc.1 k), type_typed he,
      eval_bind_ok (eval_unary h hk ho _ op (fits_place he))]
    simp [exprCode, ho]
  · intro op l r hl hr ihl ihr path hc
    obtain ⟨o, ho⟩ := Option.isSome_iff_exists.1 hc.2
    simp only [typed, evaluate]
    rw [eval_bind_ok (ihl _ hc.1.1), eval_bind_ok (eval_placeOf h hl hc.1.1 k),
      eval_bind_ok (ihr _ hc.1.2), eval_bind_ok (eval_placeOf h hr hc.1.2 k), type_typed hl,
      eval_bind_ok (eval_binary h hk ho _ op (fits_place hl) (fits_place hr))]
    simp [exprCode, ho]

theorem eval_value (h : Ready c slots) (hk : k.pool = stockPool) (he : IsExpr e)
    (hc : Covered slots path e) :
    eval (Emit.value path (typed e)) c k = (.ok (exprCode slots path e, place slots path e), k) := by
  unfold Emit.value
  rw [eval_bind_ok (eval_evaluate h hk he path hc), eval_bind_ok (eval_placeOf h he hc k)]
  rfl

theorem eval_words (h : Ready c slots) (k : Counts) : eval (words .integer) c k = (.ok 1, k) := by
  have hs : c.layout.sizeOf .integer = .ok (some 4) := by
    unfold Layout.sizeOf
    rw [h.sizes]
    rfl
  unfold words
  rw [if_neg (by decide), if_neg (by decide)]
  simp only [eval_bind, eval_read, hs, eval_lift_ok, eval_wordSize, h.config]
  rfl

theorem eval_frame (h : Ready c slots) (off : Int64) (k : Counts) :
    eval (frame off) c k = (.ok ⟨stack, off, false⟩, k) := by
  rw [Emit.eval_frame, h.config]
  rfl

theorem eval_releaseLocation (off : Int64) (c : Context) (k : Counts) :
    eval (releaseLocation ⟨stack, off, false⟩) c k = (.ok (), k) := rfl

theorem eval_store (h : Ready c slots) (hk : k.pool = stockPool) (off : Int64) {p : Place}
    (hp : Fits p) :
    eval (store ⟨stack, off, false⟩ p 1) c k = (.ok (storeCode off p), k) := by
  cases p with
  | immediate v =>
    unfold store
    simp only [bne_self_eq_false, Bool.false_eq_true, if_false]
    refine eval_withRegister hk fun s => ?_
    rw [eval_bind_ok (eval_constant h.config hp first s)]
    rfl
  | slot src =>
    unfold store copy
    rw [eval_bind_ok (eval_frame h src k), eval_bind_ok (eval_wordSize c k), h.config]
    refine eval_withRegister hk fun s => ?_
    have h1 : src - Int64.ofNat 0 * 4 = src := by simp
    have h2 : off - Int64.ofNat 0 * 4 = off := by simp
    show (Except.ok (plain [.lw first (src - Int64.ofNat 0 * 4) stack,
      .sw (off - Int64.ofNat 0 * 4) stack first]), s) = _
    rw [h1, h2]
    rfl

theorem eval_branchIfZero (h : Ready c slots) (hk : k.pool = stockPool) (he : IsExpr e)
    (hc : Covered slots path e) (target : String) :
    eval (branchIfZero path (typed e) target) c k = (.ok (testCode slots path e target), k) := by
  unfold branchIfZero
  rw [eval_bind_ok (eval_value h hk he hc)]
  simp only
  have htest : eval (withRegister fun r => do
      let code ← load r (place slots path e) 0
      return code ++ plain [.bz r target]) c k
      = (.ok (loadCode first (place slots path e) ++ plain [.bz first target]), k) := by
    refine eval_withRegister hk fun s => ?_
    rw [eval_bind_ok (eval_load h.config (fits_place he) first s)]
    rfl
  rw [eval_bind_ok htest]
  rfl

theorem eval_printWord (h : Ready c slots) (hk : k.pool = stockPool) {p : Place} (hp : Fits p) :
    eval (printWord p 0) c k = (.ok (printCode slots.size p), k) := by
  have hsize : c.scope.frameSize = .ok slots.size := by
    unfold Scope.frameSize
    rw [h.size]
  have hprint := Emit.eval_printWord (by rw [h.config]) hsize (hk ▸ sound_stockPool)
    (congrArg RegisterPool.free hk) fun s => eval_load h.config hp first s
  rw [h.config] at hprint
  exact hprint

theorem eval_write (h : Ready c slots) (hk : k.pool = stockPool) (he : IsExpr e)
    (hc : Covered slots path e) :
    eval (write path (typed e)) c k
      = (.ok (exprCode slots path e ++ printCode slots.size (place slots path e) ++ newlineCode),
        k) := by
  unfold write
  rw [eval_bind_ok (eval_read c k), eval_bind_ok (eval_value h hk he hc)]
  simp only
  rw [type_typed he, if_pos (by decide), eval_bind_ok (eval_printWord h hk (fits_place he)),
    h.config]
  have hnl : eval (printBytes [10]) c k = (.ok newlineCode, k) :=
    eval_printBytes (by rw [h.config]) (hk ▸ sound_stockPool) (congrArg RegisterPool.free hk) [10]
  rw [if_pos (by rfl), eval_bind_ok hnl]
  rfl

theorem eval_operands {target : Expr} (ht : IsTarget target) (path : Path) (k : Counts) :
    eval (operands path (typed target)) c k = (.ok [], k) := by
  cases target with
  | var name type => rfl
  | _ => exact absurd ht (by simp [IsTarget])

theorem eval_locate (h : Ready c slots) {target : Expr} (ht : IsTarget target) {o : Int64}
    (ho : slots.var (targetName target) = some o) (path : Path) (k : Counts) :
    eval (locate path (typed target)) c k = (.ok ([], ⟨stack, o, false⟩), k) := by
  cases target with
  | var name type =>
    obtain ⟨l, hres, -, hoff, -⟩ := h.var name o ho
    simp only [typed, locate]
    rw [eval_bind_ok (eval_resolve name c k), hres]
    simp only [Entry.getOffset, hoff]
    rw [eval_bind_ok (eval_lift_ok o c k), eval_bind_ok (eval_frame h o k)]
    rfl
  | _ => exact absurd ht (by simp [IsTarget])

theorem type_target {target : Expr} (ht : IsTarget target) : (typed target).type = .integer := by
  cases target with
  | var name type => rfl
  | _ => exact absurd ht (by simp [IsTarget])

theorem eval_readInto (h : Ready c slots) (hk : k.pool = stockPool) {target : Expr}
    (ht : IsTarget target) {o : Int64} (ho : slots.var (targetName target) = some o) :
    eval (readInto path (typed target)) c k = (.ok (readCode slots.size o), k) := by
  have hsize : c.scope.frameSize = .ok slots.size := by
    unfold Scope.frameSize
    rw [h.size]
  unfold readInto
  rw [type_target ht, if_neg (by decide), eval_bind_ok (eval_operands ht path k),
    eval_bind_ok (eval_read c k), eval_bind_ok (by rw [eval_frameSize, hsize]),
    eval_bind_ok (eval_stackPointer c k), eval_bind_ok (eval_zero c k),
    eval_bind_ok (eval_link c k), h.config]
  rw [eval_bind_ok (eval_withRegister hk fun s => rfl),
    eval_bind_ok (eval_locate h ht ho path k)]
  simp only
  rw [eval_bind_ok (eval_releaseLocation o c k), eval_bind_ok (eval_resultRegister c k), h.config]
  rfl

theorem text_typed : ∀ e : Expr, (typed e).text = e.text
  | .unary op e _ => by simp only [typed, Expr.text, text_typed e]
  | .binary op l r _ => by simp only [typed, Expr.text, text_typed l, text_typed r]
  | .missing | .int _ | .float _ | .var _ _ | .dot _ _ _ | .index _ _ _ | .call _ _ _ _ _ _ => by
    simp only [typed, Expr.text]

theorem isMissing_typed (e : Expr) : (typed e).isMissing = e.isMissing := by
  cases e <;> rfl

theorem eval_declare (h : Ready c slots) (hk : k.pool = stockPool) {d : VarDecl} {o : Int64}
    (ho : slots.var d.name = some o) (he : IsExpr e) (hc : Covered slots (0 :: path) e) :
    eval (declare path d (typed e)) c k
      = (.ok (note (d.name ++ " := " ++ e.text) ++ (exprCode slots (0 :: path) e
        ++ storeCode o (place slots (0 :: path) e))), k) := by
  have hm : ¬ (typed e).isMissing = true := by
    rw [isMissing_typed]
    cases e with
    | missing => exact absurd he (by simp [IsExpr])
    | _ => simp [Expr.isMissing]
  obtain ⟨l, -, hlook, hoff, htype⟩ := h.var d.name o ho
  unfold declare
  rw [if_neg hm, eval_bind_ok (eval_comment _ c k), eval_bind_ok (eval_value h hk he hc),
    text_typed]
  simp only
  rw [eval_bind_ok (eval_read c k), hlook]
  simp only [Entry.getOffset, hoff, htype]
  rw [eval_bind_ok (eval_lift_ok o c k), eval_bind_ok (eval_frame h o k),
    eval_bind_ok (eval_words h k), eval_bind_ok (eval_store h hk o (fits_place he)), h.config]
  simp [note]

theorem eval_assign (h : Ready c slots) (hk : k.pool = stockPool) {target : Expr} {o : Int64}
    (ht : IsTarget target) (ho : slots.var (targetName target) = some o) (he : IsExpr e)
    (hc : Covered slots (1 :: path) e) :
    eval (assign path (typed target) (typed e)) c k
      = (.ok (note (target.text ++ " = " ++ e.text) ++ (exprCode slots (1 :: path) e
        ++ storeCode o (place slots (1 :: path) e))), k) := by
  unfold assign
  rw [eval_bind_ok (eval_comment _ c k), eval_bind_ok (eval_operands ht _ k),
    eval_bind_ok (eval_value h hk he hc), text_typed, text_typed]
  simp only
  rw [eval_bind_ok (eval_locate h ht ho _ k), type_target ht]
  simp only
  rw [eval_bind_ok (eval_words h k), eval_bind_ok (eval_store h hk o (fits_place he)), h.config]
  rw [eval_bind_ok (eval_releaseLocation o c k)]
  simp [note]

end

mutual

def typedStmt : Stmt → Stmt
  | .declare d init => .declare d (typed init)
  | .assign target e => .assign (typed target) (typed e)
  | .when cond body => .when (typed cond) (typedStmts body)
  | .branch cond yes no => .branch (typed cond) (typedStmts yes) (typedStmts no)
  | .loop cond body => .loop (typed cond) (typedStmts body)
  | .write e => .write (typed e)
  | .read target => .read (typed target)
  | .ret e => .ret e
  | .call e => .call e

def typedStmts : List Stmt → List Stmt
  | [] => []
  | st :: sts => typedStmt st :: typedStmts sts

end

mutual

def CoveredStmt (slots : Slots) (path : Path) : Stmt → Prop
  | .declare d init => (slots.var d.name).isSome = true ∧ Covered slots (0 :: path) init
  | .assign target e => Covered slots (0 :: path) target ∧ Covered slots (1 :: path) e
  | .when cond body => Covered slots (0 :: path) cond ∧ CoveredStmts slots (1 :: path) 0 body
  | .branch cond yes no =>
    Covered slots (0 :: path) cond ∧ CoveredStmts slots (1 :: path) 0 yes
      ∧ CoveredStmts slots (2 :: path) 0 no
  | .loop cond body => Covered slots (0 :: path) cond ∧ CoveredStmts slots (1 :: path) 0 body
  | .write e => Covered slots (0 :: path) e
  | .read target => Covered slots (0 :: path) target
  | .ret _ => True
  | .call _ => True

def CoveredStmts (slots : Slots) (path : Path) (i : Nat) : List Stmt → Prop
  | [] => True
  | st :: sts => CoveredStmt slots (i :: path) st ∧ CoveredStmts slots path (i + 1) sts

end

/-- Emission has gone on by some labels, with all registers free. -/
structure Onwards (k : Counts) (n : Nat) (k' : Counts) : Prop where
  labels : k'.labels = k.labels + n
  pool : k'.pool = stockPool

def afterLabels (k : Counts) : Counts := { k with labels := k.labels + 2 }

def insideBlock (k : Counts) : Counts := { k with blocks := k.blocks + 1 }

theorem eval_labels {α : Type} (x y : String) (f : String → String → Emit α) (c : Context)
    (k : Counts) :
    eval (do let a ← freshLabel x; let b ← freshLabel y; f a b) c k
      = eval (f (label x (k.labels + 1)) (label y (k.labels + 2))) c (afterLabels k) := by
  rw [eval_bind_ok (eval_freshLabel x c k), eval_bind_ok (eval_freshLabel y c _)]
  rfl

theorem eval_enterBlock (c : Context) (k : Counts) :
    eval enterBlock c k = (.ok (), insideBlock k) := rfl

theorem covered_target {slots : Slots} {path : Path} {target : Expr} (ht : IsTarget target)
    (hc : Covered slots path target) :
    ∃ o, slots.var (targetName target) = some o ∧ (slots.var (targetName target)).getD 0 = o := by
  cases target with
  | var name type =>
    obtain ⟨o, ho⟩ := Option.isSome_iff_exists.1 hc
    exact ⟨o, ho, by simp [targetName, ho]⟩
  | _ => exact absurd ht (by simp [IsTarget])

section
variable {c : Context} {slots : Slots}

mutual

theorem eval_stmt (h : Ready c slots) {k : Counts} (hk : k.pool = stockPool) {st : Stmt}
    (hst : IsStmt st) {path : Path} (hc : CoveredStmt slots path st) :
    ∃ k', eval (stmt path (typedStmt st)) c k = (.ok (stmtCode slots c.exit path k.labels st), k')
      ∧ Onwards k (labelCount st) k' := by
  cases st with
  | declare d init =>
    refine ⟨k, ?_, rfl, hk⟩
    obtain ⟨o, ho⟩ := Option.isSome_iff_exists.1 hc.1
    rcases hst.2 with rfl | he
    · rfl
    · have hm : ¬ init.isMissing = true := by
        cases init with
        | missing => exact absurd he (by simp [IsExpr])
        | _ => simp [Expr.isMissing]
      simp only [typedStmt, stmt, stmtCode]
      rw [eval_declare h hk ho he hc.2, if_neg hm, ho]
      rfl
  | assign target e =>
    refine ⟨k, ?_, rfl, hk⟩
    obtain ⟨o, ho, hget⟩ := covered_target hst.1 hc.1
    simp only [typedStmt, stmt, stmtCode]
    rw [eval_assign h hk hst.1 ho hst.2 hc.2, hget]
  | write e =>
    refine ⟨k, ?_, rfl, hk⟩
    simp only [typedStmt, stmt, stmtCode]
    rw [eval_bind_ok (eval_comment _ c k), eval_bind_ok (eval_write h hk hst hc), text_typed,
      h.config]
    rfl
  | read target =>
    refine ⟨k, ?_, rfl, hk⟩
    obtain ⟨o, ho, hget⟩ := covered_target hst hc
    simp only [typedStmt, stmt, stmtCode]
    rw [eval_bind_ok (eval_comment _ c k), eval_bind_ok (eval_readInto h hk hst ho), text_typed,
      h.config, hget]
    rfl
  | ret e =>
    refine ⟨k, ?_, rfl, hk⟩
    have he : e = .missing := hst
    subst he
    rfl
  | call e => exact absurd hst (by simp [IsStmt])
  | «when» cond body =>
    have hk₁ : (afterLabels k).pool = stockPool := hk
    have hk₂ : (insideBlock (afterLabels k)).pool = stockPool := hk
    obtain ⟨k', h1, ho⟩ := eval_stmts h hk₂ hst.2 hc.2
    refine ⟨k', ?_, ?_, ho.pool⟩
    · simp only [typedStmt, stmt, stmtCode]
      rw [eval_labels, eval_bind_ok (eval_comment _ c _),
        eval_bind_ok (eval_branchIfZero h hk₁ hst.1 hc.1 _), eval_bind_ok (eval_enterBlock c _),
        eval_bind_ok h1, text_typed, h.config]
      rfl
    · rw [ho.labels, labelCount]
      simp only [insideBlock, afterLabels]
      omega
  | branch cond yes no =>
    have hk₁ : (afterLabels k).pool = stockPool := hk
    have hk₂ : (insideBlock (afterLabels k)).pool = stockPool := hk
    obtain ⟨k₁, h1, ho1⟩ := eval_stmts h hk₂ hst.2.1 hc.2.1
    have hk₃ : (insideBlock k₁).pool = stockPool := ho1.pool
    obtain ⟨k₂, h2, ho2⟩ := eval_stmts h hk₃ hst.2.2 hc.2.2
    have hn : (insideBlock k₁).labels = k.labels + 2 + labelCountAll yes := ho1.labels
    refine ⟨k₂, ?_, ?_, ho2.pool⟩
    · simp only [typedStmt, stmt, stmtCode]
      rw [eval_labels, eval_bind_ok (eval_comment _ c _),
        eval_bind_ok (eval_branchIfZero h hk₁ hst.1 hc.1 _), eval_bind_ok (eval_enterBlock c _),
        eval_bind_ok h1, eval_bind_ok (eval_enterBlock c _), eval_bind_ok h2, text_typed, h.config,
        hn]
      rfl
    · rw [ho2.labels, hn, labelCount]
      omega
  | loop cond body =>
    have hk₁ : (afterLabels k).pool = stockPool := hk
    have hk₂ : (insideBlock (afterLabels k)).pool = stockPool := hk
    obtain ⟨k', h1, ho⟩ := eval_stmts h hk₂ hst.2 hc.2
    refine ⟨k', ?_, ?_, ho.pool⟩
    · simp only [typedStmt, stmt, stmtCode]
      rw [eval_labels, eval_bind_ok (eval_comment _ c _),
        eval_bind_ok (eval_branchIfZero h hk₁ hst.1 hc.1 _), eval_bind_ok (eval_enterBlock c _),
        eval_bind_ok h1, text_typed, h.config]
      rfl
    · rw [ho.labels, labelCount]
      simp only [insideBlock, afterLabels]
      omega

theorem eval_stmts (h : Ready c slots) {k : Counts} (hk : k.pool = stockPool) {sts : List Stmt}
    (hst : AreStmts sts) {path : Path} {i : Nat} (hc : CoveredStmts slots path i sts) :
    ∃ k', eval (stmts path i (typedStmts sts)) c k
        = (.ok (stmtsCode slots c.exit path i k.labels sts), k')
      ∧ Onwards k (labelCountAll sts) k' := by
  cases sts with
  | nil => exact ⟨k, rfl, rfl, hk⟩
  | cons st sts =>
    obtain ⟨k₁, h1, ho1⟩ := eval_stmt h hk hst.1 hc.1
    obtain ⟨k₂, h2, ho2⟩ := eval_stmts h ho1.pool hst.2 hc.2
    have hlive : eval (checkRegisters (typedStmt st)) c k₁ = (.ok (), k₁) := by
      unfold checkRegisters
      rw [eval_bind_ok (eval_get c k₁), ho1.pool]
      rfl
    refine ⟨k₂, ?_, ?_, ho2.pool⟩
    · simp only [typedStmts, stmts, stmtsCode]
      rw [eval_bind_ok h1, eval_bind_ok hlive, eval_bind_ok h2, ho1.labels]
      rfl
    · rw [ho2.labels, ho1.labels, labelCountAll]
      omega

end

end

end MoonBackend.Integer
