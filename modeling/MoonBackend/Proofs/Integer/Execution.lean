import MoonBackend.Proofs.Code.Loads
import MoonBackend.Proofs.Integer.Emission
import MoonBackend.Proofs.Machine.Library

/-!
# Expressions on the machine

The code of an expression leaves its value where `place` says, and changes nothing but two scratch
registers and the slots of the values inside the expression. Where the expression divides by zero,
so does the code.
-/

namespace MoonBackend

open Machine Code

namespace Integer

/-! ### Loads -/

section
variable {site : Site} {m : Machine} {a : Nat} {x : Int}

theorem exec_constantCode {r : Register} {v : Int64} (h : m.On site a)
    (hc : site.Holds a (constantCode r v)) (hz : m.get zero = 0) (hr : r.Writable) :
    ∃ m', Computes site [r] m (a + size (constantCode r v)) m' ∧ m'.get r = v.toInt32 := by
  unfold constantCode at hc ⊢
  split at hc
  · rename_i hv
    rw [if_pos hv]
    exact h.exec_short hc hz hr
  · rename_i hv
    rw [if_neg hv]
    exact h.exec_long hc hz hr

theorem exec_loadCode {r : Register} {p : Place} (h : m.On site a)
    (hc : site.Holds a (loadCode r p)) (hz : m.get zero = 0) (hs : m.get stack = Int32.ofInt x)
    (hp : PlaceInside m.memory x p) (hr : r.Writable) :
    ∃ m', Computes site [r] m (a + size (loadCode r p)) m'
      ∧ m'.get r = placeValue m.memory x p := by
  cases p with
  | immediate v => exact exec_constantCode h hc hz hr
  | slot off =>
    simp only [loadCode, plain, List.map, Site.holds_plain] at hc
    have e1 := h.exec_lw hc.1 hs hp
    exact ⟨_, Computes.put h e1 (by simp), get_put_self hr⟩

/-! ### Operators -/

theorem exec_unaryCode {op : UnaryOp} (h : m.On site a) (hc : site.Holds a (unaryCode op))
    (hz : m.get zero = 0) :
    ∃ m', Computes site [first] m (a + size (unaryCode op)) m'
      ∧ m'.get first = unaryValue (m.get first) op := by
  cases op with
  | plus => exact ⟨m, .refl h, rfl⟩
  | minus =>
    simp only [unaryCode, plain, List.map, Site.holds_plain] at hc
    have e1 := h.exec_reg3 (v := -m.get first) hc.1 rfl (by
      rw [hz]
      simp [valueOf?])
    exact ⟨_, Computes.put h e1 (by simp), get_put_self (by decide)⟩
  | not =>
    simp only [unaryCode, plain, List.map, Site.holds_plain] at hc
    have e1 := h.exec_reg3 (v := truth (m.get first == 0)) hc.1 rfl (by
      rw [hz]
      rfl)
    exact ⟨_, Computes.put h e1 (by simp), get_put_self (by decide)⟩

def Traps (m : Machine) (output : Array UInt8) : Prop :=
  ∃ m' i, Exec m m' ∧ m'.Fetches i ∧ m'.effect i = .error (.divide m'.pc) ∧ m'.output = output

theorem Traps.after {m m' : Machine} {output : Array UInt8} (he : Exec m m')
    (h : Traps m' output) : Traps m output := by
  obtain ⟨m₁, i, h1, h2⟩ := h
  exact ⟨m₁, i, he.trans h1, h2⟩

theorem traps_div {ri rj rk : Register} (h : m.On site a)
    (hi : site.HoldsItem a (.reg3 .div ri rj rk)) (hz : m.get rk = 0) : Traps m m.output := by
  obtain ⟨mi, he, hfetch, heff⟩ := h.fetch hi
  obtain ⟨hop, -, -, -, -⟩ := Instruction.encode?_eq_some he
  refine ⟨m, mi, .refl m, hfetch, ?_, rfl⟩
  rw [heff]
  simp [effectOn, hop, quotient, hz]

theorem truth_and (p q : Bool) : truth p &&& truth q = truth (p && q) := by
  cases p <;> cases q <;> rfl

theorem truth_or (p q : Bool) : truth p ||| truth q = truth (p || q) := by
  cases p <;> cases q <;> rfl

theorem exec_operation {op : Opcode} {v : Int32} (h : m.On site a)
    (hc : site.Holds a (plain [.reg3 op first first second])) (hf : op.form = .threeRegisters)
    (hv : valueOf? op (m.get first) (m.get second) = some v) :
    ∃ m', Computes site [first, second] m (a + 4) m' ∧ m'.get first = v := by
  simp only [plain, List.map, Site.holds_plain] at hc
  have e1 := h.exec_reg3 hc.1 hf hv
  exact ⟨_, Computes.put h e1 (by simp), get_put_self (by decide)⟩

theorem exec_truthOperation {op : Opcode} {v : Int32} (h : m.On site a)
    (hc : site.Holds a (plain [.reg3 .cne first first zero, .reg3 .cne second second zero,
      .reg3 op first first second]))
    (hz : m.get zero = 0) (hf : op.form = .threeRegisters)
    (hv : valueOf? op (truth (m.get first != 0)) (truth (m.get second != 0)) = some v) :
    ∃ m', Computes site [first, second] m (a + 12) m' ∧ m'.get first = v := by
  simp only [plain, List.map, Site.holds_plain] at hc
  obtain ⟨h1, h2, h3, -⟩ := hc
  have e1 := h.exec_reg3 (v := truth (m.get first != 0)) h1 rfl (by rw [hz]; rfl)
  have c1 := Computes.put (w := [first, second]) h e1 (by simp)
  have e2 := c1.on.exec_reg3 (v := truth (m.get second != 0)) h2 rfl (by
    rw [get_put_of_ne (show second ≠ first by decide), get_put_of_ne (show zero ≠ first by decide),
      hz]
    rfl)
  have c2 := c1.trans (Computes.put (w := [first, second]) c1.on e2 (by simp))
  have e3 := c2.on.exec_reg3 (v := v) h3 hf (by
    rw [get_put_of_ne (show first ≠ second by decide), get_put_self (by decide),
      get_put_self (by decide)]
    exact hv)
  exact ⟨_, c2.trans (Computes.put (w := [first, second]) c2.on e3 (by simp)),
    get_put_self (by decide)⟩

theorem exec_integerOperation {op : BinaryOp} {v : Int32} (h : m.On site a)
    (hc : site.Holds a (Emit.integerOperation first second zero op)) (hz : m.get zero = 0)
    (hv : binaryValue (m.get first) (m.get second) op = some v) :
    ∃ m', Computes site [first, second] m
        (a + size (Emit.integerOperation first second zero op)) m'
      ∧ m'.get first = v := by
  cases op with
  | and =>
    refine exec_truthOperation h hc hz rfl ?_
    rw [valueOf?, truth_and]
    exact hv
  | or =>
    refine exec_truthOperation h hc hz rfl ?_
    rw [valueOf?, truth_or]
    exact hv
  | _ => exact exec_operation h hc rfl hv

theorem traps_integerOperation {op : BinaryOp} (h : m.On site a)
    (hc : site.Holds a (Emit.integerOperation first second zero op))
    (hv : binaryValue (m.get first) (m.get second) op = none) : Traps m m.output := by
  cases op with
  | div =>
    simp only [Emit.integerOperation, plain, List.map, Site.holds_plain] at hc
    refine traps_div h hc.1 ?_
    simpa [binaryValue] using hv
  | _ => cases hv

end

/-! ### Frames -/

def InFrame (slots : Slots) (o : Int64) : Prop :=
  4 - slots.size.toInt ≤ o.toInt ∧ o.toInt ≤ 0 ∧ o.toInt % 4 = 0

/-- The slots are different words of the frame. -/
structure Apart (slots : Slots) : Prop where
  var : ∀ n o, slots.var n = some o → InFrame slots o
  temp : ∀ q o, slots.temp q = some o → InFrame slots o
  vars : ∀ n k o, slots.var n = some o → slots.var k = some o → n = k
  temps : ∀ p q o, slots.temp p = some o → slots.temp q = some o → p = q
  both : ∀ n q o, slots.var n = some o → slots.temp q ≠ some o

/-- The machine shows the values of the variables in a frame that starts at a position. -/
structure Shows (slots : Slots) (x : Int) (vars : String → Int32) (m : Machine) : Prop where
  zero : m.get zero = 0
  stack : m.get stack = Int32.ofInt x
  inside : m.memory.Inside (x + 4 - slots.size.toInt) slots.size.toInt.toNat
  vars : ∀ n o, slots.var n = some o → m.memory.word (x + o.toInt) = vars n

theorem Shows.word {slots : Slots} {x : Int} {vars : String → Int32} {m : Machine}
    (h : Shows slots x vars m) {o : Int64} (ho : InFrame slots o) :
    m.memory.Inside (x + o.toInt) 4 := by
  obtain ⟨h0, h1, -⟩ := ho
  exact h.inside.mono (by omega) (by omega)

/-- A byte that belongs to no value at or inside a path. -/
def Elsewhere (slots : Slots) (x : Int) (path : Path) (y : Int) : Prop :=
  ∀ ext o, slots.temp (ext ++ path) = some o → y < x + o.toInt ∨ x + o.toInt + 4 ≤ y

theorem Elsewhere.child {slots : Slots} {x y : Int} {path : Path} (h : Elsewhere slots x path y)
    (i : Nat) : Elsewhere slots x (i :: path) y := by
  intro ext o ho
  refine h (ext ++ [i]) o ?_
  rwa [List.append_assoc]

/-- The machine has evaluated the expression at a path. -/
structure Evaluates (site : Site) (slots : Slots) (x : Int) (path : Path) (m : Machine) (b : Nat)
    (m' : Machine) : Prop where
  exec : Exec m m'
  on : m'.On site b
  get : ∀ q, q ∉ [first, second] → m'.get q = m.get q
  size : m'.memory.size = m.memory.size
  byte : ∀ y, 0 ≤ y → Elsewhere slots x path y → m'.memory.byte y = m.memory.byte y
  input : m'.input = m.input
  output : m'.output = m.output

namespace Evaluates

variable {site : Site} {slots : Slots} {x : Int} {path : Path} {m m₁ m₂ : Machine} {a b c : Nat}

theorem refl (h : m.On site a) : Evaluates site slots x path m a m :=
  ⟨.refl m, h, fun _ _ => rfl, rfl, fun _ _ _ => rfl, rfl, rfl⟩

theorem trans (h : Evaluates site slots x path m b m₁) (h' : Evaluates site slots x path m₁ c m₂) :
    Evaluates site slots x path m c m₂ :=
  ⟨h.exec.trans h'.exec, h'.on, fun q hq => (h'.get q hq).trans (h.get q hq), h'.size.trans h.size,
    fun y hy he => (h'.byte y hy he).trans (h.byte y hy he), h'.input.trans h.input,
    h'.output.trans h.output⟩

theorem of_child {i : Nat} (h : Evaluates site slots x (i :: path) m b m₁) :
    Evaluates site slots x path m b m₁ :=
  ⟨h.exec, h.on, h.get, h.size, fun y hy he => h.byte y hy (he.child i), h.input, h.output⟩

theorem of_computes (h : Computes site [first, second] m b m₁) :
    Evaluates site slots x path m b m₁ := by
  refine ⟨h.exec, h.on, h.get, by rw [h.memory], fun y _ _ => by rw [h.memory], h.input, h.output⟩

theorem word {o : Int} (h : Evaluates site slots x path m b m₁) (ho : 0 ≤ o)
    (he : ∀ y, o ≤ y → y < o + 4 → Elsewhere slots x path y) :
    m₁.memory.word o = m.memory.word o :=
  Memory.word_congr fun y h0 h1 => h.byte y (by omega) (he y h0 h1)

end Evaluates

section
variable {site : Site} {slots : Slots} {x : Int} {vars : String → Int32} {m : Machine}

/-- A word of the frame that is no slot at or inside a path stays when the path is evaluated. -/
theorem elsewhere_of_ne (ha : Apart slots) {o : Int64} (ho : InFrame slots o) {path : Path}
    (hne : ∀ ext, slots.temp (ext ++ path) ≠ some o) {y : Int} (h0 : x + o.toInt ≤ y)
    (h1 : y < x + o.toInt + 4) : Elsewhere slots x path y := by
  intro ext o' ho'
  obtain ⟨-, -, hm⟩ := ho
  obtain ⟨-, -, hm'⟩ := ha.temp _ o' ho'
  have hoo : o ≠ o' := by
    rintro rfl
    exact hne ext ho'
  have hi : o.toInt ≠ o'.toInt := fun he => hoo (Int64.toInt_inj.1 he)
  omega

theorem Shows.evaluates (ha : Apart slots) (h : Shows slots x vars m) {path : Path} {b : Nat}
    {m' : Machine} (he : Evaluates site slots x path m b m') : Shows slots x vars m' := by
  refine ⟨?_, ?_, h.inside.of_size he.size, ?_⟩
  · rw [he.get _ (by decide)]
    exact h.zero
  · rw [he.get _ (by decide)]
    exact h.stack
  · intro n o ho
    have hin := h.word (ha.var n o ho)
    rw [he.word hin.nonneg fun y h0 h1 =>
      elsewhere_of_ne ha (ha.var n o ho) (fun ext => ha.both n _ o ho) h0 h1]
    exact h.vars n o ho

theorem placeInside (ha : Apart slots) (h : Shows slots x vars m) {e : Expr} (he : IsExpr e)
    {path : Path} (hc : Covered slots path e) : PlaceInside m.memory x (place slots path e) := by
  have htemp : (slots.temp path).isSome = true →
      m.memory.Inside (x + ((slots.temp path).getD 0).toInt) 4 := by
    intro hs
    obtain ⟨o, ho⟩ := Option.isSome_iff_exists.1 hs
    rw [ho]
    exact h.word (ha.temp path o ho)
  cases e with
  | int v => exact trivial
  | var name type =>
    obtain ⟨o, ho⟩ := Option.isSome_iff_exists.1 hc
    simp only [place, ho]
    exact h.word (ha.var name o ho)
  | unary op e type => exact htemp hc.2
  | binary op l r type => exact htemp hc.2
  | _ => exact absurd he (by simp [IsExpr])

theorem placeValue_of_evaluates (ha : Apart slots) (h : Shows slots x vars m) {e : Expr}
    (he : IsExpr e) {i j : Nat} (hij : i ≠ j) {path : Path} (hc : Covered slots (i :: path) e)
    {b : Nat} {m' : Machine} (hev : Evaluates site slots x (j :: path) m b m') :
    placeValue m'.memory x (place slots (i :: path) e)
      = placeValue m.memory x (place slots (i :: path) e) := by
  have htemp : (slots.temp (i :: path)).isSome = true →
      m'.memory.word (x + ((slots.temp (i :: path)).getD 0).toInt)
        = m.memory.word (x + ((slots.temp (i :: path)).getD 0).toInt) := by
    intro hs
    obtain ⟨o, ho⟩ := Option.isSome_iff_exists.1 hs
    have hin := ha.temp _ o ho
    rw [ho]
    refine hev.word (h.word hin).nonneg fun y h0 h1 => elsewhere_of_ne ha hin ?_ h0 h1
    -- The slot of one child is not at or inside the path of the other.
    intro ext hext
    have hp := ha.temps _ _ o ho hext
    have hlen := congrArg List.length hp
    simp only [List.length_cons, List.length_append] at hlen
    obtain rfl := List.length_eq_zero_iff.1 (show ext.length = 0 by omega)
    exact hij (List.cons.inj hp).1
  cases e with
  | int v => rfl
  | var name type =>
    obtain ⟨o, ho⟩ := Option.isSome_iff_exists.1 hc
    simp only [place, ho, placeValue, Option.getD_some]
    rw [(h.evaluates ha hev).vars name o ho, h.vars name o ho]
  | unary op e type => exact htemp hc.2
  | binary op l r type => exact htemp hc.2
  | _ => exact absurd he (by simp [IsExpr])

theorem exec_keep (ha : Apart slots) (h : Shows slots x vars m) {a : Nat} {path : Path}
    {o : Int64} (ho : slots.temp path = some o) (hon : m.On site a)
    (hc : site.Holds a (plain [.sw o stack first])) :
    ∃ m', Evaluates site slots x path m (a + 4) m'
      ∧ m'.memory.word (x + o.toInt) = m.get first := by
  simp only [plain, List.map, Site.holds_plain] at hc
  have hin := h.word (ha.temp path o ho)
  have e1 := hon.exec_sw hc.1 h.stack hin
  refine ⟨_, ⟨e1, hon.poke _ _ _, fun _ _ => rfl, ?_, ?_, rfl, rfl⟩, ?_⟩
  · rw [memory_poke, Memory.size_setWord]
  · intro y hy he
    rw [memory_poke]
    exact Memory.byte_setWord_of_ne _ hin hy (he [] o ho)
  · rw [memory_poke]
    exact Memory.word_setWord_self _ hin

/-- What comes of evaluating an expression: its value is in its place, or a division by zero. -/
def Answers (site : Site) (slots : Slots) (x : Int) (path : Path) (e : Expr) (m : Machine) (b : Nat) :
    Option Int32 → Prop
  | some v => ∃ m', Evaluates site slots x path m b m'
      ∧ placeValue m'.memory x (place slots path e) = v
  | none => Traps m m.output

theorem exec_unaryExpr (ha : Apart slots) {op : UnaryOp} {e : Expr} (he : IsExpr e) {path : Path}
    {a : Nat} (hc : Covered slots path (.unary op e .void)) (hs : Shows slots x vars m)
    (hon : m.On site a)
    (hcode : site.Holds a (loadCode first (place slots (0 :: path) e) ++ unaryCode op
      ++ plain [.sw ((slots.temp path).getD 0) stack first])) :
    ∃ m', Evaluates site slots x path m (a + size (loadCode first (place slots (0 :: path) e)
        ++ unaryCode op ++ plain [.sw ((slots.temp path).getD 0) stack first])) m'
      ∧ m'.memory.word (x + ((slots.temp path).getD 0).toInt)
        = unaryValue (placeValue m.memory x (place slots (0 :: path) e)) op := by
  obtain ⟨o, ho⟩ := Option.isSome_iff_exists.1 hc.2
  simp only [ho, Option.getD_some, Site.holds_append, size_append] at hcode ⊢
  obtain ⟨⟨h1, h2⟩, h3⟩ := hcode
  obtain ⟨m₁, c1, hv1⟩ := exec_loadCode hon h1 hs.zero hs.stack (placeInside ha hs he hc.1)
    (by decide)
  have v1 : Evaluates site slots x path m _ m₁ := .of_computes (c1.mono (by decide))
  have hs1 := hs.evaluates ha v1
  obtain ⟨m₂, c2, hv2⟩ := exec_unaryCode c1.on h2 hs1.zero
  have v2 : Evaluates site slots x path m₁ _ m₂ := .of_computes (c2.mono (by decide))
  rw [Nat.add_assoc] at v2
  obtain ⟨m₃, v3, hv3⟩ := exec_keep ha (hs1.evaluates ha v2) ho v2.on h3
  refine ⟨m₃, (v1.trans v2).trans v3, ?_⟩
  rw [hv3, hv2, hv1]

theorem exec_loads {p q : Place} (path : Path) {a : Nat} (ha : Apart slots)
    (hs : Shows slots x vars m) (hon : m.On site a)
    (hcode : site.Holds a (loadCode first p ++ loadCode second q))
    (hp : PlaceInside m.memory x p) (hq : PlaceInside m.memory x q) :
    ∃ m', Evaluates site slots x path m (a + size (loadCode first p ++ loadCode second q)) m'
      ∧ m'.get first = placeValue m.memory x p ∧ m'.get second = placeValue m.memory x q := by
  rw [Site.holds_append] at hcode
  obtain ⟨m₁, c1, hv1⟩ := exec_loadCode hon hcode.1 hs.zero hs.stack hp (by decide)
  have v1 : Evaluates site slots x path m _ m₁ := .of_computes (c1.mono (by decide))
  have hs1 := hs.evaluates ha v1
  rw [← c1.memory] at hq
  obtain ⟨m₂, c2, hv2⟩ := exec_loadCode c1.on hcode.2 hs1.zero hs1.stack hq (by decide)
  have v2 : Evaluates site slots x path m₁ _ m₂ := .of_computes (c2.mono (by decide))
  rw [Nat.add_assoc, ← size_append] at v2
  refine ⟨m₂, v1.trans v2, ?_, ?_⟩
  · rw [c2.get _ (by decide), hv1]
  · rw [hv2, c1.memory]

theorem exec_binaryExpr (ha : Apart slots) (op : BinaryOp) {p q : Place} {path : Path} {a : Nat}
    (ht : (slots.temp path).isSome = true) (hs : Shows slots x vars m) (hon : m.On site a)
    (hp : PlaceInside m.memory x p) (hq : PlaceInside m.memory x q)
    (hcode : site.Holds a (loadCode first p ++ loadCode second q
      ++ Emit.integerOperation first second zero op
      ++ plain [.sw ((slots.temp path).getD 0) stack first])) :
    match binaryValue (placeValue m.memory x p) (placeValue m.memory x q) op with
    | some v => ∃ m', Evaluates site slots x path m (a + size (loadCode first p
          ++ loadCode second q ++ Emit.integerOperation first second zero op
          ++ plain [.sw ((slots.temp path).getD 0) stack first])) m'
        ∧ m'.memory.word (x + ((slots.temp path).getD 0).toInt) = v
    | none => Traps m m.output := by
  obtain ⟨o, ho⟩ := Option.isSome_iff_exists.1 ht
  rw [ho, Option.getD_some] at hcode ⊢
  rw [Site.holds_append, Site.holds_append] at hcode
  obtain ⟨⟨h1, h2⟩, h3⟩ := hcode
  obtain ⟨m₁, v1, hf, hg⟩ := exec_loads path ha hs hon h1 hp hq
  have hs1 := hs.evaluates ha v1
  rw [← hf, ← hg]
  split
  · rename_i v hv
    obtain ⟨m₂, c2, hv2⟩ := exec_integerOperation v1.on h2 hs1.zero hv
    have v2 : Evaluates site slots x path m₁ _ m₂ := .of_computes c2
    rw [Nat.add_assoc, ← size_append] at v2
    obtain ⟨m₃, v3, hv3⟩ := exec_keep ha (hs1.evaluates ha v2) ho v2.on h3
    rw [size_append, ← Nat.add_assoc]
    exact ⟨m₃, (v1.trans v2).trans v3, by rw [hv3, hv2]⟩
  · rename_i hv
    have htrap := traps_integerOperation v1.on h2 hv
    rw [v1.output] at htrap
    exact htrap.after v1.exec

/-- The code of an expression evaluates it. -/
theorem exec_exprCode (ha : Apart slots) {e : Expr} (he : IsExpr e) :
    ∀ (path : Path) (a : Nat) (m : Machine), Covered slots path e → m.On site a →
      site.Holds a (exprCode slots path e) → Shows slots x vars m →
      Answers site slots x path e m (a + size (exprCode slots path e)) (value vars e) := by
  refine IsExpr.induction (motive := fun e => ∀ (path : Path) (a : Nat) (m : Machine),
    Covered slots path e → m.On site a → site.Holds a (exprCode slots path e) →
    Shows slots x vars m →
    Answers site slots x path e m (a + size (exprCode slots path e)) (value vars e)) ?_ ?_ ?_ ?_ e he
  · intro v _ _ path a m _ hon _ _
    exact ⟨m, .refl hon, rfl⟩
  · intro name path a m hc hon _ hs
    obtain ⟨o, ho⟩ := Option.isSome_iff_exists.1 hc
    refine ⟨m, .refl hon, ?_⟩
    simp only [place, ho, placeValue, Option.getD_some]
    exact hs.vars name o ho
  · intro op e he ih path a m hc hon hcode hs
    rw [exprCode, Site.holds_append] at hcode
    have hsub := ih (0 :: path) a m hc.1 hon hcode.1 hs
    rw [value]
    cases hv : value vars e with
    | none =>
      rw [hv] at hsub
      exact hsub
    | some v =>
      rw [hv] at hsub
      obtain ⟨m₁, v1, hp⟩ := hsub
      obtain ⟨m₂, v2, hw⟩ := exec_unaryExpr ha he hc (hs.evaluates ha v1) v1.on hcode.2
      rw [Nat.add_assoc, ← size_append] at v2
      exact ⟨m₂, v1.of_child.trans v2, by rw [← hp]; exact hw⟩
  · intro op l r hl hr ihl ihr path a m hc hon hcode hs
    rw [exprCode, Site.holds_append, Site.holds_append] at hcode
    obtain ⟨⟨h1, h2⟩, h3⟩ := hcode
    have hleft := ihl (0 :: path) a m hc.1.1 hon h1 hs
    rw [value]
    cases hv : value vars l with
    | none =>
      rw [hv] at hleft
      exact hleft
    | some v =>
      rw [hv] at hleft
      obtain ⟨m₁, v1, hp⟩ := hleft
      have hs1 := hs.evaluates ha v1
      have hright := ihr (1 :: path) _ m₁ hc.1.2 v1.on h2 hs1
      cases hw : value vars r with
      | none =>
        rw [hw, Answers, v1.output] at hright
        exact hright.after v1.exec
      | some w =>
        rw [hw] at hright
        obtain ⟨m₂, v2, hq⟩ := hright
        have hs2 := hs1.evaluates ha v2
        rw [Nat.add_assoc, ← size_append] at v2
        rw [← placeValue_of_evaluates ha hs1 hl (by decide) hc.1.1 v2] at hp
        have hop := exec_binaryExpr ha op hc.2 hs2 v2.on (placeInside ha hs2 hl hc.1.1)
          (placeInside ha hs2 hr hc.1.2) h3
        rw [hp, hq] at hop
        have hchild := v1.of_child.trans v2.of_child
        simp only
        cases hb : binaryValue v w op with
        | none =>
          simp only [hb] at hop
          rw [Answers, ← hchild.output]
          exact hop.after hchild.exec
        | some u =>
          simp only [hb] at hop
          obtain ⟨m₃, v3, hword⟩ := hop
          rw [Nat.add_assoc, ← size_append] at v3
          exact ⟨m₃, hchild.trans v3, hword⟩

end

end Integer

end MoonBackend
