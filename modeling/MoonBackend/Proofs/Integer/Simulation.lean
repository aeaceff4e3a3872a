import MoonBackend.Proofs.Integer.Library

/-!
# Statements on the machine

The code of statements does what the statements do: from a machine that mirrors a state it gets to
the end of the code, or to the exit label after a return, with a machine that mirrors the next state,
or to a division by zero. The proof is by induction on the bound of the execution.
-/

namespace MoonBackend.Integer

open Machine Code

section
variable {site : Site} {slots : Slots} {x y : Int} {s : State} {m : Machine} {a : Nat}

theorem Mirrors.evaluates (ha : Apart slots) (h : Mirrors slots x s m) {path : Path} {b : Nat}
    {m' : Machine} (he : Evaluates site slots x path m b m') : Mirrors slots x s m' :=
  ⟨h.shows.evaluates ha he, he.input.trans h.input, he.output.trans h.output⟩

theorem Mirrors.computes (ha : Apart slots) (h : Mirrors slots x s m) {b : Nat} {m' : Machine}
    (he : Computes site [first, second] m b m') : Mirrors slots x s m' := by
  have hev : Evaluates site slots x [] m b m' := .of_computes he
  exact h.evaluates ha hev

/-- What comes of the code of a statement that ends at an address. -/
def Follows (site : Site) (slots : Slots) (x : Int) (m : Machine) (b exit : Nat) : Outcome → Prop
  | .next s => ∃ m', Exec m m' ∧ m'.On site b ∧ Mirrors slots x s m'
  | .returned s => ∃ m', Exec m m' ∧ m'.On site exit ∧ Mirrors slots x s m'
  | .divided s => Traps m s.output

theorem Follows.after {m m' : Machine} {b exit : Nat} {o : Outcome} (he : Exec m m')
    (h : Follows site slots x m' b exit o) : Follows site slots x m b exit o := by
  cases o with
  | next s =>
    obtain ⟨m₁, h1, h2⟩ := h
    exact ⟨m₁, he.trans h1, h2⟩
  | returned s =>
    obtain ⟨m₁, h1, h2⟩ := h
    exact ⟨m₁, he.trans h1, h2⟩
  | divided s => exact Traps.after he h

/-! ### Single statements -/

theorem exec_storeCode (ha : Apart slots) (h : Mirrors slots x s m) (hon : m.On site a) {o : Int64}
    {p : Place} {name : String} (hcode : site.Holds a (storeCode o p))
    (hp : PlaceInside m.memory x p) (ho : slots.var name = some o) {v : Int32}
    (hv : placeValue m.memory x p = v) :
    ∃ m', Exec m m' ∧ m'.On site (a + size (storeCode o p))
      ∧ Mirrors slots x (s.assign name v) m' := by
  rw [storeCode, Site.holds_append] at hcode
  obtain ⟨m₁, c1, hv1⟩ := exec_loadCode hon hcode.1 h.shows.zero h.shows.stack hp (by decide)
  have hm := h.computes ha (c1.mono (by decide))
  simp only [plain, List.map, Site.holds_plain] at hcode
  obtain ⟨m₂, e2, hon2, hm2⟩ := hm.exec_sw ha c1.on hcode.2.1 ho
  rw [hv1, hv] at hm2
  refine ⟨m₂, c1.exec.trans e2, ?_, hm2⟩
  rw [Nat.add_assoc] at hon2
  rw [storeCode, size_append]
  exact hon2

theorem exec_assigned (ha : Apart slots) (h : Mirrors slots x s m) (hon : m.On site a) {e : Expr}
    (he : IsExpr e) {path : Path} (hc : Covered slots path e) {name : String} {o : Int64}
    (ho : slots.var name = some o)
    (hcode : site.Holds a (exprCode slots path e ++ storeCode o (place slots path e)))
    (exit : Nat) :
    Follows site slots x m (a + size (exprCode slots path e ++ storeCode o (place slots path e)))
      exit (assigned name e s) := by
  rw [Site.holds_append] at hcode
  have hev := exec_exprCode ha he path a m hc hon hcode.1 h.shows
  unfold assigned
  cases hv : value s.vars e with
  | none =>
    rw [hv, Answers, h.output] at hev
    exact hev
  | some v =>
    rw [hv] at hev
    obtain ⟨m₁, v1, hp⟩ := hev
    have hm := h.evaluates ha v1
    obtain ⟨m₂, e2, hon2, hm2⟩ := exec_storeCode ha hm v1.on hcode.2
      (placeInside ha hm.shows he hc) ho hp
    rw [Nat.add_assoc, ← size_append] at hon2
    exact ⟨m₂, v1.exec.trans e2, hon2, hm2⟩

theorem exec_testCode (ha : Apart slots) (h : Mirrors slots x s m) (hon : m.On site a) {e : Expr}
    (he : IsExpr e) {path : Path} (hc : Covered slots path e) {target : String} {b : Nat}
    (hb : site.names.address? target = some (Int32.ofNat b))
    (hcode : site.Holds a (testCode slots path e target)) :
    match value s.vars e with
    | none => Traps m s.output
    | some c => ∃ m', Exec m m' ∧ Mirrors slots x s m'
        ∧ m'.On site (if c = 0 then b else a + size (testCode slots path e target)) := by
  rw [testCode, Site.holds_append, Site.holds_append] at hcode
  obtain ⟨h1, h2, h3⟩ := hcode
  have hev := exec_exprCode ha he path a m hc hon h1 h.shows
  cases hv : value s.vars e with
  | none =>
    rw [hv, Answers, h.output] at hev
    exact hev
  | some c =>
    rw [hv] at hev
    obtain ⟨m₁, v1, hp⟩ := hev
    have hm := h.evaluates ha v1
    obtain ⟨m₂, c2, hv2⟩ := exec_loadCode v1.on h2 hm.shows.zero hm.shows.stack
      (placeInside ha hm.shows he hc) (by decide)
    have hm2 := hm.computes ha (c2.mono (by decide))
    simp only [plain, List.map, Site.holds_plain] at h3
    have e3 := c2.on.exec_bz h3.1 hb
    rw [hv2, hp] at e3
    have c3 := Computes.goto (w := [first, second]) c2.on e3
    refine ⟨_, (v1.exec.trans c2.exec).trans e3, hm2.computes ha c3, ?_⟩
    have hon3 := c3.on
    rw [testCode, size_append, size_append, ← Nat.add_assoc, ← Nat.add_assoc]
    exact hon3

theorem exec_write (hh : Housed site slots x y) (h : Mirrors slots x s m) (hon : m.On site a)
    {e : Expr} (he : IsExpr e) {path : Path} (hc : Covered slots path e)
    (hcode : site.Holds a (exprCode slots path e
      ++ printCode slots.size (place slots path e) ++ newlineCode)) (exit : Nat) :
    Follows site slots x m (a + size (exprCode slots path e
      ++ printCode slots.size (place slots path e) ++ newlineCode)) exit
      (match value s.vars e with
        | none => .divided s
        | some v => .next (s.print v)) := by
  rw [Site.holds_append, Site.holds_append] at hcode
  obtain ⟨⟨h1, h2⟩, h3⟩ := hcode
  have hev := exec_exprCode hh.apart he path a m hc hon h1 h.shows
  cases hv : value s.vars e with
  | none =>
    rw [hv, Answers, h.output] at hev
    exact hev
  | some v =>
    rw [hv] at hev
    obtain ⟨m₁, v1, hp⟩ := hev
    have hm := h.evaluates hh.apart v1
    obtain ⟨m₂, e2, hon2, hm2⟩ := exec_printCode hh hm v1.on h2 (placeInside hh.apart hm.shows he hc)
      hp
    rw [Nat.add_assoc, ← size_append] at hon2
    obtain ⟨m₃, e3, hon3, hm3⟩ := exec_newlineCode hh hm2 hon2 h3
    rw [Nat.add_assoc, ← size_append] at hon3
    have hs : (s.put (Text.textBytes (Text.decimal v.toInt))).put [10] = s.print v := by
      simp only [State.put, State.print]
      exact congrArg _ (Array.toList_inj.1 (by simp))
    rw [hs] at hm3
    exact ⟨m₃, (v1.exec.trans e2).trans e3, hon3, hm3⟩

/-! ### Statements inside statements -/

theorem exec_mark (ha : Apart slots) (h : Mirrors slots x s m) (hon : m.On site a)
    (hi : site.HoldsItem a (.bare .nop)) :
    ∃ m', Exec m m' ∧ m'.On site (a + 4) ∧ Mirrors slots x s m' := by
  have c1 := Computes.goto (w := [first, second]) hon (hon.exec_nop hi)
  exact ⟨_, c1.exec, c1.on, h.computes ha c1⟩

theorem exec_jump (ha : Apart slots) (h : Mirrors slots x s m) (hon : m.On site a) {target : String}
    (hi : site.HoldsItem a (.j target)) {b : Nat}
    (hb : site.names.address? target = some (Int32.ofNat b)) :
    ∃ m', Exec m m' ∧ m'.On site b ∧ Mirrors slots x s m' := by
  have c1 := Computes.goto (w := [first, second]) hon (hon.exec_j hi hb)
  exact ⟨_, c1.exec, c1.on, h.computes ha c1⟩

theorem Follows.before {b b' exit : Nat} {o : Outcome} (h : Follows site slots x m b exit o)
    (hn : ∀ m s, Mirrors slots x s m → m.On site b →
      ∃ m', Exec m m' ∧ m'.On site b' ∧ Mirrors slots x s m') :
    Follows site slots x m b' exit o := by
  cases o with
  | next s =>
    obtain ⟨m₁, e1, hon1, hm1⟩ := h
    obtain ⟨m₂, e2, h2⟩ := hn m₁ s hm1 hon1
    exact ⟨m₂, e1.trans e2, h2⟩
  | returned s => exact h
  | divided s => exact h

/-- The code of a choice, given what its two sides do. -/
theorem exec_choice (ha : Apart slots) (h : Mirrors slots x s m) (hon : m.On site a) {e : Expr}
    (he : IsExpr e) {path : Path} (hc : Covered slots path e) {text stop next : String}
    {yes no : Code} {exit : Nat}
    (hcode : site.Holds a (Emit.choice (note text ++ testCode slots path e stop) yes no stop next))
    {o : Outcome} (hdiv : value s.vars e = none → o = .divided s)
    (hyes : ∀ c, value s.vars e = some c → c ≠ 0 → ∀ a m, Mirrors slots x s m → m.On site a →
      site.Holds a yes → Follows site slots x m (a + size yes) exit o)
    (hno : value s.vars e = some 0 → ∀ a m, Mirrors slots x s m → m.On site a →
      site.Holds a no → Follows site slots x m (a + size no) exit o) :
    Follows site slots x m
      (a + size (Emit.choice (note text ++ testCode slots path e stop) yes no stop next)) exit o := by
  simp only [Emit.choice, note, plain, List.map, mark, Site.holds_append, Site.holds_comment,
    Site.holds_plain, Site.holds_labeled, Site.holds_nil, size_append, size_cons, size_nil,
    Line.size, Item.size_j, Item.size_bare, Nat.zero_add, Nat.add_zero, ← Nat.add_assoc,
    and_true, true_and] at hcode ⊢
  obtain ⟨⟨⟨⟨⟨h1, h2⟩, h3⟩, hstop, h4⟩, h5⟩, hnext, h6⟩ := hcode
  have htest := exec_testCode ha h hon he hc hstop h1
  cases hv : value s.vars e with
  | none =>
    rw [hv] at htest
    rw [hdiv hv]
    exact htest
  | some c =>
    rw [hv] at htest
    obtain ⟨m₁, e1, hm1, hon1⟩ := htest
    refine Follows.after e1 ?_
    by_cases hz : c = 0
    · subst hz
      rw [if_pos rfl] at hon1
      obtain ⟨m₂, e2, hon2, hm2⟩ := exec_mark ha hm1 hon1 h4
      refine Follows.after e2 ((hno hv _ m₂ hm2 hon2 h5).before fun m s hm hon => ?_)
      exact exec_mark ha hm hon h6
    · rw [if_neg hz] at hon1
      refine (hyes c hv hz _ m₁ hm1 hon1 h2).before fun m s hm hon => ?_
      obtain ⟨m₂, e2, hon2, hm2⟩ := exec_jump ha hm hon h3 hnext
      obtain ⟨m₃, e3, h'⟩ := exec_mark ha hm2 hon2 h6
      exact ⟨m₃, e2.trans e3, h'⟩

end

/-! ### Runs -/

/-- Executions of statements with the given bound are followed by their code. -/
def Simulates (site : Site) (slots : Slots) (x : Int) (exit : String) (stop bound : Nat) : Prop :=
  ∀ st path n a m s o, IsStmt st → CoveredStmt slots path st →
    site.Holds a (stmtCode slots exit path n st) → Mirrors slots x s m → m.On site a →
    exec bound st s = some o →
    Follows site slots x m (a + size (stmtCode slots exit path n st)) stop o

def SimulatesAll (site : Site) (slots : Slots) (x : Int) (exit : String) (stop bound : Nat) : Prop :=
  ∀ sts path i n a m s o, AreStmts sts → CoveredStmts slots path i sts →
    site.Holds a (stmtsCode slots exit path i n sts) → Mirrors slots x s m → m.On site a →
    execAll bound sts s = some o →
    Follows site slots x m (a + size (stmtsCode slots exit path i n sts)) stop o

section
variable {site : Site} {slots : Slots} {x y : Int} {exit : String} {stop bound : Nat}

theorem simulates_loop (hh : Housed site slots x y)
    (hbody : SimulatesAll site slots x exit stop bound)
    (hloop : Simulates site slots x exit stop bound) {cond : Expr} {body : List Stmt} {path : Path}
    {n a : Nat} {m : Machine} {s : State} {o : Outcome} (hst : IsStmt (.loop cond body))
    (hc : CoveredStmt slots path (.loop cond body))
    (hcode : site.Holds a (stmtCode slots exit path n (.loop cond body)))
    (h : Mirrors slots x s m) (hon : m.On site a)
    (he : exec (bound + 1) (.loop cond body) s = some o) :
    Follows site slots x m (a + size (stmtCode slots exit path n (.loop cond body))) stop o := by
  have hwhole := hcode
  simp only [stmtCode, note, plain, List.map, mark, Site.holds_append, Site.holds_comment,
    Site.holds_plain, Site.holds_labeled, Site.holds_nil, size_append, size_cons, size_nil,
    Line.size, Item.size_j, Item.size_bare, Nat.zero_add, Nat.add_zero, ← Nat.add_assoc,
    and_true, true_and] at hcode
  obtain ⟨⟨⟨⟨⟨htop, h0⟩, h1⟩, h2⟩, h3⟩, hend, h4⟩ := hcode
  have hsize : a + size (stmtCode slots exit path n (.loop cond body))
      = a + 4 + size (testCode slots (0 :: path) cond (label "endwhile" (n + 2)))
        + size (stmtsCode slots exit (1 :: path) 0 (n + 2) body) + 4 + 4 := by
    simp only [stmtCode, note, plain, List.map, mark, size_append, size_cons, size_nil, Line.size,
      Item.size_j, Item.size_bare, Nat.zero_add, Nat.add_zero, ← Nat.add_assoc]
  obtain ⟨m₀, e0, hon0, hm0⟩ := exec_mark hh.apart h hon h0
  refine Follows.after e0 ?_
  have htest := exec_testCode hh.apart hm0 hon0 hst.1 hc.1 hend h1
  rw [exec] at he
  cases hv : value s.vars cond with
  | none =>
    rw [hv] at he htest
    obtain rfl := Option.some.inj he
    exact htest
  | some c =>
    rw [hv] at he htest
    obtain ⟨m₁, e1, hm1, hon1⟩ := htest
    refine Follows.after e1 ?_
    simp only at he
    by_cases hz : c = 0
    · rw [if_pos hz] at he hon1
      obtain rfl := Option.some.inj he
      rw [hsize]
      exact exec_mark hh.apart hm1 hon1 h4
    · rw [if_neg hz] at he hon1
      cases hb : execAll bound body s with
      | none =>
        rw [hb] at he
        cases he
      | some r =>
        have hrun := hbody body _ _ _ _ m₁ s r hst.2 hc.2 h2 hm1 hon1 hb
        rw [hb] at he
        cases r with
        | next s' =>
          -- Back at the top, the rest is the loop again with a smaller bound.
          obtain ⟨m₂, e2, hon2, hm2⟩ := hrun
          obtain ⟨m₃, e3, hon3, hm3⟩ := exec_jump hh.apart hm2 hon2 h3 htop
          refine Follows.after (e2.trans e3) ?_
          exact hloop (.loop cond body) path n a m₃ s' o hst hc hwhole hm3 hon3 he
        | returned s' =>
          obtain rfl := Option.some.inj he
          exact hrun
        | divided s' =>
          obtain rfl := Option.some.inj he
          exact hrun

theorem simulates_succ (hh : Housed site slots x y)
    (hexit : site.names.address? exit = some (Int32.ofNat stop))
    (hbody : SimulatesAll site slots x exit stop bound)
    (hloop : Simulates site slots x exit stop bound) :
    Simulates site slots x exit stop (bound + 1) := by
  intro st path n a m s o hst hc hcode h hon he
  have ha := hh.apart
  cases st with
  | declare d init =>
    obtain ⟨var, hvar⟩ := Option.isSome_iff_exists.1 hc.1
    rw [exec] at he
    rw [stmtCode] at hcode ⊢
    by_cases hm : init.isMissing = true
    · rw [if_pos hm] at he ⊢
      obtain rfl := Option.some.inj he
      exact ⟨m, .refl m, hon, h⟩
    · rw [if_neg hm] at he hcode ⊢
      obtain rfl := Option.some.inj he
      have hexpr : IsExpr init := by
        rcases hst.2 with rfl | hi
        · exact absurd rfl hm
        · exact hi
      simp only [hvar, Option.getD_some, note, List.cons_append, List.nil_append,
        Site.holds_comment] at hcode ⊢
      have hf := exec_assigned ha h hon hexpr hc.2 hvar hcode stop
      simpa [Line.size] using hf
  | assign target e =>
    obtain ⟨var, hvar, hget⟩ := covered_target hst.1 hc.1
    rw [exec] at he
    obtain rfl := Option.some.inj he
    simp only [stmtCode, hget, note, List.cons_append, List.nil_append, Site.holds_comment]
      at hcode ⊢
    have hf := exec_assigned ha h hon hst.2 hc.2 hvar hcode stop
    simpa [Line.size] using hf
  | «when» cond body =>
    rw [exec] at he
    refine exec_choice ha h hon hst.1 hc.1 hcode ?_ ?_ ?_
    · intro hv
      rw [hv] at he
      exact (Option.some.inj he).symm
    · intro c hv hz a' m' h' hon' hcode'
      rw [hv] at he
      simp only [if_neg hz] at he
      exact hbody body _ _ _ _ m' s o hst.2 hc.2 hcode' h' hon' he
    · intro hv a' m' h' hon' _
      rw [hv] at he
      obtain rfl := Option.some.inj he
      exact ⟨m', .refl m', hon', h'⟩
  | branch cond yes no =>
    rw [exec] at he
    refine exec_choice ha h hon hst.1 hc.1 hcode ?_ ?_ ?_
    · intro hv
      rw [hv] at he
      exact (Option.some.inj he).symm
    · intro c hv hz a' m' h' hon' hcode'
      rw [hv] at he
      simp only [if_neg hz] at he
      exact hbody yes _ _ _ _ m' s o hst.2.1 hc.2.1 hcode' h' hon' he
    · intro hv a' m' h' hon' hcode'
      rw [hv] at he
      exact hbody no _ _ _ _ m' s o hst.2.2 hc.2.2 hcode' h' hon' he
  | loop cond body => exact simulates_loop hh hbody hloop hst hc hcode h hon he
  | write e =>
    rw [exec] at he
    simp only [stmtCode, note, List.cons_append, List.nil_append, Site.holds_comment] at hcode ⊢
    have hf := exec_write hh h hon hst hc hcode stop
    have ho : (match value s.vars e with
        | none => Outcome.divided s
        | some v => Outcome.next (s.print v)) = o := by
      cases hv : value s.vars e with
      | none =>
        rw [hv] at he
        exact Option.some.inj he
      | some v =>
        rw [hv] at he
        exact Option.some.inj he
    rw [ho] at hf
    simpa [Line.size] using hf
  | read target =>
    obtain ⟨var, hvar, hget⟩ := covered_target hst hc
    rw [exec] at he
    obtain rfl := Option.some.inj he
    simp only [stmtCode, hget, note, List.cons_append, List.nil_append, Site.holds_comment]
      at hcode ⊢
    have hf : Follows site slots x m _ stop (.next _) := exec_readCode hh h hon hvar hcode
    simpa [Line.size] using hf
  | ret e =>
    rw [exec] at he
    obtain rfl := Option.some.inj he
    simp only [stmtCode, plain, List.map, Site.holds_plain] at hcode
    exact exec_jump ha h hon hcode.1 hexit
  | call e => exact absurd hst (by simp [IsStmt])

/-- The code of statements does what the statements do. -/
theorem simulates (hh : Housed site slots x y)
    (hexit : site.names.address? exit = some (Int32.ofNat stop)) (bound : Nat) :
    Simulates site slots x exit stop bound ∧ SimulatesAll site slots x exit stop bound := by
  induction bound with
  | zero =>
    constructor
    · intro st path n a m s o _ _ _ _ _ he
      rw [exec] at he
      cases he
    · intro sts path i n a m s o _ _ _ h hon he
      cases sts with
      | nil =>
        rw [execAll] at he
        obtain rfl := Option.some.inj he
        exact ⟨m, .refl m, hon, h⟩
      | cons st sts =>
        rw [execAll] at he
        cases he
  | succ bound ih =>
    obtain ⟨hone, hall⟩ := ih
    refine ⟨simulates_succ hh hexit hall hone, ?_⟩
    intro sts path i n a m s o hst hc hcode h hon he
    cases sts with
    | nil =>
      rw [execAll] at he
      obtain rfl := Option.some.inj he
      exact ⟨m, .refl m, hon, h⟩
    | cons st sts =>
      rw [stmtsCode, Site.holds_append] at hcode
      rw [stmtsCode, size_append, ← Nat.add_assoc]
      rw [execAll] at he
      cases hb : exec bound st s with
      | none =>
        rw [hb] at he
        cases he
      | some r =>
        have hrun := hone st _ _ a m s r hst.1 hc.1 hcode.1 h hon hb
        rw [hb] at he
        cases r with
        | next s' =>
          obtain ⟨m₁, e1, hon1, hm1⟩ := hrun
          exact Follows.after e1 (hall sts _ _ _ _ m₁ s' o hst.2 hc.2 hcode.2 hm1 hon1 he)
        | returned s' =>
          obtain rfl := Option.some.inj he
          exact hrun
        | divided s' =>
          obtain rfl := Option.some.inj he
          exact hrun

end

end MoonBackend.Integer
