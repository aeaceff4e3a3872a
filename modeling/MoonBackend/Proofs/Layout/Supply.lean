import MoonBackend.Proofs.Compiled
import MoonBackend.Proofs.Layout.Classes

/-!
# The supply of unnamed slots

A slot is known by its kind and by the node that it backs, and a node by its path, so the slots that
a function asks for are pairwise different. Hence the supply never faults, and whoever looks for a
slot that was asked for finds that one.
-/

namespace MoonBackend

open Layout

namespace Layout

/-! ### Slots of different nodes -/

theorem child_inj {i j : Nat} {path q : Path} (hi : (i :: path) <:+ q) (hj : (j :: path) <:+ q) :
    i = j := by
  have h := (List.suffix_of_suffix_length_le hi hj (by simp)).eq_of_length (by simp)
  exact (List.cons.inj h).1

/-- What tells the unnamed slots of a scope apart. -/
def slotKey (d : Demand) : EntryKind × Backing.Key := (d.kind, d.node.key)

/-- The slot backs a node or one below it. A node itself is never backed by the address of a
receiver here: that one belongs to the call around it. -/
def Under (path : Path) (d : Demand) : Prop :=
  ∃ q, path <:+ q ∧ (slotKey d = (.temporary, .expr q) ∨ (slotKey d = (.reference, .expr q) ∧ q ≠ path))

def Distinct (ds : List Demand) : Prop := (ds.map slotKey).Nodup

theorem Under.up {i : Nat} {path : Path} {d : Demand} (h : Under (i :: path) d) : Under path d := by
  obtain ⟨q, hq, hd⟩ := h
  have hne : q ≠ path := by
    rintro rfl
    have := hq.length_le
    simp only [List.length_cons] at this
    omega
  exact ⟨q, (List.suffix_cons i path).trans hq, hd.imp_right fun h => ⟨h.1, hne⟩⟩

theorem under_temporary (path : Path) (e : Expr) : Under path (Demand.temporary path e) :=
  ⟨path, List.suffix_refl _, .inl rfl⟩

theorem under_receiver (i : Nat) (path : Path) (e : Expr) :
    Under path (Demand.receiver (i :: path) e) :=
  ⟨i :: path, List.suffix_cons i path, .inr ⟨rfl, by simp⟩⟩

theorem Under.key {path : Path} {d : Demand} (h : Under path d) :
    ∃ q, path <:+ q ∧ d.node.key = .expr q := by
  obtain ⟨q, hq, hd | ⟨hd, -⟩⟩ := h
  · exact ⟨q, hq, congrArg Prod.snd hd⟩
  · exact ⟨q, hq, congrArg Prod.snd hd⟩

theorem Under.ne_of_children {i j : Nat} {path : Path} {d d' : Demand} (h : Under (i :: path) d)
    (h' : Under (j :: path) d') (hij : i ≠ j) : slotKey d ≠ slotKey d' := by
  intro he
  obtain ⟨q, hq, hk⟩ := h.key
  obtain ⟨q', hq', hk'⟩ := h'.key
  have hqq : d.node.key = d'.node.key := congrArg Prod.snd he
  rw [hk, hk'] at hqq
  cases hqq
  exact hij (child_inj hq hq')

theorem Under.ne_temporary {i : Nat} {path : Path} {d : Demand} (h : Under (i :: path) d) (e : Expr) :
    slotKey d ≠ slotKey (Demand.temporary path e) := by
  intro he
  obtain ⟨q, hq, hk⟩ := h.key
  have hqq : d.node.key = .expr path := congrArg Prod.snd he
  rw [hk] at hqq
  cases hqq
  have := hq.length_le
  simp only [List.length_cons] at this
  omega

theorem Under.ne_receiver {path : Path} {d : Demand} (h : Under path d) (e : Expr) :
    slotKey d ≠ slotKey (Demand.receiver path e) := by
  intro he
  obtain ⟨q, hq, hd | ⟨hd, hne⟩⟩ := h
  · rw [hd] at he
    cases he
  · rw [hd] at he
    cases he
    exact hne rfl

theorem Distinct.append {ds ds' : List Demand} (h : Distinct ds) (h' : Distinct ds')
    (hne : ∀ d ∈ ds, ∀ d' ∈ ds', slotKey d ≠ slotKey d') : Distinct (ds ++ ds') := by
  unfold Distinct
  rw [List.map_append, List.nodup_append]
  refine ⟨h, h', fun k hk k' hk' => ?_⟩
  obtain ⟨d, hd, rfl⟩ := List.mem_map.1 hk
  obtain ⟨d', hd', rfl⟩ := List.mem_map.1 hk'
  exact hne d hd d' hd'

theorem distinct_nil : Distinct [] := List.nodup_nil

theorem distinct_singleton (d : Demand) : Distinct [d] := by simp [Distinct]

/-! ### Expressions -/

section

variable (isMember : String → Bool)

theorem under_copy {use : Use} {path : Path} {e : Expr} : ∀ d ∈ Demand.copy use path e, Under path d := by
  unfold Demand.copy
  intro d hd
  split at hd
  · rw [List.mem_singleton.1 hd]
    exact under_temporary path e
  · cases hd

theorem distinct_copy (use : Use) (path : Path) (e : Expr) : Distinct (Demand.copy use path e) := by
  unfold Demand.copy
  split
  · exact distinct_singleton _
  · exact distinct_nil

theorem Distinct.snoc_copy {ds : List Demand} {use : Use} {path : Path} {e : Expr} (h : Distinct ds)
    (hu : ∀ d ∈ ds, ∃ i, Under (i :: path) d) : Distinct (ds ++ Demand.copy use path e) := by
  refine h.append (distinct_copy use path e) fun d hd d' hd' => ?_
  obtain ⟨i, hi⟩ := hu d hd
  unfold Demand.copy at hd'
  split at hd'
  · rw [List.mem_singleton.1 hd']
    exact hi.ne_temporary e
  · cases hd'

mutual

theorem under_ofExpr (use : Use) (path : Path) :
    ∀ e : Expr, ∀ d ∈ Demand.ofExpr isMember use path e, Under path d
  | .missing | .int _ => by simp [Demand.ofExpr]
  | .float text => by
    intro d hd
    rw [Demand.ofExpr, List.mem_singleton] at hd
    exact hd ▸ under_temporary path _
  | .var name type => by
    intro d hd
    rw [Demand.ofExpr] at hd
    split at hd
    · exact under_copy d hd
    · cases hd
  | .dot left member type => by
    intro d hd
    rw [Demand.ofExpr, List.mem_append] at hd
    rcases hd with hd | hd
    · exact (under_ofExpr .location (0 :: path) left d hd).up
    · exact under_copy d hd
  | .index base indices type => by
    intro d hd
    rw [Demand.ofExpr, List.mem_append, List.mem_append] at hd
    rcases hd with (hd | hd) | hd
    · exact (under_ofExpr .location (0 :: path) base d hd).up
    · obtain ⟨j, -, hj⟩ := under_ofExprs path 1 indices d hd
      exact hj.up
    · exact under_copy d hd
  | .unary op operand type => by
    intro d hd
    rw [Demand.ofExpr, List.mem_append, List.mem_singleton] at hd
    rcases hd with hd | rfl
    · exact (under_ofExpr .value (0 :: path) operand d hd).up
    · exact under_temporary path _
  | .binary op left right type => by
    intro d hd
    rw [Demand.ofExpr, List.mem_append, List.mem_append, List.mem_singleton] at hd
    rcases hd with (hd | hd) | rfl
    · exact (under_ofExpr .value (0 :: path) left d hd).up
    · exact (under_ofExpr .value (1 :: path) right d hd).up
    · exact under_temporary path _
  | .call recv name args isNew type target => by
    intro d hd
    rw [Demand.ofExpr, List.mem_append, List.mem_append, List.mem_append] at hd
    rcases hd with ((hd | hd) | hd) | hd
    · exact (under_ofExpr .location (0 :: path) recv d hd).up
    · split at hd
      · cases hd
      · rw [List.mem_singleton.1 hd]
        exact under_receiver 0 path recv
    · obtain ⟨j, -, hj⟩ := under_ofExprs path 1 args d hd
      exact hj.up
    · split at hd
      · rw [List.mem_singleton.1 hd]
        exact under_temporary path _
      · cases hd

theorem under_ofExprs (path : Path) (i : Nat) :
    ∀ es : List Expr, ∀ d ∈ Demand.ofExprs isMember path i es, ∃ j, i ≤ j ∧ Under (j :: path) d
  | [] => by simp [Demand.ofExprs]
  | e :: es => by
    intro d hd
    rw [Demand.ofExprs, List.mem_append] at hd
    rcases hd with hd | hd
    · exact ⟨i, Nat.le_refl i, under_ofExpr .value (i :: path) e d hd⟩
    · obtain ⟨j, hij, hj⟩ := under_ofExprs path (i + 1) es d hd
      exact ⟨j, by omega, hj⟩

end

mutual

theorem distinct_ofExpr (use : Use) (path : Path) :
    ∀ e : Expr, Distinct (Demand.ofExpr isMember use path e)
  | .missing | .int _ => by rw [Demand.ofExpr]; exact distinct_nil
  | .float text => by rw [Demand.ofExpr]; exact distinct_singleton _
  | .var name type => by
    rw [Demand.ofExpr]
    split
    · exact distinct_copy _ _ _
    · exact distinct_nil
  | .dot left member type => by
    rw [Demand.ofExpr]
    exact (distinct_ofExpr .location (0 :: path) left).snoc_copy fun d hd =>
      ⟨0, under_ofExpr isMember .location (0 :: path) left d hd⟩
  | .index base indices type => by
    have hleft := under_ofExpr isMember .location (0 :: path) base
    have hright := under_ofExprs isMember path 1 indices
    rw [Demand.ofExpr]
    refine Distinct.snoc_copy (Distinct.append (distinct_ofExpr .location (0 :: path) base)
      (distinct_ofExprs path 1 indices) fun d hd d' hd' => ?_) fun d hd => ?_
    · obtain ⟨j, hj, hu⟩ := hright d' hd'
      exact (hleft d hd).ne_of_children hu (by omega)
    · rcases List.mem_append.1 hd with hd | hd
      · exact ⟨0, hleft d hd⟩
      · obtain ⟨j, -, hu⟩ := hright d hd
        exact ⟨j, hu⟩
  | .unary op operand type => by
    rw [Demand.ofExpr]
    show Distinct (_ ++ Demand.copy .value path (.unary op operand type))
    exact (distinct_ofExpr .value (0 :: path) operand).snoc_copy fun d hd =>
      ⟨0, under_ofExpr isMember .value (0 :: path) operand d hd⟩
  | .binary op left right type => by
    have hleft := under_ofExpr isMember .value (0 :: path) left
    have hright := under_ofExpr isMember .value (1 :: path) right
    rw [Demand.ofExpr]
    show Distinct (_ ++ Demand.copy .value path (.binary op left right type))
    refine Distinct.snoc_copy (Distinct.append (distinct_ofExpr .value _ left)
      (distinct_ofExpr .value _ right) fun d hd d' hd' =>
        (hleft d hd).ne_of_children (hright d' hd') (by decide)) fun d hd => ?_
    rcases List.mem_append.1 hd with hd | hd
    · exact ⟨0, hleft d hd⟩
    · exact ⟨1, hright d hd⟩
  | .call recv name args isNew type target => by
    have hleft := under_ofExpr isMember .location (0 :: path) recv
    have hright := under_ofExprs isMember path 1 args
    -- the receiver and the slot of its address both stand on child 0
    have hfirst : Distinct (Demand.ofExpr isMember .location (0 :: path) recv
        ++ if recv.isMissing then [] else [Demand.receiver (0 :: path) recv]) := by
      refine (distinct_ofExpr .location _ recv).append ?_ fun d hd d' hd' => ?_
      · split
        · exact distinct_nil
        · exact distinct_singleton _
      · split at hd'
        · cases hd'
        · rw [List.mem_singleton.1 hd']
          exact (hleft d hd).ne_receiver recv
    have hzero : ∀ d ∈ Demand.ofExpr isMember .location (0 :: path) recv
        ++ (if recv.isMissing then [] else [Demand.receiver (0 :: path) recv]),
        ∃ q, d.node.key = .expr q ∧ (0 :: path) <:+ q := by
      intro d hd
      rcases List.mem_append.1 hd with hd | hd
      · obtain ⟨q, hq, hk⟩ := (hleft d hd).key
        exact ⟨q, hk, hq⟩
      · split at hd
        · cases hd
        · rw [List.mem_singleton.1 hd]
          exact ⟨0 :: path, rfl, List.suffix_refl _⟩
    have hboth : Distinct (Demand.ofExpr isMember .location (0 :: path) recv
        ++ (if recv.isMissing then [] else [Demand.receiver (0 :: path) recv])
        ++ Demand.ofExprs isMember path 1 args) := by
      refine hfirst.append (distinct_ofExprs path 1 args) fun d hd d' hd' he => ?_
      obtain ⟨q, hk, hq⟩ := hzero d hd
      obtain ⟨j, hj, hu⟩ := hright d' hd'
      obtain ⟨q', hq', hk'⟩ := hu.key
      have hqq : d.node.key = d'.node.key := congrArg Prod.snd he
      rw [hk, hk'] at hqq
      cases hqq
      have := child_inj hq hq'
      omega
    rw [Demand.ofExpr]
    refine hboth.append ?_ fun d hd d' hd' he => ?_
    · split
      · exact distinct_singleton _
      · exact distinct_nil
    · split at hd'
      · have hk' : d'.node.key = .expr path := by rw [List.mem_singleton.1 hd']; rfl
        have hkey : ∃ j q, d.node.key = .expr q ∧ (j :: path) <:+ q := by
          rcases List.mem_append.1 hd with hd | hd
          · exact ⟨0, hzero d hd⟩
          · obtain ⟨j, -, hu⟩ := hright d hd
            obtain ⟨q, hq, hk⟩ := hu.key
            exact ⟨j, q, hk, hq⟩
        obtain ⟨j, q, hk, hq⟩ := hkey
        have hqq : d.node.key = d'.node.key := congrArg Prod.snd he
        rw [hk, hk'] at hqq
        cases hqq
        have := hq.length_le
        simp only [List.length_cons] at this
        omega
      · cases hd'

theorem distinct_ofExprs (path : Path) (i : Nat) :
    ∀ es : List Expr, Distinct (Demand.ofExprs isMember path i es)
  | [] => by rw [Demand.ofExprs]; exact distinct_nil
  | e :: es => by
    rw [Demand.ofExprs]
    refine (distinct_ofExpr .value (i :: path) e).append (distinct_ofExprs path (i + 1) es)
      fun d hd d' hd' => ?_
    obtain ⟨j, hj, hu⟩ := under_ofExprs isMember path (i + 1) es d' hd'
    exact (under_ofExpr isMember .value (i :: path) e d hd).ne_of_children hu (by omega)

end

/-! ### Statements -/

mutual

theorem under_ofStmt (path : Path) : ∀ st : Stmt, ∀ d ∈ Demand.ofStmt isMember path st, Under path d
  | .declare _ e | .write e | .read e | .ret e | .call e => by
    intro d hd
    rw [Demand.ofStmt] at hd
    exact (under_ofExpr isMember _ _ e d hd).up
  | .assign target value => by
    intro d hd
    rw [Demand.ofStmt, List.mem_append] at hd
    rcases hd with hd | hd
    · exact (under_ofExpr isMember _ _ target d hd).up
    · exact (under_ofExpr isMember _ _ value d hd).up
  | .when cond body | .loop cond body => by
    intro d hd
    rw [Demand.ofStmt, List.mem_append] at hd
    rcases hd with hd | hd
    · exact (under_ofExpr isMember _ _ cond d hd).up
    · obtain ⟨j, -, hj⟩ := under_ofStmts (1 :: path) 0 body d hd
      exact hj.up.up
  | .branch cond yes no => by
    intro d hd
    rw [Demand.ofStmt, List.mem_append, List.mem_append] at hd
    rcases hd with (hd | hd) | hd
    · exact (under_ofExpr isMember _ _ cond d hd).up
    · obtain ⟨j, -, hj⟩ := under_ofStmts (1 :: path) 0 yes d hd
      exact hj.up.up
    · obtain ⟨j, -, hj⟩ := under_ofStmts (2 :: path) 0 no d hd
      exact hj.up.up

theorem under_ofStmts (path : Path) (i : Nat) :
    ∀ sts : List Stmt, ∀ d ∈ Demand.ofStmts isMember path i sts, ∃ j, i ≤ j ∧ Under (j :: path) d
  | [] => by simp [Demand.ofStmts]
  | st :: sts => by
    intro d hd
    rw [Demand.ofStmts, List.mem_append] at hd
    rcases hd with hd | hd
    · exact ⟨i, Nat.le_refl i, under_ofStmt (i :: path) st d hd⟩
    · obtain ⟨j, hij, hj⟩ := under_ofStmts path (i + 1) sts d hd
      exact ⟨j, by omega, hj⟩

end

theorem under_block (i : Nat) (path : Path) (sts : List Stmt) :
    ∀ d ∈ Demand.ofStmts isMember (i :: path) 0 sts, Under (i :: path) d := by
  intro d hd
  obtain ⟨j, -, hj⟩ := under_ofStmts isMember (i :: path) 0 sts d hd
  exact hj.up

mutual

theorem distinct_ofStmt (path : Path) : ∀ st : Stmt, Distinct (Demand.ofStmt isMember path st)
  | .declare _ e | .write e | .read e | .ret e | .call e => by
    rw [Demand.ofStmt]
    exact distinct_ofExpr isMember _ _ e
  | .assign target value => by
    rw [Demand.ofStmt]
    exact (distinct_ofExpr isMember _ _ target).append (distinct_ofExpr isMember _ _ value)
      fun d hd d' hd' => (under_ofExpr isMember _ _ target d hd).ne_of_children
        (under_ofExpr isMember _ _ value d' hd') (by decide)
  | .when cond body | .loop cond body => by
    rw [Demand.ofStmt]
    exact (distinct_ofExpr isMember _ _ cond).append (distinct_ofStmts (1 :: path) 0 body)
      fun d hd d' hd' => (under_ofExpr isMember _ _ cond d hd).ne_of_children
        (under_block isMember 1 path body d' hd') (by decide)
  | .branch cond yes no => by
    rw [Demand.ofStmt]
    have hcond := under_ofExpr isMember .value (0 :: path) cond
    have hyes := under_block isMember 1 path yes
    have hno := under_block isMember 2 path no
    refine ((distinct_ofExpr isMember _ _ cond).append (distinct_ofStmts (1 :: path) 0 yes)
      fun d hd d' hd' => (hcond d hd).ne_of_children (hyes d' hd') (by decide)).append
      (distinct_ofStmts (2 :: path) 0 no) fun d hd d' hd' => ?_
    rcases List.mem_append.1 hd with hd | hd
    · exact (hcond d hd).ne_of_children (hno d' hd') (by decide)
    · exact (hyes d hd).ne_of_children (hno d' hd') (by decide)

theorem distinct_ofStmts (path : Path) (i : Nat) :
    ∀ sts : List Stmt, Distinct (Demand.ofStmts isMember path i sts)
  | [] => by rw [Demand.ofStmts]; exact distinct_nil
  | st :: sts => by
    rw [Demand.ofStmts]
    refine (distinct_ofStmt (i :: path) st).append (distinct_ofStmts path (i + 1) sts)
      fun d hd d' hd' => ?_
    obtain ⟨j, hj, hu⟩ := under_ofStmts isMember path (i + 1) sts d' hd'
    exact (under_ofStmt isMember (i :: path) st d hd).ne_of_children hu (by omega)

end

end

/-! ### Functions -/

theorem key_ofHead {entryName : String} {i : Nat} {head f : Signature} {d : Demand}
    (hd : d ∈ Demand.ofHead entryName (.function i head) f) : d.node = .function i head := by
  unfold Demand.ofHead at hd
  rcases List.mem_append.1 hd with hd | hd
  · rcases List.mem_append.1 hd with hd | hd
    · split at hd
      · cases hd
      · rw [List.mem_singleton.1 hd]
    · split at hd
      · cases hd
      · rw [List.mem_singleton.1 hd]
  · split at hd
    · rw [List.mem_singleton.1 hd]
    · cases hd

theorem distinct_ofHead (entryName : String) (node : Backing) (f : Signature) :
    Distinct (Demand.ofHead entryName node f) := by
  unfold Demand.ofHead Distinct slotKey
  cases f.isFree entryName <;> by_cases hr : f.returns.base = .void <;> cases f.isMember
    <;> simp [hr]

theorem key_ofStmts {isMember : String → Bool} {sts : List Stmt} {d : Demand}
    (hd : d ∈ Demand.ofStmts isMember [] 0 sts) : ∃ q, d.node.key = .expr q := by
  obtain ⟨j, -, hj⟩ := under_ofStmts isMember [] 0 sts d hd
  obtain ⟨q, -, hq⟩ := hj.key
  exact ⟨q, hq⟩

/-- The slots of a function are pairwise different. -/
theorem distinct_ofFunction (t : Table) (entryName : String) (i : Nat) (f : Function) :
    Distinct (Demand.ofFunction t entryName i f) := by
  refine (distinct_ofHead _ _ _).append (distinct_ofStmts _ [] 0 f.body) fun d hd d' hd' he => ?_
  obtain ⟨q, hq⟩ := key_ofStmts hd'
  have hk : d.node.key = d'.node.key := congrArg Prod.snd he
  rw [key_ofHead hd, hq] at hk
  cases hk

theorem key_ofFunction {t : Table} {entryName : String} {i : Nat} {f : Function} {d : Demand}
    (hd : d ∈ Demand.ofFunction t entryName i f) : ∀ path, d.node.key ≠ .localVar path := by
  intro path
  rcases List.mem_append.1 hd with hd | hd
  · rw [key_ofHead hd]
    nofun
  · obtain ⟨q, hq⟩ := key_ofStmts hd
    rw [hq]
    nofun

theorem slot_append {s : Scope} {es : List Entry} {key : Backing.Key} {kind : EntryKind} :
    ({ s with entries := s.entries ++ es } : Scope).slot key kind
      = (s.slot key kind).or (es.find? (Scope.backs key kind)) := by
  simp only [Scope.slot, List.find?_append]

theorem backs_demanded (d d' : Demand) :
    Scope.backs d.node.key d.kind (demanded d') = true ↔ slotKey d' = slotKey d := by
  simp [Scope.backs, demanded, Entry.backed, slotKey]

theorem supply_ok {ds : List Demand} {s : Scope} (hd : Distinct ds)
    (hs : ∀ d ∈ ds, s.slot d.node.key d.kind = none) : ∃ s', supply ds s = (.ok (), s') := by
  induction ds generalizing s with
  | nil => exact ⟨s, rfl⟩
  | cons d ds ih =>
    obtain ⟨hnotin, hd⟩ := List.nodup_cons.1 hd
    have hadd : s.synthesize d.kind d.type (some d.node)
        = .ok { s with entries := s.entries ++ [demanded d] } := by
      simp [Scope.synthesize, Scope.add, Entry.backed, hs d List.mem_cons_self, demanded]
    rw [supply, hadd]
    refine ih hd fun d' hd' => ?_
    rw [slot_append, hs d' (List.mem_cons_of_mem _ hd'), Option.none_or, List.find?_eq_none]
    intro e he
    rw [List.mem_singleton.1 he, backs_demanded]
    intro hk
    exact hnotin (hk ▸ List.mem_map_of_mem hd')

theorem find_demanded {ds : List Demand} (hd : Distinct ds) {d : Demand} (hm : d ∈ ds) :
    (ds.map demanded).find? (Scope.backs d.node.key d.kind) = some (demanded d) := by
  induction ds with
  | nil => cases hm
  | cons d' ds ih =>
    obtain ⟨hnotin, hd⟩ := List.nodup_cons.1 hd
    rw [List.map_cons, List.find?_cons]
    rcases List.mem_cons.1 hm with rfl | hm
    · rw [(backs_demanded d d).2 rfl]
    · have hne : Scope.backs d.node.key d.kind (demanded d') = false := by
        rw [Bool.eq_false_iff, Ne, backs_demanded]
        intro hk
        exact hnotin (hk ▸ List.mem_map_of_mem hm)
      rw [hne]
      exact ih hd hm

theorem slot_ofFunction {i : Nat} {f : Function} {s : Scope} (h : Scope.OfFunction i f s)
    {key : Backing.Key} (hk : ∀ path, key ≠ .localVar path) (kind : EntryKind) :
    s.slot key kind = none := by
  have hback : ∀ e ∈ s.entries, e.backing = none ∨ ∃ q d, e.backing = some (.localVar q d) := by
    intro e he
    rw [h.entries] at he
    rcases List.mem_append.1 he with he | he
    · obtain ⟨d, -, rfl⟩ := List.mem_map.1 he
      exact .inl rfl
    · refine Scope.forall_localsOfAll
        (P := fun e => e.backing = none ∨ ∃ q d, e.backing = some (.localVar q d))
        (fun path d => ?_) [] 0 f.body e he
      unfold Scope.localEntry
      split
      · exact .inr ⟨_, _, rfl⟩
      · exact .inl rfl
  rw [Scope.slot, List.find?_eq_none]
  intro e he
  rcases hback e he with hb | ⟨q, d, hb⟩
  · simp [Scope.backs, hb]
  · have : Backing.Key.localVar q ≠ key := (hk q).symm
    simp [Scope.backs, hb, Backing.key, this]

/-! ### The supply of a whole table -/

theorem ofFunction_suppliedTo (t : Table) (entryName : String) (k : Nat) (f : Function) :
    Demand.ofFunction (suppliedTo t entryName k) entryName k f = Demand.ofFunction t entryName k f := by
  have hres : ∀ name, (suppliedTo t entryName k).resolveName k name = t.resolveName k name := by
    refine resolveName_congr rfl ?_
    simp [suppliedTo, List.getElem?_mapIdx]
  unfold Demand.ofFunction
  simp only [hres]

def HeadsMatch (t : Table) : Prop := ∀ i s, t.functions[i]? = some s →
  ∃ f, Scope.OfFunction i f s ∧ ∃ body, t.program.functions[i]? = some { f with body := body }

theorem supplyFunction_ok {t : Table} (hm : HeadsMatch t) {k : Nat} {l : Layout}
    (ht : l.table = suppliedTo t l.entryName k) :
    (supplyFunction k).run l = (.ok (), { l with table := suppliedTo t l.entryName (k + 1) }) := by
  suffices h : ∃ l', (supplyFunction k).run l = (.ok (), l') by
    obtain ⟨l', hl'⟩ := h
    rw [hl', of_supplyFunction ht hl']
  have hprog : l.table.program = t.program := by rw [ht]; rfl
  unfold supplyFunction
  cases hf : t.program.functions[k]? with
  | none =>
    refine ⟨l, run_bind_eq_ok.2 ⟨l, l, rfl, ?_⟩⟩
    rw [hprog, hf]
    rfl
  | some f =>
    have hat : l.table.scope? (.ofFunction k) = t.functions[k]? := by
      rw [ht]
      simp [Table.scope?, suppliedTo, List.getElem?_mapIdx]
    cases hs : t.functions[k]? with
    | none =>
      refine ⟨l, run_bind_eq_ok.2 ⟨l, l, rfl, ?_⟩⟩
      rw [hprog, hf]
      exact run_onScope_none (hat.trans hs)
    | some s =>
      obtain ⟨g, hof, -⟩ := hm k s hs
      obtain ⟨s', hs'⟩ := supply_ok (s := s) (distinct_ofFunction t l.entryName k f) fun d hd =>
        slot_ofFunction hof (key_ofFunction hd) d.kind
      refine ⟨{ l with table := l.table.setScope (.ofFunction k) s' },
        run_bind_eq_ok.2 ⟨l, l, rfl, ?_⟩⟩
      rw [hprog, hf]
      refine onScope_of_some (hat.trans hs) ?_
      rw [ht]
      simp only [ofFunction_suppliedTo]
      exact hs'

theorem supplyAll_ok {t : Table} (hm : HeadsMatch t) (c : Config) :
    ((List.range t.functions.length).forM supplyFunction).run (ofTable t c)
      = (.ok (), { ofTable t c with table := supplied t c.emit.entryFunction }) := by
  suffices h : ∀ m k (l : Layout), l.table = suppliedTo t l.entryName k →
      ((List.range' k m).forM supplyFunction).run l
        = (.ok (), { l with table := suppliedTo t l.entryName (k + m) }) by
    have hzero : suppliedTo t c.emit.entryFunction 0 = t := by
      have hf : (t.functions.mapIdx fun i s =>
          if i < 0 then withSlots t c.emit.entryFunction i s else s) = t.functions := by
        rw [List.mapIdx_eq_iff]
        intro i
        simp
      unfold suppliedTo
      rw [hf]
    rw [List.range_eq_range', h t.functions.length 0 (ofTable t c) hzero.symm, Nat.zero_add]
    exact congrArg (fun t' => (Except.ok (), { ofTable t c with table := t' }))
      (suppliedTo_length t c.emit.entryFunction)
  intro m
  induction m with
  | zero =>
    intro k l hl
    rw [Nat.add_zero, ← hl]
    rfl
  | succ m ih =>
    intro k l hl
    rw [List.range'_succ]
    refine run_bind_eq_ok.2 ⟨(), _, supplyFunction_ok hm hl, ?_⟩
    rw [ih (k + 1) _ rfl]
    simp only
    rw [show k + 1 + m = k + (m + 1) by omega]

end Layout

end MoonBackend
