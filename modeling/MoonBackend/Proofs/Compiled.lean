import MoonBackend.Compile
import MoonBackend.Proofs.Emit.Program
import MoonBackend.Proofs.Layout.Resolved
import MoonBackend.Proofs.Symbols.Built

/-!
# What a compilation went through

A compilation that succeeds has built a table, settled its layout and emitted code. Nothing of a
table is laid out when it was just built.
-/

namespace MoonBackend

open Layout

mutual

theorem Scope.forall_localsOf {P : Entry → Prop} (hP : ∀ path d, P (Scope.localEntry path d))
    (path : Path) : ∀ (st : Stmt), ∀ e ∈ Scope.localsOf path st, P e
  | .declare d _, e, he => by
    rw [List.mem_singleton.1 he]
    exact hP path d
  | .when _ body, e, he => Scope.forall_localsOfAll hP _ _ body e he
  | .branch _ yes no, e, he => by
    rcases List.mem_append.1 he with he | he
    · exact Scope.forall_localsOfAll hP _ _ yes e he
    · exact Scope.forall_localsOfAll hP _ _ no e he
  | .loop _ body, e, he => Scope.forall_localsOfAll hP _ _ body e he
  | .assign _ _, _, he | .write _, _, he | .read _, _, he | .ret _, _, he | .call _, _, he => by
    cases he

theorem Scope.forall_localsOfAll {P : Entry → Prop} (hP : ∀ path d, P (Scope.localEntry path d))
    (path : Path) (i : Nat) : ∀ (sts : List Stmt), ∀ e ∈ Scope.localsOfAll path i sts, P e
  | [], _, he => by cases he
  | st :: sts, e, he => by
    rcases List.mem_append.1 he with he | he
    · exact Scope.forall_localsOf hP _ st e he
    · exact Scope.forall_localsOfAll hP _ _ sts e he

end

theorem Scope.localEntry_open (path : Path) (d : VarDecl) :
    (Scope.localEntry path d).size = none ∧ (Scope.localEntry path d).offset = none := by
  unfold Scope.localEntry
  split
  · exact ⟨rfl, rfl⟩
  · exact ⟨rfl, rfl⟩

namespace Table

theorem HasScopes.fresh {p : Program} {cs : List ClassDecl} {fs : List Function} {t : Table}
    (h : HasScopes p cs fs t) : Fresh t := by
  have hof : ∀ s ∈ t.classes ++ t.functions,
      (∀ e ∈ s.entries, e.size = none ∧ e.offset = none) ∧ s.placed = false := by
    intro s hs
    rcases List.mem_append.1 hs with hs | hs
    · obtain ⟨i, hi⟩ := List.mem_iff_getElem?.1 hs
      obtain ⟨c, -, hc⟩ := h.classScope i s hi
      obtain ⟨marks, hm, he⟩ := hc.entries
      refine ⟨fun e hmem => ?_, hc.placed⟩
      rw [he] at hmem
      rcases List.mem_append.1 hmem with hmem | hmem
      · obtain ⟨d, -, rfl⟩ := List.mem_map.1 hmem
        exact ⟨rfl, rfl⟩
      · exact (hm e hmem).2.2
    · obtain ⟨i, hi⟩ := List.mem_iff_getElem?.1 hs
      obtain ⟨f, -, hf⟩ := h.functionScope i s hi
      refine ⟨fun e hmem => ?_, hf.placed⟩
      rw [hf.entries] at hmem
      rcases List.mem_append.1 hmem with hmem | hmem
      · obtain ⟨d, -, rfl⟩ := List.mem_map.1 hmem
        exact ⟨rfl, rfl⟩
      · exact Scope.forall_localsOfAll (P := fun e => e.size = none ∧ e.offset = none)
          Scope.localEntry_open _ _ _ e hmem
  exact ⟨fun s hs => (hof s hs).1, fun s hs => (hof s hs).2⟩

theorem fresh_of_build {p : Program} {t : Table} (h : Table.build p = .ok t) : Fresh t := by
  obtain ⟨t₀, hs, -, ht⟩ := of_build h
  have hf := hs.fresh
  rw [ht]
  exact ⟨hf.entries, hf.placed⟩

end Table

theorem compile_eq_ok {config : Config} {p : Program} {c : Compiled} :
    (compile config p).1 = .ok c ↔
      ∃ t log, Table.build p = .ok t ∧ (Layout.ofTable t config).resolve = (.ok (), c.layout)
        ∧ Emit.run config c.layout = (.ok c.code, log) := by
  unfold compile
  constructor
  · intro h
    cases hb : Table.build p with
    | error cause =>
      rw [hb] at h
      cases h
    | ok t =>
      rw [hb] at h
      simp only [compileTable] at h
      rcases hr : (Layout.ofTable t config).resolve with ⟨_ | u, l⟩
      · rw [hr] at h
        cases h
      · rw [hr] at h
        simp only at h
        rcases he : Emit.run config l with ⟨_ | code, log⟩
        · rw [he] at h
          cases h
        · rw [he] at h
          cases h
          exact ⟨t, log, rfl, hr, he⟩
  · rintro ⟨t, log, hb, hr, he⟩
    rw [hb]
    simp only [compileTable, hr, he]

/-! ### Stages without a log -/

def layout? (config : Config) (p : Program) : Option Layout :=
  match Table.build p with
  | .error _ => none
  | .ok t =>
    match (Layout.ofTable t config).resolve with
    | (.error _, _) => none
    | (.ok (), l) => some l

theorem layout?_eq_some {config : Config} {p : Program} {l : Layout} :
    layout? config p = some l ↔
      ∃ t, Table.build p = .ok t ∧ (Layout.ofTable t config).resolve = (.ok (), l) := by
  unfold layout?
  constructor
  · intro h
    split at h
    · cases h
    · rename_i t hb
      split at h
      · cases h
      · rename_i l' hr
        cases h
        exact ⟨t, hb, hr⟩
  · rintro ⟨t, hb, hr⟩
    rw [hb]
    simp only [hr]

def code? (config : Config) (p : Program) : Option Code :=
  (layout? config p).bind fun l =>
    ((Emit.program config l).run (Emit.startCounts config)).1.toOption

/-- A check of the layout and the code of a program that can be computed is a check of what it
compiles to. -/
theorem compile_of_layout? (config : Config) (p : Program) (check : Layout → Code → Bool)
    (h : ((layout? config p).any fun l =>
      ((Emit.program config l).run (Emit.startCounts config)).1.toOption.any (check l)) = true) :
    ∃ c, (compile config p).1 = .ok c ∧ check c.layout c.code = true := by
  obtain ⟨l, hl, hcode⟩ := (Option.any_eq_true _ _).1 h
  obtain ⟨code, hrun, hcheck⟩ := (Option.any_eq_true _ _).1 hcode
  obtain ⟨t, hb, hr⟩ := layout?_eq_some.1 hl
  have hok : (Emit.run config l).1 = .ok code := by
    refine Emit.run_eq_ok.2 ?_
    rcases hp : (Emit.program config l).run (Emit.startCounts config) with ⟨_ | code', k⟩
    · rw [hp] at hrun
      cases hrun
    · rw [hp] at hrun
      cases hrun
      exact ⟨k, rfl⟩
  exact ⟨⟨code, l⟩, compile_eq_ok.2 ⟨t, _, hb, hr, Prod.ext hok rfl⟩, hcheck⟩

theorem compile_of_code? (config : Config) (p : Program) (check : Code → Bool)
    (h : (code? config p).any check = true) :
    ∃ c, (compile config p).1 = .ok c ∧ check c.code = true := by
  refine compile_of_layout? config p (fun _ => check) ?_
  rwa [code?, Option.any_bind] at h

end MoonBackend
