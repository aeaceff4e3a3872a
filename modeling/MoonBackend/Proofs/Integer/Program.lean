import MoonBackend.Proofs.Compiled
import MoonBackend.Proofs.Emit.Program
import MoonBackend.Proofs.Integer.Frame
import MoonBackend.Proofs.Integer.Lines

/-!
# Compiling an integer program

What a built table, its layout and its code look like for a program of the integer language.
-/

namespace MoonBackend.Integer

open Layout Code Text

/-! ### The table -/

structure IsVariable (e : Entry) : Prop where
  word : IsWord e
  named : e.name ≠ ""
  oneLine : OneLine e.name

theorem isVariable_named {kind : EntryKind} (hk : kind.isStorage = true) {d : VarDecl}
    (hd : IsDecl d) : IsVariable (.named kind d.name d.type) :=
  ⟨⟨hk, hd.type⟩, hd.named, hd.oneLine⟩

theorem isVariable_local (path : Path) {d : VarDecl} (hd : IsDecl d) :
    IsVariable (Scope.localEntry path d) := by
  have hne : ¬ (d.name == "") = true := by simpa using hd.named
  rw [Scope.localEntry, if_neg hne]
  exact isVariable_named rfl hd

mutual

theorem isVariable_localsOf {path : Path} {st : Stmt} (hst : IsStmt st) :
    ∀ e ∈ Scope.localsOf path st, IsVariable e := by
  intro e he
  cases st with
  | declare d init =>
    rw [List.mem_singleton.1 he]
    exact isVariable_local path hst.1
  | «when» cond body => exact isVariable_localsOfAll hst.2 e he
  | branch cond yes no =>
    rcases List.mem_append.1 he with he | he
    · exact isVariable_localsOfAll hst.2.1 e he
    · exact isVariable_localsOfAll hst.2.2 e he
  | loop cond body => exact isVariable_localsOfAll hst.2 e he
  | _ => cases he

theorem isVariable_localsOfAll {path : Path} {i : Nat} {sts : List Stmt} (hst : AreStmts sts) :
    ∀ e ∈ Scope.localsOfAll path i sts, IsVariable e := by
  intro e he
  cases sts with
  | nil => cases he
  | cons st sts =>
    rcases List.mem_append.1 he with he | he
    · exact isVariable_localsOf hst.1 e he
    · exact isVariable_localsOfAll hst.2 e he

end

/-- The table of an integer program: one scope of variables, and the typed body. -/
structure Ground (f : Function) (t : Table) (s : Scope) : Prop where
  functions : t.functions = [s]
  scope : Scope.OfFunction 0 f s
  program : t.program.functions = [{ f with body := typedStmts f.body }]
  vars : ∀ e ∈ s.entries, IsVariable e
  declared : DeclaredStmts (fun n => (s.lookup n).isSome = true) f.body
  fresh : Fresh t

theorem mem_of_lookup {s : Scope} {n : String} {e : Entry} (h : s.lookup n = some e) :
    e ∈ s.entries ∧ e.name = n ∧ n ≠ "" := by
  unfold Scope.lookup at h
  split at h
  · cases h
  · rename_i hne
    exact ⟨List.mem_of_find?_eq_some h, by simpa using List.find?_some h, by simpa using hne⟩

theorem lookup_isSome_of_mem {s : Scope} {e : Entry} (he : e ∈ s.entries) (hne : e.name ≠ "") :
    (s.lookup e.name).isSome = true := by
  unfold Scope.lookup
  rw [if_neg (by simpa using hne), List.find?_isSome]
  exact ⟨e, he, by simp⟩

theorem resolveName_free {t : Table} {s : Scope} {f : Function} (ht : t.functions[0]? = some s)
    (hb : s.backing = .function 0 f.toSignature) (hf : f.className = "") (name : String) :
    t.resolveName 0 name = (s.lookup name).map fun e => (⟨.ofFunction 0, e⟩, false) := by
  have hm : f.toSignature.isMember = false := by simp [Signature.isMember, hf]
  unfold Table.resolveName
  rw [ht]
  simp only
  cases hl : s.lookup name with
  | some e => rfl
  | none =>
    simp only [hb, hm, Bool.false_eq_true, if_false, Option.map_none]

theorem ground_of_build {p : Program} {f : Function} {t : Table} (hp : IsProgram p f)
    (hb : Table.build p = .ok t) : ∃ s, Ground f t s := by
  obtain ⟨t₀, hs, hcomplete, ht⟩ := Table.of_build hb
  rw [hp.functions] at hs hcomplete
  obtain ⟨s, hts⟩ : ∃ s, t₀.functions = [s] := List.length_eq_one_iff.1 hs.functionCount
  obtain ⟨f', hf', hof⟩ := hs.functionScope 0 s (by rw [hts]; rfl)
  obtain rfl : f = f' := by simpa using hf'
  have hvars : ∀ e ∈ s.entries, IsVariable e := by
    intro e he
    rw [hof.entries] at he
    rcases List.mem_append.1 he with he | he
    · obtain ⟨d, hd, rfl⟩ := List.mem_map.1 he
      exact isVariable_named rfl (hp.params d hd)
    · exact isVariable_localsOfAll hp.body e he
  have hknows : Knows t₀ fun n => (s.lookup n).isSome = true := by
    intro name found hr
    rw [resolveName_free (by rw [hts]; rfl) hof.backing hp.free] at hr
    obtain ⟨e, he, rfl⟩ := Option.map_eq_some_iff.1 hr
    exact ⟨(hvars e (mem_of_lookup he).1).word.2, Option.isSome_iff_exists.2 ⟨e, he⟩⟩
  obtain ⟨hlen, hall⟩ := Table.of_completeFunctions hcomplete
  obtain ⟨body, hbody, hat⟩ := hall 0 f rfl
  have hlocals : ∀ e ∈ Scope.localsOfAll [] 0 f.body, (s.lookup e.name).isSome = true := by
    intro e he
    have hmem : e ∈ s.entries := by
      rw [hof.entries]
      exact List.mem_append_right _ he
    exact lookup_isSome_of_mem hmem (hvars e hmem).named
  obtain ⟨rfl, hdecl⟩ := completeStmts_typed hknows hp.body hlocals hbody
  obtain ⟨g, hg⟩ := List.length_eq_one_iff.1 hlen
  refine ⟨s, ?_, hof, ?_, hvars, hdecl, Table.fresh_of_build hb⟩
  · rw [ht]
    exact hts
  · rw [hg] at hat ⊢
    exact congrArg (fun g => [g]) (Option.some.inj hat)

/-! ### The layout -/

theorem noMember {t : Table} {s : Scope} {f : Function} (hg : Ground f t s)
    (hf : f.className = "") :
    NoMember fun name => (t.resolveName 0 name).any Prod.snd := by
  intro name
  simp only
  rw [resolveName_free (by rw [hg.functions]; rfl) hg.scope.backing hf]
  cases s.lookup name with
  | none => rfl
  | some e => rfl

theorem demands_ground {p : Program} {t : Table} {s : Scope} {f : Function} (hp : IsProgram p f)
    (hg : Ground f t s) :
    List.Forall₂ IsTemporary (stmtsPaths [] 0 f.body)
      (Demand.ofFunction t "main" 0 { f with body := typedStmts f.body }) := by
  have hm : f.toSignature.isMember = false := by simp [Signature.isMember, hp.free]
  have hfree : f.toSignature.isFree "main" = true := by simp [Signature.isFree, hm, hp.name]
  have hhead : Demand.ofHead "main" (.function 0 f.toSignature) f.toSignature = [] := by
    unfold Demand.ofHead
    rw [if_pos hfree, hp.returns, if_pos (by rfl), hm, if_neg Bool.false_ne_true]
    rfl
  have hd := demands_stmts (noMember hg hp.free) hp.body [] 0
  unfold Demand.ofFunction
  simp only
  rw [hhead, List.nil_append]
  exact hd

def withTemporaries (t : Table) (f : Function) (s : Scope) : Scope :=
  { s with entries := s.entries
      ++ (Demand.ofFunction t "main" 0 { f with body := typedStmts f.body }).map demanded }

theorem withSlots_ground {t : Table} {s : Scope} {f : Function} (hg : Ground f t s) :
    withSlots t "main" 0 s = withTemporaries t f s := by
  unfold withSlots withTemporaries
  rw [hg.program]
  rfl

structure LaidOut (f : Function) (t : Table) (s : Scope) (l : Layout) (s' : Scope) : Prop where
  functions : l.table.functions = [s']
  program : l.table.program.functions = [{ f with body := typedStmts f.body }]
  later : (withTemporaries t f s).Later s'
  sizes : l.sizes = {}
  settled : l.Settled

theorem laidOut_of_resolve {t : Table} {s : Scope} {f : Function} (hg : Ground f t s) {l : Layout}
    (hr : (Layout.ofTable t {}).resolve = (.ok (), l)) : ∃ s', LaidOut f t s l s' := by
  obtain ⟨hlater, hsizes, -, hsettled⟩ := of_resolve hg.fresh hr
  have hf := hlater.functions
  simp only [supplied, hg.functions, List.mapIdx_cons, List.mapIdx_nil] at hf
  cases hl : l.table.functions with
  | nil =>
    rw [hl] at hf
    cases hf
  | cons s' rest =>
    rw [hl] at hf
    cases hf with
    | cons hs hrest =>
      cases hrest
      have hs' : (withSlots t "main" 0 s).Later s' := hs
      rw [withSlots_ground hg] at hs'
      refine ⟨s', hl, ?_, hs', hsizes, hsettled⟩
      rw [hlater.program]
      exact hg.program

section
variable {p : Program} {f : Function} {t : Table} {s s' : Scope} {l : Layout}

theorem words_of_laidOut (hp : IsProgram p f) (hg : Ground f t s) (hl : LaidOut f t s l s') :
    ∀ e ∈ s'.entries, IsWord e ∧ (e.name ≠ "" → OneLine e.name) := by
  intro e he
  obtain ⟨e₀, he₀, hlater⟩ := mem_right hl.later.entries he
  rw [IsWord, hlater.kind, hlater.type, hlater.name]
  rcases List.mem_append.1 he₀ with he₀ | he₀
  · have hv := hg.vars e₀ he₀
    exact ⟨hv.word, fun _ => hv.oneLine⟩
  · obtain ⟨d, hd, rfl⟩ := List.mem_map.1 he₀
    obtain ⟨q, -, ht⟩ := mem_right (demands_ground hp hg) hd
    refine ⟨⟨?_, ht.type⟩, fun hne => absurd rfl hne⟩
    show d.kind.isStorage = true
    rw [ht.kind]
    rfl

theorem framed_of_laidOut (hp : IsProgram p f) (hg : Ground f t s) (hl : LaidOut f t s l s') :
    Framed s' :=
  framed_of_settled hl.settled hl.sizes (by rw [hl.functions]; rfl)
    (fun e he => (words_of_laidOut hp hg hl e he).1) (hl.later.backing.trans hg.scope.backing)

theorem lookup_laidOut (hl : LaidOut f t s l s') {n : String} (h : (s.lookup n).isSome = true) :
    (s'.lookup n).isSome = true := by
  obtain ⟨e, he⟩ := Option.isSome_iff_exists.1 h
  obtain ⟨hmem, rfl, hne⟩ := mem_of_lookup he
  have hsome : ((withTemporaries t f s).lookup e.name).isSome = true :=
    lookup_isSome_of_mem (List.mem_append_left _ hmem) hne
  obtain ⟨e₁, he₁⟩ := Option.isSome_iff_exists.1 hsome
  have hr := hl.later.lookup e.name
  rw [he₁] at hr
  obtain ⟨e₂, he₂, -⟩ := of_rel_some hr
  rw [he₂]
  rfl

theorem slot_laidOut (hp : IsProgram p f) (hg : Ground f t s) (hl : LaidOut f t s l s') {q : Path}
    (hq : q ∈ stmtsPaths [] 0 f.body) : (s'.slot (.expr q) .temporary).isSome = true := by
  obtain ⟨d, hd, ht⟩ : ∃ d ∈ Demand.ofFunction t "main" 0 { f with body := typedStmts f.body },
      IsTemporary q d := by
    obtain ⟨d, hd, ht⟩ := mem_right (demands_ground hp hg).flip hq
    exact ⟨d, hd, ht⟩
  have hsome : ((withTemporaries t f s).slot (.expr q) .temporary).isSome = true := by
    unfold Scope.slot
    rw [List.find?_isSome]
    refine ⟨demanded d, List.mem_append_right _ (List.mem_map.2 ⟨d, hd, rfl⟩), ?_⟩
    simp [Scope.backs, demanded, Entry.backed, ht.kind, ht.key]
  obtain ⟨e₁, he₁⟩ := Option.isSome_iff_exists.1 hsome
  have hr := hl.later.slot (.expr q) .temporary
  rw [he₁] at hr
  obtain ⟨e₂, he₂, -⟩ := of_rel_some hr
  rw [he₂]
  rfl

def frameSlots (s : Scope) : Slots := s.slots (Int64.ofNat (4 * s.entries.length))

theorem covered_of_laidOut (hp : IsProgram p f) (hg : Ground f t s) (hl : LaidOut f t s l s') :
    CoveredStmts (frameSlots s') [] 0 f.body := by
  have hf := framed_of_laidOut hp hg hl
  refine covered_stmts (fun n hn => ?_) hp.body [] 0 hg.declared fun q hq => ?_
  · exact (hf.var_isSome _).2 (lookup_laidOut hl hn)
  · exact hf.temp_isSome _ (slot_laidOut hp hg hl hq)

theorem named_of_laidOut (hp : IsProgram p f) (hg : Ground f t s) (hl : LaidOut f t s l s') :
    Named (frameSlots s') := by
  intro n hn
  obtain ⟨o, ho⟩ := Option.isSome_iff_exists.1 hn
  obtain ⟨i, e, hi, rfl, hne, -, -⟩ := Framed.exists_of_var ho
  exact (words_of_laidOut hp hg hl e (List.mem_of_getElem? hi)).2 hne

theorem ready_of_laidOut (hp : IsProgram p f) (hg : Ground f t s) (hl : LaidOut f t s l s')
    (tags : List String) (exit : String) :
    Ready (Emit.contextAt {} l tags 0 { f with body := typedStmts f.body } s' exit)
      (frameSlots s') := by
  have hf := framed_of_laidOut hp hg hl
  refine ⟨rfl, hl.sizes, hf.size, ?_, ?_⟩
  · intro n o ho
    obtain ⟨i, e, hi, -, -, hlook, hoff⟩ := Framed.exists_of_var ho
    have hres := resolveName_free (t := l.table) (s := s') (by rw [hl.functions]; rfl)
      (hl.later.backing.trans hg.scope.backing) hp.free n
    rw [hlook] at hres
    exact ⟨_, hres, hlook, hoff, (hf.words e (List.mem_of_getElem? hi)).1.2⟩
  · intro q o ho
    obtain ⟨i, e, -, -, -, hslot, hoff⟩ := Framed.exists_of_temp ho
    exact ⟨e, hslot, hoff⟩

/-! ### The code -/

def exitName : String := label "end_main" 1

def functionCode (f : Function) (s : Scope) : Code :=
  note f.toSignature.text ++ note ("frame " ++ Text.decimal (frameSlots s).size.toInt)
    ++ stmtsCode (frameSlots s) exitName [] 0 1 f.body ++ [mark exitName]

def programCode (f : Function) (s : Scope) : Code := Emit.wrapped {} (functionCode f s) []

theorem eval_reportFunction {c : Emit.Context} {slots : Slots} (h : Ready c slots) (scope : Scope)
    (tag : String) (k : Emit.Counts) :
    ∃ k', Emit.eval (Emit.reportFunction scope tag) c k = (.ok (), k') := by
  have hsize : c.scope.frameSize = .ok slots.size := by
    unfold Scope.frameSize
    rw [h.size]
  unfold Emit.reportFunction
  rw [Emit.eval_bind_ok (by rw [Emit.eval_frameSize, hsize])]
  exact ⟨_, rfl⟩

theorem eval_function (hp : IsProgram p f) (hg : Ground f t s) (hl : LaidOut f t s l s')
    (tags : List String) (tag : String) {k : Emit.Counts} (hk : k.pool = stockPool)
    (hn : k.labels = 1) :
    ∃ k', Emit.eval (Emit.function tag { f with body := typedStmts f.body })
      (Emit.contextAt {} l tags 0 { f with body := typedStmts f.body } s' exitName) k
        = (.ok (functionCode f s'), k') := by
  have hr := ready_of_laidOut hp hg hl tags exitName
  generalize hc : Emit.contextAt {} l tags 0 { f with body := typedStmts f.body } s' exitName = c
    at hr
  have hexit : c.exit = exitName := by rw [← hc]; rfl
  have hsize : c.scope.frameSize = .ok (frameSlots s').size := by
    unfold Scope.frameSize
    rw [hr.size]
  have hentry : f.toSignature.isFree c.config.emit.entryFunction = true := by
    rw [hr.config]
    simp [Signature.isFree, Signature.isMember, hp.free, hp.name]
  have hk' : (insideBlock k).pool = stockPool := hk
  obtain ⟨k₁, hbody, -⟩ := eval_stmts hr hk' hp.body (covered_of_laidOut hp hg hl)
  obtain ⟨k₂, hreport⟩ := eval_reportFunction hr c.scope tag k₁
  refine ⟨k₂, ?_⟩
  unfold Emit.function
  rw [Emit.eval_bind_ok (Emit.eval_read c k), Emit.eval_bind_ok (Emit.eval_stackPointer c k),
    Emit.eval_bind_ok (Emit.eval_link c k)]
  simp only [hentry, if_true]
  rw [Emit.eval_bind_ok (Emit.eval_comment _ c k),
    Emit.eval_bind_ok (by rw [Emit.eval_frameSize, hsize]),
    Emit.eval_bind_ok (Emit.eval_comment _ c k), Emit.eval_bind_ok (eval_enterBlock c k), Emit.eval_bind_ok hbody,
    Emit.eval_bind_ok (Emit.eval_pure [] c k₁), Emit.eval_bind_ok hreport, hexit, hr.config]
  simp only [Emit.eval_pure, functionCode, insideBlock, hn, note, if_true, List.append_nil]

theorem tags_main (hp : IsProgram p f) {q : Program}
    (hq : q.functions = [{ f with body := typedStmts f.body }]) : Emit.tags q = ["fn_main"] := by
  have hm : f.toSignature.isMember = false := by simp [Signature.isMember, hp.free]
  have hstem : Emit.tagStem f.toSignature = "fn_main" := by
    unfold Emit.tagStem
    rw [hm, if_neg Bool.false_ne_true, hp.name]
    rfl
  unfold Emit.tags
  rw [hq]
  simp only [List.map_cons, List.map_nil, Emit.tagsAfter, hstem]
  rfl

/-- The layout of an integer program is emitted as its code. -/
theorem run_laidOut (hp : IsProgram p f) (hg : Ground f t s) (hl : LaidOut f t s l s') :
    (Emit.run {} l).1 = .ok (programCode f s') := by
  rw [Emit.run_eq_ok]
  have hscope : l.table.functions[0]? = some s' := by rw [hl.functions]; rfl
  have hfun : l.table.program.functions[0]? = some { f with body := typedStmts f.body } := by
    rw [hl.program]
    rfl
  have hentry : Emit.isEntryAt {} l 0 = true := by
    unfold Emit.isEntryAt
    rw [hfun]
    simp [Signature.isFree, Signature.isMember, hp.free, hp.name]
  have hentries : Emit.entryPositions {} l = [0] := by
    simp [Emit.entryPositions, hl.functions, hentry]
  have hothers : Emit.otherPositions {} l = [] := by
    simp [Emit.otherPositions, hl.functions, hentry]
  have htags := tags_main hp hl.program
  obtain ⟨k', hcode⟩ := eval_function hp hg hl ["fn_main"] "fn_main"
    (k := Emit.afterLabel (Emit.startCounts {})) rfl rfl
  have hexit : Emit.exitLabel ["fn_main"] 0 (Emit.startCounts {}) = exitName := by decide
  have hat : (Emit.functionAt {} l ["fn_main"] 0).run (Emit.startCounts {})
      = (.ok (functionCode f s'), k') := by
    rw [Emit.run_functionAt hscope hfun, hexit]
    exact hcode
  refine ⟨k', ?_⟩
  rw [Emit.run_program, hentries, hothers, htags, Emit.run_functionsAt_cons hat]
  simp only [Emit.functionsAt]
  show (Except.ok (Emit.wrapped {} ([] ++ functionCode f s' ++ []) []), k') = _
  rw [List.nil_append, List.append_nil]
  rfl

end

end MoonBackend.Integer
