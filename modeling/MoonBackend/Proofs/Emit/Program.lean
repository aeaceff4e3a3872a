import MoonBackend.Emit.Program
import MoonBackend.Proofs.Emit.Monad

/-!
# The emission of a whole program

A program is emitted function by function: first the entry functions, then the others, each in a
context of its own and with the counts that the one before left.
-/

namespace MoonBackend.Emit

variable {α β : Type}

theorem run_bind (x : ExceptT Fault (StateM Counts) α) (f : α → ExceptT Fault (StateM Counts) β)
    (k : Counts) :
    (x >>= f).run k = match x.run k with
      | (.ok a, k') => (f a).run k'
      | (.error e, k') => (.error e, k') := by
  show (ExceptT.bind x f) k = _
  simp only [ExceptT.bind, ExceptT.mk]
  show (match x k with | (r, k') => (ExceptT.bindCont f r) k') = _
  show _ = match x k with
      | (.ok a, k') => (f a).run k'
      | (.error e, k') => (.error e, k')
  generalize x k = r
  obtain ⟨_ | a, k'⟩ := r
  · rfl
  · rfl

theorem run_bind_ok {x : ExceptT Fault (StateM Counts) α} {f : α → ExceptT Fault (StateM Counts) β}
    {k k' : Counts} {a : α} (h : x.run k = (.ok a, k')) : (x >>= f).run k = (f a).run k' := by
  rw [run_bind, h]

def contextAt (config : Config) (layout : Layout) (tags : List String) (i : Nat) (f : Function)
    (scope : Scope) (exit : String) : Context :=
  ⟨config, layout, tags, i, f.toSignature, scope, exit⟩

def afterLabel (k : Counts) : Counts := { k with labels := k.labels + 1 }

def exitLabel (tags : List String) (i : Nat) (k : Counts) : String :=
  "end_" ++ untagged (tags.getD i "") ++ Text.decimal (k.labels + 1 : Nat)

theorem run_functionAt {config : Config} {layout : Layout} {tags : List String} {i : Nat}
    {f : Function} {scope : Scope} (hs : layout.table.functions[i]? = some scope)
    (hf : layout.table.program.functions[i]? = some f) (k : Counts) :
    (functionAt config layout tags i).run k
      = eval (function (tags.getD i "") f)
          (contextAt config layout tags i f scope (exitLabel tags i k)) (afterLabel k) := by
  unfold functionAt
  rw [hs, hf]
  simp only
  have hlabel : (ReaderT.run (freshLabel ("end_" ++ untagged (tags.getD i "")))
      ⟨config, layout, tags, i, f.toSignature, scope, ""⟩).run k
      = (.ok (exitLabel tags i k), afterLabel k) :=
    eval_freshLabel ("end_" ++ untagged (tags.getD i "")) (contextAt config layout tags i f scope "")
      k
  rw [run_bind_ok hlabel]
  rfl

theorem run_functionsAt_cons {config : Config} {layout : Layout} {tags : List String}
    {before code : Code} {i : Nat} {is : List Nat} {k k' : Counts}
    (h : (functionAt config layout tags i).run k = (.ok code, k')) :
    (functionsAt config layout tags before (i :: is)).run k
      = match (functionsAt config layout tags before is).run k' with
        | (.ok rest, k'') => (.ok (before ++ code ++ rest), k'')
        | (.error e, k'') => (.error e, k'') := by
  rw [functionsAt, run_bind_ok h, run_bind]
  generalize (functionsAt config layout tags before is).run k' = r
  obtain ⟨_ | rest, k''⟩ := r
  · rfl
  · rfl

def wrapped (config : Config) (entries others : Code) : Code :=
  (if config.emit.comments then [.comment "generated by moonc"] else [])
    ++ Code.plain [.entry, .named .addi ⟨config.registers.stackPointer⟩ ⟨config.registers.zero⟩
        config.runtime.topOfMemory]
    ++ entries ++ Code.plain [.bare .hlt] ++ others ++ [.blank]
    ++ (if config.emit.comments then [.comment "data"] else [])
    ++ [.labeled config.runtime.bufferLabel (.reserve config.runtime.bufferSize)]

def entryPositions (config : Config) (layout : Layout) : List Nat :=
  (List.range layout.table.functions.length).filter fun i => isEntryAt config layout i

def otherPositions (config : Config) (layout : Layout) : List Nat :=
  (List.range layout.table.functions.length).filter fun i => !isEntryAt config layout i

def startCounts (config : Config) : Counts := { pool := .ofNumbers config.registers.general }

theorem run_program (config : Config) (layout : Layout) (k : Counts) :
    (program config layout).run k
      = match (functionsAt config layout (tags layout.table.program) []
            (entryPositions config layout)).run k with
        | (.error e, k') => (.error e, k')
        | (.ok entries, k') =>
          match (functionsAt config layout (tags layout.table.program) [.blank]
              (otherPositions config layout)).run k' with
          | (.error e, k'') => (.error e, k'')
          | (.ok others, k'') => (.ok (wrapped config entries others), k'') := by
  unfold program
  simp only
  rw [run_bind]
  unfold entryPositions otherPositions
  generalize (functionsAt config layout (tags layout.table.program) [] _).run k = r
  obtain ⟨_ | entries, k'⟩ := r
  · rfl
  · simp only
    rw [run_bind]
    generalize (functionsAt config layout (tags layout.table.program) [.blank] _).run k' = r
    obtain ⟨_ | others, k''⟩ := r
    · rfl
    · rfl

theorem run_eq_ok {config : Config} {layout : Layout} {code : Code} :
    (run config layout).1 = .ok code ↔
      ∃ k, (program config layout).run (startCounts config) = (.ok code, k) := by
  unfold run
  rw [show ({ pool := .ofNumbers config.registers.general } : Counts) = startCounts config from rfl]
  generalize (program config layout).run (startCounts config) = r
  obtain ⟨_ | c, k⟩ := r
  · constructor
    · intro h
      cases h
    · rintro ⟨k', h⟩
      cases h
  · constructor
    · intro h
      cases h
      exact ⟨k, rfl⟩
    · rintro ⟨k', h⟩
      cases h
      rfl

end MoonBackend.Emit
