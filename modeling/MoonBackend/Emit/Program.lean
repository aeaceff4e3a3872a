import MoonBackend.Emit.Statement

/-!
# Code for a program

The entry function stands between the set-up of the stack pointer and the halt; all other functions
follow, and then the buffer of the library. Section 4.3 of the specification.
-/

namespace MoonBackend

open Text

namespace Emit

open Code

/-- The entry label of a function before overloads are told apart. -/
def tagStem (f : Signature) : String :=
  if f.isMember then "fn_" ++ f.className ++ "_" ++ f.name else "fn_" ++ f.name

/-- The entry labels of functions of which those with the stems `seen` came before. The second and
later functions of one stem are numbered. -/
def tagsAfter (seen : List String) : List Signature → List String
  | [] => []
  | f :: fs =>
    let stem := tagStem f
    let n := seen.count stem + 1
    let tag := if n = 1 then stem else stem ++ "_" ++ decimal n
    tag :: tagsAfter (stem :: seen) fs

def tags (p : Program) : List String := tagsAfter [] (p.functions.map Function.toSignature)

def reportFunction (scope : Scope) (tag : String) : Emit Unit := do
  let size ← frameSize
  modify fun s => { s with log := s.log ++ [.debug "codegen" "function"
    [("function", .text scope.name), ("tag", .text tag), ("frame", .number size.toInt)]] }

/-- The code of the function under way: where the return address is saved, the body, the result
and the way back. The entry function has no way back. -/
def function (tag : String) (f : Function) : Emit Code := do
  let c ← read
  let sp ← stackPointer
  let lk ← link
  let isEntry := f.isFree c.config.emit.entryFunction
  let note ← comment f.toSignature.text
  let start ←
    if isEntry then do
      let size ← frameSize
      comment ("frame " ++ decimal size.toInt)
    else do
      let off ← ownSlot .returnAddress
      pure [.labeled tag (.sw off sp lk)]
  enterBlock
  let body ← stmts [] 0 f.body
  let finish ←
    if isEntry then pure []
    else do
      let result ←
        if f.returns.base != .void then do
          let off ← ownSlot .returnValue
          pure (plain [.imm .addi (← resultRegister) sp off])
        else pure []
      let off ← ownSlot .returnAddress
      pure (result ++ plain [.lw lk off sp, .reg1 .jr lk])
  reportFunction c.scope tag
  return note ++ start ++ body ++ [mark c.exit] ++ finish

/-- The tag without the mark that all tags start with. -/
def untagged (tag : String) : String := String.ofList (tag.toList.drop 3)

def functionAt (config : Config) (layout : Layout) (tags : List String) (i : Nat) :
    ExceptT Fault (StateM Emit.Counts) Code :=
  match layout.table.functions[i]?, layout.table.program.functions[i]? with
  | some scope, some f => do
    let tag := tags.getD i ""
    let context (exit : String) : Emit.Context :=
      ⟨config, layout, tags, i, f.toSignature, scope, exit⟩
    let exit ← (freshLabel ("end_" ++ untagged tag)).run (context "")
    (function tag f).run (context exit)
  | _, _ => return []

def isEntryAt (config : Config) (layout : Layout) (i : Nat) : Bool :=
  (layout.table.program.functions[i]?).any (·.isFree config.emit.entryFunction)

def functionsAt (config : Config) (layout : Layout) (tags : List String) (before : Code) :
    List Nat → ExceptT Fault (StateM Emit.Counts) Code
  | [] => return []
  | i :: is => do
    let code ← functionAt config layout tags i
    let rest ← functionsAt config layout tags before is
    return before ++ code ++ rest

/-- The code of a program whose layout is resolved. -/
def program (config : Config) (layout : Layout) : ExceptT Fault (StateM Emit.Counts) Code := do
  let sp : Register := ⟨config.registers.stackPointer⟩
  let z : Register := ⟨config.registers.zero⟩
  let note (s : String) : Code := if config.emit.comments then [.comment s] else []
  let tags := tags layout.table.program
  let positions := List.range layout.table.functions.length
  let entries ←
    functionsAt config layout tags [] (positions.filter fun i => isEntryAt config layout i)
  let others ←
    functionsAt config layout tags [.blank] (positions.filter fun i => !isEntryAt config layout i)
  return note "generated by moonc"
    ++ plain [.entry, .named .addi sp z config.runtime.topOfMemory]
    ++ entries ++ plain [.bare .hlt] ++ others ++ [.blank] ++ note "data"
    ++ [.labeled config.runtime.bufferLabel (.reserve config.runtime.bufferSize)]

/-- The code of a program with the log of its emission, which tells of the functions that were
finished even when a later one faults. -/
def run (config : Config) (layout : Layout) : Except Fault Code × List LogRecord :=
  match (program config layout).run { pool := .ofNumbers config.registers.general } with
  | (.error f, s) => (.error f, s.log)
  | (.ok code, s) =>
    (.ok code, s.log ++ [.debug "codegen" "emitted program"
      [("lines", .number (code.text.toList.count '\n')), ("labels", .number s.labels),
        ("blocks", .number s.blocks)]])

end Emit

end MoonBackend
