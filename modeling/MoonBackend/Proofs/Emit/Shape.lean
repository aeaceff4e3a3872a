import MoonBackend.Proofs.Emit.Pool
import MoonBackend.Proofs.Emit.Steps
import MoonBackend.Proofs.Float.Sum

/-!
# The shape of emitted code

One relation for each step of emission says which code it can answer, with the slots and offsets
that it looked up and the scratch registers that it was given. Facts about emitted code are then
inductions over these relations and need not go through the steps again.
-/

namespace MoonBackend.Emit

open Code

variable {α β : Type}

/-! ### Looking things up -/

/-- The step finds the answer and leaves the counts alone. -/
def Finds (c : Context) (x : Emit α) (a : α) : Prop := ∀ s, eval x c s = (.ok a, s)

namespace Context

def sp (c : Context) : Register := ⟨c.config.registers.stackPointer⟩

def nought (c : Context) : Register := ⟨c.config.registers.zero⟩

def result (c : Context) : Register := ⟨c.config.registers.returnValue⟩

def link (c : Context) : Register := ⟨c.config.registers.link⟩

def word (c : Context) : Int64 := c.config.sizes.word

def general (c : Context) : List Register := c.config.registers.general.map Register.mk

def note (c : Context) (text : String) : Code :=
  if c.config.emit.comments then [.comment text] else []

def slot (c : Context) (off : Int64) : Location := ⟨c.sp, off, false⟩

end Context

/-! ### Moves -/

inductive Constant (c : Context) (r : Register) (v : Int64) : Code → Prop
  | short : -32768 ≤ v → v < 32768 → Constant c r v (plain [.imm .addi r c.nought v])
  | long : -2147483648 ≤ v → v < 2147483648 →
    Constant c r v
      (plain [.imm .addi r c.nought (v >>> 16), .sl r 16, .imm .ori r r (v &&& 65535)])

inductive Loads (c : Context) (r : Register) : Place → Int64 → Code → Prop
  | immediate {v : Int64} {code : Code} : Constant c r v code → Loads c r (.immediate v) 0 code
  | slot (off i : Int64) : Loads c r (.slot off) i (plain [.lw r (off - i * c.word) c.sp])

def copyCode (word : Int64) (r : Register) (dst src : Location) (n : Int64) : Code :=
  plain <| (List.range n.toNatClampNeg).flatMap fun i =>
    [Item.lw r (src.off - Int64.ofNat i * word) src.base,
      .sw (dst.off - Int64.ofNat i * word) dst.base r]

inductive Stores (c : Context) (r : Register) (dst : Location) : Place → Int64 → Code → Prop
  | slot (off n : Int64) :
    Stores c r dst (.slot off) n (copyCode c.word r dst (c.slot off) n)
  | immediate {v : Int64} {code : Code} : Constant c r v code →
    Stores c r dst (.immediate v) 1 (code ++ plain [.sw dst.off dst.base r])

/-! ### Locations -/

/-- Adds up the indices after the first, while the registers `held` are in use. -/
inductive Accumulates (c : Context) (held : List Register) (idx : Register) :
    List (Int64 × Path × Expr) → Code → Prop
  | nil : Accumulates c held idx [] []
  | cons {extent : Int64} {path : Path} {e : Expr} {p : Place} {r : Register} {code more : Code}
    {rest : List (Int64 × Path × Expr)} :
    r ∈ c.general → r ∉ idx :: held → Finds c (placeOf path e) p → Loads c r p 0 code →
    Accumulates c held idx rest more →
    Accumulates c held idx ((extent, path, e) :: rest)
      (plain [.imm .muli idx idx extent] ++ (code ++ plain [.reg3 .add idx idx r]) ++ more)

inductive StartsIndex (c : Context) (path : Path) (idx : Register) : List Expr → Code → Prop
  | nil : StartsIndex c path idx [] []
  | cons {e : Expr} {es : List Expr} {p : Place} {code : Code} : Finds c (placeOf (1 :: path) e) p →
    Loads c idx p 0 code → StartsIndex c path idx (e :: es) code

/-- The indices after the first, each with the extent of its dimension. -/
def laterIndices (path : Path) (dims : List Int64) (indices : List Expr) :
    List (Int64 × Path × Expr) :=
  ((List.range indices.length).zip (dims.zip indices) |>.drop 1).map
    fun (i, extent, e) => (extent, (i + 1) :: path, e)

inductive Locates (c : Context) : Path → Expr → Code → Location → Prop
  | variable {path : Path} {name : String} {type : Ty} {l : Located} {off : Int64} :
    c.layout.table.resolveName c.index name = some (l, false) → l.entry.getOffset = .ok off →
    Locates c path (.var name type) [] (c.slot off)
  | member {path : Path} {name : String} {type : Ty} {l l' : Located} {off shift : Int64}
    {r : Register} :
    c.layout.table.resolveName c.index name = some (l, true) → c.head.isMember = true →
    Finds c (ownSlot .reference) off → r ∈ c.general →
    c.layout.table.memberOffset c.head.className name = .ok (shift, l') →
    Locates c path (.var name type) (plain [.lw r off c.sp]) ⟨r, 0 + shift, true⟩
  | dot {path : Path} {left : Expr} {name : String} {type : Ty} {code : Code} {l : Location}
    {shift : Int64} {l' : Located} :
    Locates c (0 :: path) left code l →
    c.layout.table.memberOffset left.type.base.className name = .ok (shift, l') →
    Locates c path (.dot left name type) code { l with off := l.off + shift }
  | index {path : Path} {base : Expr} {indices : List Expr} {type : Ty} {size : Option Int64}
    {before first rest : Code} {b : Location} {idx : Register} :
    c.layout.sizeOf type = .ok size → Locates c (0 :: path) base before b →
    idx ∈ c.general → idx ∉ b.regs → StartsIndex c path idx indices first →
    Accumulates c b.regs idx (laterIndices path base.type.dims indices) rest →
    Locates c path (.index base indices type)
      (before ++ (first ++ rest
        ++ plain [.imm .muli idx idx (wordOfSize size), .reg3 .sub idx b.base idx]))
      ⟨idx, b.off, true⟩
  | value {path : Path} {e : Expr} {p : Place} : (∀ name type, e ≠ .var name type) →
    (∀ left name type, e ≠ .dot left name type) →
    (∀ base indices type, e ≠ .index base indices type) →
    Finds c (placeOf path e) p → Locates c path e [] (c.slot p.offset)

/-- Copies the value at the location of an expression into its slot. -/
inductive Materializes (c : Context) (path : Path) (e : Expr) : Code → Prop
  | intro {code : Code} {src : Location} {off n : Int64} {r : Register} : Locates c path e code src →
    Finds c (temporary path e) off → Finds c (words e.type) n → r ∈ c.general → r ∉ src.regs →
    Materializes c path e (code ++ copyCode c.word r (c.slot off) src n)

/-! ### Operators -/

/-- The instructions that turn a loaded integer into the value of a unary operator. -/
def unaryCode (r zero : Register) : UnaryOp → Code
  | .plus => []
  | .minus => plain [.reg3 .sub r zero r]
  | .not => plain [.reg3 .ceq r r zero]

inductive Unary (c : Context) (path : Path) (e : Expr) (op : UnaryOp) (t : Ty) (src : Place) :
    Code → Prop
  | float {off : Int64} {r : Register} {mantissa exponent : Code} : t.isFloat = true → op ≠ .not →
    Finds c (temporary path e) off → r ∈ c.general → Loads c r src 0 mantissa →
    Loads c r src 1 exponent →
    Unary c path e op t src
      (mantissa ++ (if op = .minus then plain [.reg3 .sub r c.nought r] else [])
        ++ plain [.sw off c.sp r] ++ exponent ++ plain [.sw (off - c.word) c.sp r])
  | integer {off : Int64} {r : Register} {value : Code} : t.isInteger = true →
    Finds c (temporary path e) off → r ∈ c.general → Loads c r src 0 value →
    Unary c path e op t src (value ++ unaryCode r c.nought op ++ plain [.sw off c.sp r])

inductive Binary (c : Context) (path : Path) (e : Expr) (op : BinaryOp) (t : Ty) (l r : Place) :
    Code → Prop
  | float {dst : Int64} {f : FloatRegisters} {labels : SumLabels}
    {leftMantissa leftExponent rightMantissa rightExponent : Code} : t.base = .float →
    op = .add ∨ op = .sub → Finds c (temporary path e) dst →
    (∀ x ∈ [f.bigMantissa, f.bigExponent, f.smallMantissa, f.smallExponent, f.bigWidth,
      f.smallWidth, f.absolute, f.scratch], x ∈ c.general) →
    Loads c f.smallMantissa l 0 leftMantissa → Loads c f.smallExponent l 1 leftExponent →
    Loads c f.bigMantissa r 0 rightMantissa → Loads c f.bigExponent r 1 rightExponent →
    Binary c path e op t l r
      (c.note ("float " ++ e.text) ++ (leftMantissa ++ leftExponent ++ rightMantissa ++ rightExponent
        ++ (if op = .sub then plain [.reg3 .sub f.bigMantissa c.nought f.bigMantissa] else [])
        ++ sumCode f labels dst c.word c.sp c.nought))
  | integer {off : Int64} {a b : Register} {left right : Code} : t.isInteger = true →
    Finds c (temporary path e) off → a ∈ c.general → b ∈ c.general → a ≠ b →
    Loads c a l 0 left → Loads c b r 0 right →
    Binary c path e op t l r
      (left ++ right ++ integerOperation a b c.nought op ++ plain [.sw off c.sp a])

/-! ### Calls -/

inductive Addresses (c : Context) (l : Location) : Code → Register → Prop
  | held : l.held = true →
    Addresses c l (if l.off == 0 then [] else plain [.imm .addi l.base l.base l.off]) l.base
  | free {r : Register} : l.held = false → r ∈ c.general →
    Addresses c l (plain [.imm .addi r l.base l.off]) r

inductive SavesReceiver (c : Context) (path : Path) (recv : Expr) : Code → Prop
  | none : recv.isMissing = true → SavesReceiver c path recv []
  | some {off : Int64} {code move : Code} {l : Location} {r : Register} : recv.isMissing = false →
    Finds c (slotOffset (.expr path recv) .reference) off → Locates c path recv code l →
    Addresses c l move r → SavesReceiver c path recv (code ++ move ++ plain [.sw off c.sp r])

inductive PassesArguments (c : Context) (size : Int64) : List (Entry × Place) → Code → Prop
  | nil : PassesArguments c size [] []
  | cons {param : Entry} {arg : Place} {off n : Int64} {r : Register} {code more : Code}
    {rest : List (Entry × Place)} : param.getOffset = .ok off → Finds c (words param.type) n →
    r ∈ c.general → Stores c r (c.slot (off - size)) arg n code → PassesArguments c size rest more →
    PassesArguments c size ((param, arg) :: rest) (code ++ more)

/-- Loads the address that the called function sees as its receiver. -/
inductive PassesReceiver (c : Context) (path : Path) (e recv : Expr) (isNew : Bool)
    (callee : Signature) (r : Register) : Code → Prop
  | new {off : Int64} : isNew = true → Finds c (temporary path e) off →
    PassesReceiver c path e recv isNew callee r (plain [.imm .addi r c.sp off])
  | on {off shift : Int64} : isNew = false → recv.isMissing = false →
    Finds c (slotOffset (.expr (0 :: path) recv) .reference) off →
    c.layout.table.baseOffset recv.type.base.className callee.className = .ok shift →
    PassesReceiver c path e recv isNew callee r (plain [.lw r off c.sp] ++ adjust r shift)
  | own {off shift : Int64} : isNew = false → recv.isMissing = true → c.head.isMember = true →
    Finds c (ownSlot .reference) off →
    c.layout.table.baseOffset c.head.className callee.className = .ok shift →
    PassesReceiver c path e recv isNew callee r (plain [.lw r off c.sp] ++ adjust r shift)

inductive PlacesReceiver (c : Context) (path : Path) (e recv : Expr) (isNew : Bool) (target : Nat)
    (callee : Signature) (scope : Scope) (size : Int64) : Code → Prop
  | free : callee.isMember = false →
    PlacesReceiver c path e recv isNew target callee scope size []
  | member {slot : Entry} {off : Int64} {r : Register} {code : Code} : callee.isMember = true →
    scope.requireSlot (.function target callee) .reference = .ok slot → slot.getOffset = .ok off →
    r ∈ c.general → PassesReceiver c path e recv isNew callee r code →
    PlacesReceiver c path e recv isNew target callee scope size
      (code ++ plain [.sw (off - size) c.sp r])

inductive FetchesResult (c : Context) (path : Path) (e : Expr) (isNew : Bool) (callee : Signature) :
    Code → Prop
  | none : isNew = true ∨ callee.returns.base = .void → FetchesResult c path e isNew callee []
  | some {off n : Int64} {r : Register} : isNew = false → callee.returns.base ≠ .void →
    Finds c (temporary path e) off → Finds c (words callee.returns) n → r ∈ c.general →
    FetchesResult c path e isNew callee (copyCode c.word r (c.slot off) ⟨c.result, 0, false⟩ n)

/-- The jump of a call, between the moves of the stack pointer to the frame of the called function
and back. -/
def jumpCode (c : Context) (size : Int64) (target : Nat) : Code :=
  plain [.imm .addi c.sp c.sp (-size), .jl c.link (c.tags.getD target ""), .imm .addi c.sp c.sp size]

/-- Calls a function whose operands were emitted before. -/
inductive Calls (c : Context) (path : Path) (e recv : Expr) (isNew : Bool) (target : Nat)
    (args : List Place) : Code → Prop
  | intro {scope : Scope} {callee : Function} {size : Int64} {saved passed receiver result : Code} :
    c.layout.table.functions[target]? = some scope →
    c.layout.table.program.functions[target]? = some callee →
    c.scope.frameSize = .ok size → scope.params.length = args.length →
    SavesReceiver c (0 :: path) recv saved →
    PassesArguments c size (scope.params.zip args) passed →
    PlacesReceiver c path e recv isNew target callee.toSignature scope size receiver →
    FetchesResult c path e isNew callee.toSignature result →
    Calls c path e recv isNew target args
      (c.note ("call " ++ e.text) ++ saved ++ passed ++ receiver ++ jumpCode c size target ++ result)

/-! ### Expressions -/

mutual

/-- Computes the value of an expression, or the values that its location needs. -/
inductive Evaluates (c : Context) : Use → Path → Expr → Code → Prop
  | int {use : Use} {path : Path} (v : Int64) : Evaluates c use path (.int v) []
  | float {use : Use} {path : Path} {text : String} {v : Decimal} {off : Int64} {r : Register}
    {mantissa exponent : Code} : Decimal.parse text = .ok v →
    Finds c (temporary path (.float text)) off → r ∈ c.general → Constant c r v.mantissa mantissa →
    Constant c r v.exponent exponent →
    Evaluates c use path (.float text)
      (mantissa ++ plain [.sw off c.sp r] ++ exponent ++ plain [.sw (off - c.word) c.sp r])
  | variable {path : Path} (name : String) (type : Ty) :
    Evaluates c .location path (.var name type) []
  | own {path : Path} {name : String} {type : Ty} {l : Located} :
    c.layout.table.resolveName c.index name = some (l, false) →
    Evaluates c .value path (.var name type) []
  | member {path : Path} {name : String} {type : Ty} {l : Located} {code : Code} :
    c.layout.table.resolveName c.index name = some (l, true) →
    Materializes c path (.var name type) code → Evaluates c .value path (.var name type) code
  | dot {path : Path} {left : Expr} {name : String} {type : Ty} {code : Code} :
    Evaluates c .location (0 :: path) left code →
    Evaluates c .location path (.dot left name type) code
  | dotValue {path : Path} {left : Expr} {name : String} {type : Ty} {code move : Code} :
    Evaluates c .location (0 :: path) left code → Materializes c path (.dot left name type) move →
    Evaluates c .value path (.dot left name type) (code ++ move)
  | index {path : Path} {base : Expr} {indices : List Expr} {type : Ty} {code more : Code}
    {places : List Place} : Evaluates c .location (0 :: path) base code →
    EvaluatesAll c path 1 indices more places →
    Evaluates c .location path (.index base indices type) (code ++ more)
  | indexValue {path : Path} {base : Expr} {indices : List Expr} {type : Ty} {code more move : Code}
    {places : List Place} : Evaluates c .location (0 :: path) base code →
    EvaluatesAll c path 1 indices more places →
    Materializes c path (.index base indices type) move →
    Evaluates c .value path (.index base indices type) (code ++ more ++ move)
  | unary {use : Use} {path : Path} {op : UnaryOp} {operand : Expr} {type : Ty} {src : Place}
    {code more : Code} : Evaluates c .value (0 :: path) operand code →
    Finds c (placeOf (0 :: path) operand) src →
    Unary c path (.unary op operand type) op operand.type src more →
    Evaluates c use path (.unary op operand type) (code ++ more)
  | binary {use : Use} {path : Path} {op : BinaryOp} {left right : Expr} {type : Ty} {l r : Place}
    {first second more : Code} : Evaluates c .value (0 :: path) left first →
    Finds c (placeOf (0 :: path) left) l → Evaluates c .value (1 :: path) right second →
    Finds c (placeOf (1 :: path) right) r →
    Binary c path (.binary op left right type) op left.type l r more →
    Evaluates c use path (.binary op left right type) (first ++ second ++ more)
  | call {use : Use} {path : Path} {recv : Expr} {name : String} {args : List Expr} {isNew : Bool}
    {type : Ty} {target : Nat} {code sequence : Code} {places : List Place} :
    recv.isMissing = true → EvaluatesAll c path 1 args code places →
    Calls c path (.call recv name args isNew type (some target)) recv isNew target places sequence →
    Evaluates c use path (.call recv name args isNew type (some target)) (code ++ sequence)
  | callOn {use : Use} {path : Path} {recv : Expr} {name : String} {args : List Expr}
    {isNew : Bool} {type : Ty} {target : Nat} {before code sequence : Code} {places : List Place} :
    recv.isMissing = false → Evaluates c .location (0 :: path) recv before →
    EvaluatesAll c path 1 args code places →
    Calls c path (.call recv name args isNew type (some target)) recv isNew target places sequence →
    Evaluates c use path (.call recv name args isNew type (some target))
      (before ++ code ++ sequence)

inductive EvaluatesAll (c : Context) : Path → Nat → List Expr → Code → List Place → Prop
  | nil {path : Path} {i : Nat} : EvaluatesAll c path i [] [] []
  | cons {path : Path} {i : Nat} {e : Expr} {es : List Expr} {code more : Code} {p : Place}
    {places : List Place} : Evaluates c .value (i :: path) e code →
    Finds c (placeOf (i :: path) e) p → EvaluatesAll c path (i + 1) es more places →
    EvaluatesAll c path i (e :: es) (code ++ more) (p :: places)

end

/-! ### Statements -/

inductive Tests (c : Context) (path : Path) (cond : Expr) (label : String) : Code → Prop
  | intro {code load : Code} {p : Place} {r : Register} : Evaluates c .value path cond code →
    Finds c (placeOf path cond) p → r ∈ c.general → Loads c r p 0 load →
    Tests c path cond label (code ++ (load ++ plain [.bz r label]))

def printCode (c : Context) (size : Int64) (r : Register) : Code :=
  plain
    [.imm .addi c.sp c.sp (-size), .sw c.config.runtime.valueParam c.sp r,
      .named .addi r c.nought c.config.runtime.bufferLabel,
      .sw c.config.runtime.bufferParam c.sp r, .jl c.link c.config.runtime.intToString,
      .sw c.config.runtime.valueParam c.sp c.result, .jl c.link c.config.runtime.printString,
      .imm .addi c.sp c.sp size]

def readCode (c : Context) (size : Int64) (r : Register) : Code :=
  plain
    [.imm .addi c.sp c.sp (-size), .named .addi r c.nought c.config.runtime.bufferLabel,
      .sw c.config.runtime.valueParam c.sp r, .jl c.link c.config.runtime.readString,
      .named .addi r c.nought c.config.runtime.bufferLabel,
      .sw c.config.runtime.valueParam c.sp r, .jl c.link c.config.runtime.stringToInt,
      .imm .addi c.sp c.sp size]

inductive PrintsWord (c : Context) (p : Place) (i : Int64) : Code → Prop
  | intro {size : Int64} {r : Register} {value : Code} : c.scope.frameSize = .ok size →
    r ∈ c.general → Loads c r p i value →
    PrintsWord c p i (value ++ printCode c size r)

inductive PrintsBytes (c : Context) (bytes : List UInt8) : Code → Prop
  | intro {r : Register} : r ∈ c.general →
    PrintsBytes c bytes (plain <| bytes.flatMap fun b =>
      [.imm .addi r c.nought (Int64.ofNat b.toNat), .reg1 .putc r])

inductive PrintsValue (c : Context) (t : Ty) (p : Place) : Code → Prop
  | integer {code : Code} : t.isInteger = true → PrintsWord c p 0 code → PrintsValue c t p code
  | float {mantissa separator exponent : Code} : t.isFloat = true → PrintsWord c p 0 mantissa →
    PrintsBytes c c.config.emit.floatSeparator.toUTF8.toList separator → PrintsWord c p 1 exponent →
    PrintsValue c t p (mantissa ++ separator ++ exponent)

inductive EndsLine (c : Context) : Code → Prop
  | none : EndsLine c []
  | some {code : Code} : PrintsBytes c [10] code → EndsLine c code

mutual

inductive Runs (c : Context) : Path → Stmt → Code → Prop
  | declare {path : Path} {d : VarDecl} {init : Expr} : init.isMissing = true →
    Runs c path (.declare d init) []
  | define {path : Path} {d : VarDecl} {init : Expr} {code move : Code} {p : Place} {e : Entry}
    {off n : Int64} {r : Register} : init.isMissing = false →
    Evaluates c .value (0 :: path) init code → Finds c (placeOf (0 :: path) init) p →
    c.scope.lookup d.name = some e → e.getOffset = .ok off → Finds c (words e.type) n →
    r ∈ c.general → Stores c r (c.slot off) p n move →
    Runs c path (.declare d init) (c.note (d.name ++ " := " ++ init.text) ++ code ++ move)
  | assign {path : Path} {target source : Expr} {before code locating move : Code} {p : Place}
    {dst : Location} {n : Int64} {r : Register} : Evaluates c .location (0 :: path) target before →
    Evaluates c .value (1 :: path) source code → Finds c (placeOf (1 :: path) source) p →
    Locates c (0 :: path) target locating dst → Finds c (words target.type) n → r ∈ c.general →
    r ∉ dst.regs → Stores c r dst p n move →
    Runs c path (.assign target source)
      (c.note (target.text ++ " = " ++ source.text) ++ before ++ code ++ locating ++ move)
  | when {path : Path} {cond : Expr} {body : List Stmt} {test code : Code}
    {elseLabel endLabel : String} : Tests c (0 :: path) cond elseLabel test →
    RunsAll c (1 :: path) 0 body code →
    Runs c path (.when cond body)
      (choice (c.note ("if " ++ cond.text) ++ test) code [] elseLabel endLabel)
  | branch {path : Path} {cond : Expr} {yes no : List Stmt} {test yesCode noCode : Code}
    {elseLabel endLabel : String} : Tests c (0 :: path) cond elseLabel test →
    RunsAll c (1 :: path) 0 yes yesCode → RunsAll c (2 :: path) 0 no noCode →
    Runs c path (.branch cond yes no)
      (choice (c.note ("if " ++ cond.text) ++ test) yesCode noCode elseLabel endLabel)
  | loop {path : Path} {cond : Expr} {body : List Stmt} {test code : Code} {top stop : String} :
    Tests c (0 :: path) cond stop test → RunsAll c (1 :: path) 0 body code →
    Runs c path (.loop cond body)
      (c.note ("while " ++ cond.text) ++ [mark top] ++ test ++ code ++ plain [.j top] ++ [mark stop])
  | write {path : Path} {e : Expr} {code printed newline : Code} {p : Place} :
    Evaluates c .value (0 :: path) e code → Finds c (placeOf (0 :: path) e) p →
    PrintsValue c e.type p printed → EndsLine c newline →
    Runs c path (.write e)
      (c.note ("write(" ++ e.text ++ ")") ++ (code ++ printed ++ newline))
  | read {path : Path} {target : Expr} {before code : Code} {dst : Location} {size : Int64}
    {r : Register} : target.type.isInteger = true →
    Evaluates c .location (0 :: path) target before → c.scope.frameSize = .ok size →
    r ∈ c.general → Locates c (0 :: path) target code dst →
    Runs c path (.read target)
      (c.note ("read(" ++ target.text ++ ")")
        ++ (before ++ readCode c size r ++ code ++ plain [.sw dst.off dst.base c.result]))
  | leave {path : Path} {result : Expr} : result.isMissing = true →
    Runs c path (.ret result) (plain [.j c.exit])
  | ret {path : Path} {result : Expr} {code move : Code} {p : Place} {off n : Int64}
    {r : Register} : result.isMissing = false → c.head.returns.base ≠ .void →
    Evaluates c .value (0 :: path) result code → Finds c (placeOf (0 :: path) result) p →
    Finds c (ownSlot .returnValue) off → Finds c (words c.head.returns) n → r ∈ c.general →
    Stores c r (c.slot off) p n move →
    Runs c path (.ret result)
      (c.note ("return " ++ result.text) ++ code ++ move ++ plain [.j c.exit])
  | call {path : Path} {e : Expr} {code : Code} : Evaluates c .value (0 :: path) e code →
    Runs c path (.call e) code

inductive RunsAll (c : Context) : Path → Nat → List Stmt → Code → Prop
  | nil {path : Path} {i : Nat} : RunsAll c path i [] []
  | cons {path : Path} {i : Nat} {st : Stmt} {sts : List Stmt} {code more : Code} :
    Runs c (i :: path) st code → RunsAll c path (i + 1) sts more →
    RunsAll c path i (st :: sts) (code ++ more)

end

/-! ### Functions -/

inductive PointsToResult (c : Context) (returns : Ty) : Code → Prop
  | none : returns.base = .void → PointsToResult c returns []
  | some {off : Int64} : returns.base ≠ .void → Finds c (ownSlot .returnValue) off →
    PointsToResult c returns (plain [.imm .addi c.result c.sp off])

/-- The code of a function: an entry function falls through to what follows it, every other one is
entered at its tag and goes back to its caller. -/
inductive Function (c : Context) (tag : String) (f : MoonBackend.Function) : Code → Prop
  | entry {size : Int64} {body : Code} : f.isFree c.config.emit.entryFunction = true →
    c.scope.frameSize = .ok size → RunsAll c [] 0 f.body body →
    Function c tag f (c.note f.toSignature.text
      ++ c.note ("frame " ++ Text.decimal size.toInt) ++ body ++ [mark c.exit])
  | routine {off : Int64} {body result : Code} : f.isFree c.config.emit.entryFunction = false →
    Finds c (ownSlot .returnAddress) off → RunsAll c [] 0 f.body body →
    PointsToResult c f.returns result →
    Function c tag f (c.note f.toSignature.text
      ++ [.labeled tag (.sw off c.sp c.link)] ++ body ++ [mark c.exit]
      ++ (result ++ plain [.lw c.link off c.sp, .reg1 .jr c.link]))

end MoonBackend.Emit
