import MoonBackend.Decimal
import MoonBackend.Tree.Ty
import MoonBackend.Tree.Operator

/-!
# Faults

The back end takes programs that passed validation, so whatever goes wrong inside it is a fault: a
broken expectation of one of its components. A fault names its cause; the wording is in
`Fault.detail`. Section 7 of the specification.
-/

namespace MoonBackend

open Text

/-- A register of the machine, by its number. -/
structure Register where
  number : Int64
  deriving DecidableEq

def Register.text (r : Register) : String := "r" ++ decimal r.number.toInt

inductive Component where
  | layout
  | registers
  | float
  | emit
  | symbols
  deriving DecidableEq

def Component.text : Component → String
  | .layout => "layout"
  | .registers => "registers"
  | .float => "float"
  | .emit => "emit"
  | .symbols => "symbols"

/-- A broken expectation. Entries, nodes, statements and calls are given by their texts. -/
inductive Fault where
  | sizeSetTwice (entry : String)
  | negativeSize (size : Int64) (entry : String)
  | offsetNotSet (entry : String)
  | offsetSetTwice (entry : String)
  | offsetBeforeSize (entry : String)
  | declaredTwice (name scope : String)
  | noBackingNode (kind : String)
  | synthesizedTwice (kind node scope : String)
  | scopeSizeSetTwice (scope : String)
  | scopePlacedTwice (scope : String)
  | resolvedTwice
  | unknownClass (name : String)
  | noSize (type : Ty)
  | badDimension (dim : Int64) (type : Ty)
  | neverResolved (scopes : List String)
  | frameNotResolved (scope : String)
  | noMember (className member : String)
  | notDerived (derived base : String)
  | noSlot (kind node scope : String)
  | poolExhausted (held : Nat)
  | foreignRegister (r : Register)
  | doubleRelease (r : Register)
  | liveRegisters (count : Nat) (statement : String)
  | badFloat (cause : DecimalError)
  | noFloatRule (op : BinaryOp)
  | noExpression
  | booleanStorage
  | voidValue
  | partialWords (size : Int64) (type : Ty)
  | unresolvedName (name : String)
  | noReceiver
  | wideImmediate (words : Int64)
  | immediateWord (word : Int64)
  | constantTooLarge (value : Int64)
  | noUnaryRule (op : UnaryOp) (type : Ty)
  | noBinaryRule (op : BinaryOp) (type : Ty)
  | undeclaredLocal (name : String)
  | valueFromVoid (function : String)
  | unresolvedCall (call : String)
  | argumentCount (call : String) (args params : Nat)
  | methodWithoutReceiver (function : String)
  | noWriteRule (type : Ty)
  | noReadRule (type : Ty)
  deriving DecidableEq

namespace Fault

def component : Fault → Component
  | .sizeSetTwice _ | .negativeSize _ _ | .offsetNotSet _ | .offsetSetTwice _
  | .offsetBeforeSize _ | .declaredTwice _ _ | .noBackingNode _ | .synthesizedTwice _ _ _
  | .scopeSizeSetTwice _ | .scopePlacedTwice _ => .symbols
  | .resolvedTwice | .unknownClass _ | .noSize _ | .badDimension _ _ | .neverResolved _
  | .frameNotResolved _ | .noMember _ _ | .notDerived _ _ | .noSlot _ _ _ => .layout
  | .poolExhausted _ | .foreignRegister _ | .doubleRelease _ | .liveRegisters _ _ => .registers
  | .badFloat _ | .noFloatRule _ => .float
  | _ => .emit

def detail : Fault → String
  | .sizeSetTwice entry => "size of " ++ entry ++ " set twice"
  | .negativeSize size entry => "negative size " ++ decimal size.toInt ++ " for " ++ entry
  | .offsetNotSet entry => "offset of " ++ entry ++ " read before layout"
  | .offsetSetTwice entry => "offset of " ++ entry ++ " set twice"
  | .offsetBeforeSize entry => "offset of " ++ entry ++ " set before its size"
  | .declaredTwice name scope => name ++ " declared twice in " ++ scope
  | .noBackingNode kind => "synthesized " ++ kind ++ " without a backing node"
  | .synthesizedTwice kind node scope =>
    kind ++ " for " ++ node ++ " synthesized twice in " ++ scope
  | .scopeSizeSetTwice scope => "size of scope " ++ scope ++ " set twice"
  | .scopePlacedTwice scope => "scope " ++ scope ++ " laid out twice"
  | .resolvedTwice => "layout resolved twice"
  | .unknownClass name => "unknown class " ++ name
  | .noSize type => "type " ++ type.text ++ " has no size"
  | .badDimension dim type =>
    "dimension " ++ decimal dim.toInt ++ " of " ++ type.text ++ " is not a positive literal"
  | .neverResolved scopes => "sizes never resolved for " ++ bracketed scopes
  | .frameNotResolved scope => "frame of " ++ scope ++ " not resolved"
  | .noMember className member => "class " ++ className ++ " has no member " ++ member
  | .notDerived derived base => derived ++ " does not derive from " ++ base
  | .noSlot kind node scope => "no " ++ kind ++ " slot for " ++ node ++ " in " ++ scope
  | .poolExhausted held => "register pool exhausted (" ++ decimal held ++ " held)"
  | .foreignRegister r => "release of foreign register " ++ r.text
  | .doubleRelease r => "double release of " ++ r.text
  | .liveRegisters count statement => decimal count ++ " registers live after " ++ statement
  | .badFloat cause => cause.message
  | .noFloatRule op => "no rule for float " ++ op.text
  | .noExpression => "unexpected expression <nil>"
  | .booleanStorage => "no rule for boolean storage"
  | .voidValue => "void value used"
  | .partialWords size type =>
    "size " ++ decimal size.toInt ++ " of " ++ type.text ++ " is not whole words"
  | .unresolvedName name => "unresolved name " ++ name
  | .noReceiver => "receiver used outside a member function"
  | .wideImmediate words => "immediate stored into " ++ decimal words.toInt ++ " words"
  | .immediateWord word => "word " ++ decimal word.toInt ++ " of an immediate"
  | .constantTooLarge value => "constant " ++ decimal value.toInt ++ " exceeds a word"
  | .noUnaryRule op type => "no rule for " ++ op.text ++ " on " ++ type.text
  | .noBinaryRule op type => "no rule for " ++ op.text ++ " on " ++ type.text
  | .undeclaredLocal name => "local " ++ name ++ " was never declared"
  | .valueFromVoid function => function ++ " returns a value from a void function"
  | .unresolvedCall call => "call " ++ call ++ " was never resolved"
  | .argumentCount call args params =>
    call ++ ": " ++ decimal args ++ " arguments for " ++ decimal params ++ " parameters"
  | .methodWithoutReceiver function => "method " ++ function ++ " called without a receiver"
  | .noWriteRule type => "no rule for writing " ++ type.text
  | .noReadRule type => "no rule for reading " ++ type.text

def message (f : Fault) : String :=
  "internal " ++ f.component.text ++ " fault: " ++ f.detail

end Fault

end MoonBackend
