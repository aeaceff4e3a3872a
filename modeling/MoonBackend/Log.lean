/-!
# Log records

What the stages report about their work. A record has a level, a message and attributes in the
order in which they were given; who prints it adds the time. Section 5 of the specification.
-/

namespace MoonBackend

inductive LogLevel where
  | debug
  | info
  deriving DecidableEq

def LogLevel.text : LogLevel → String
  | .debug => "DEBUG"
  | .info => "INFO"

inductive LogValue where
  | number (n : Int)
  | text (s : String)
  deriving DecidableEq

structure LogRecord where
  level : LogLevel
  message : String
  attributes : List (String × LogValue)
  deriving DecidableEq

def LogRecord.debug (component message : String) (attributes : List (String × LogValue)) :
    LogRecord :=
  ⟨.debug, message, ("component", .text component) :: attributes⟩

end MoonBackend
