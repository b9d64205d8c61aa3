import TypeEngine.UnifyError

/-! # Diagnostics

What is reported about the user's program, and where. Reporting never stops the walk. -/

namespace TypeEngine

/-- A range of the source text. -/
structure Span where
  start : Nat
  stop : Nat
deriving DecidableEq

def Span.text (s : Span) : String := toString s.start ++ ":" ++ toString s.stop

/-- What is wrong. -/
inductive Cause where
  /-- Two types cannot be made equal. -/
  | unequal (error : UnifyError)
  /-- A class is demanded of a type that does not implement it. -/
  | noInstance (typeClass : Symbol) (ty : Ty)
  /-- Nothing is known under the name. -/
  | notFound (symbol : Symbol)
  /-- Several imports resolve the name. -/
  | ambiguous (name : String) (candidates : List Symbol)
deriving DecidableEq

def Cause.message : Cause → String
  | .unequal error => error.message
  | .noInstance c t => "no instance of `" ++ c.text ++ "` for " ++ t.text
  | .notFound s => "symbol `" ++ s.text ++ "` not found"
  | .ambiguous name candidates =>
    "ambiguous reference `" ++ name ++ "`: imported as " ++
      ", ".intercalate (candidates.map fun s => "`" ++ s.text ++ "`")

/-- A cause and the place it was found at. -/
structure Diagnostic where
  cause : Cause
  span : Span
deriving DecidableEq

namespace Diagnostic

def message (d : Diagnostic) : String := d.cause.message

def text (d : Diagnostic) : String := "[" ++ d.span.text ++ "] " ++ d.message

end Diagnostic

end TypeEngine
