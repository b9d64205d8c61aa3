import TypeEngine.Ty.Basic

/-! # Text of types

A type is written with the demands of its variables in front, as in `(Num a) => a -> a`, and with
simple names only. A function in argument position, a compound operand and a function applied as a
head stand in parentheses. -/

namespace TypeEngine

namespace Ty

def isFn : Ty → Bool
  | .fn _ _ => true
  | _ => false

/-- The type needs parentheses as an operand. -/
def isCompound : Ty → Bool
  | .var _ => false
  | .sum _ ts => !ts.isEmpty
  | .fn _ _ => true
  | .app _ _ => true

/-- The text, in parentheses if `wrap` is set. -/
def parenthesize (wrap : Bool) (text : String) : String :=
  if wrap then "(" ++ text ++ ")" else text

mutual

/-- The text of a type without the demands of its variables. -/
def bareText : Ty → String
  | .var v => v.name
  | .sum s ts => s.simpleName ++ operandTexts ts
  | .fn a r => parenthesize a.isFn a.bareText ++ " -> " ++ r.bareText
  | .app h a => parenthesize h.isFn h.bareText ++ " " ++ parenthesize a.isCompound a.bareText

/-- The texts of the parameters of a named type, each after a space. -/
def operandTexts : List Ty → String
  | [] => ""
  | t :: ts => " " ++ parenthesize t.isCompound t.bareText ++ operandTexts ts

end

/-- The demands of the free variables, as they stand before a type. -/
def demandText (t : Ty) : String :=
  if t.demands.isEmpty then ""
  else "(" ++ ", ".intercalate (t.demands.map fun (v, c) => c.simpleName ++ " " ++ v) ++ ") => "

/-- The text of a type. -/
def text (t : Ty) : String := t.demandText ++ t.bareText

end Ty

end TypeEngine
