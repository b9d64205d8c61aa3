import TypeEngine.Symbol.Mangling
import TypeEngine.Text.UpperCase
import TypeEngine.Ty.Subst

/-! # Named types and their classes at run time

A named type is written with an upper-case name. At run time a value of a named type is an object of
that type's class, a function is applicable, and a value of any other type is only known to be
callable. -/

namespace TypeEngine

/-- A name that cannot be the name of a type, because it does not start in upper case. -/
structure NotUpperCase where
  name : String
deriving DecidableEq

def NotUpperCase.message (e : NotUpperCase) : String :=
  "sum type should have upper-case name: got `" ++ e.name ++ "`"

/-- The interfaces of values whose class is not known. -/
inductive RuntimeClass where
  | callable
  | applicable
deriving DecidableEq

def RuntimeClass.className : RuntimeClass → String
  | .callable => "scotch/runtime/Callable"
  | .applicable => "scotch/runtime/Applicable"

namespace Ty

/-- The named type `head` with parameters `args`, if the name starts in upper case. -/
def named (head : Symbol) (args : List Ty) : Except NotUpperCase Ty :=
  if head.simpleName.toList.head?.any isUpperCase then .ok (.sum head args)
  else .error ⟨head.simpleName⟩

/-- The interface of a value of this type. -/
def runtimeClass : Ty → RuntimeClass
  | .fn _ _ => .applicable
  | _ => .callable

/-- The class of a value of this type. -/
def valueClass (t : Ty) : String :=
  match t.flatten with
  | .sum s _ => s.className
  | u => u.runtimeClass.className

/-- The descriptor of a method without arguments that returns a value of this type. -/
def signature (t : Ty) : String := "()L" ++ t.valueClass ++ ";"

end Ty

end TypeEngine
