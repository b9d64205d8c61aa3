import TypeEngine.Alignment
import TypeEngine.Getter

/-! # Declarations

What a program declares: data types and their constructors, type classes, and instances of classes. -/

namespace TypeEngine

/-! ### Data types -/

/-- A data type over formal parameters, with its constructors in order of declaration. -/
structure DataType where
  symbol : Symbol
  parameters : List Ty
  constructors : List Symbol
deriving DecidableEq

/-- The data type applied to its formal parameters. -/
def DataType.ty (d : DataType) : Ty := .sum d.symbol d.parameters

/-- A field of a constructor. -/
structure Field where
  name : String
  ty : Ty
deriving DecidableEq

/-- A constructor: its place among the constructors of a data type, and its fields. -/
structure DataConstructor where
  ordinal : Nat
  symbol : Symbol
  dataType : Ty
  fields : List Field
deriving DecidableEq

namespace DataConstructor

/-- The type of the constructor as a curried function of its fields. -/
def valueType (d : DataConstructor) : Ty := .curried (d.fields.map (·.ty)) d.dataType

def isNiladic (d : DataConstructor) : Bool := d.fields.isEmpty

/-- The class of the values it builds, inside the class of a named data type. -/
def className (d : DataConstructor) : String :=
  match d.dataType with
  | .sum s _ => s.className ++ "$" ++ d.symbol.methodName
  | _ => d.symbol.className

end DataConstructor

/-! ### Type classes -/

/-- A type class over formal parameters, with its members in order of declaration. -/
structure TypeClass where
  symbol : Symbol
  parameters : List Ty
  members : List Symbol
deriving DecidableEq

def TypeClass.hasMember (c : TypeClass) (s : Symbol) : Bool := c.members.contains s

/-- An instance of a class, declared by a module, and the getter of its object. -/
structure Instance where
  module : String
  typeClass : Symbol
  parameters : List Ty
  getter : Getter
deriving DecidableEq

/-- The instance serves the class at these types: every head lines up with its type, and a variable
in a head with any type. -/
def Instance.serves (i : Instance) (types : List Ty) : Bool :=
  i.parameters.length == types.length &&
    (i.parameters.zip types).all fun (formal, actual) =>
      ((Store.empty Store.defaultStem).align formal actual).isSome

end TypeEngine
