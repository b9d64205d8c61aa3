import TypeEngine.Index

/-! # Imports -/

namespace TypeEngine

/-- An import of a module: all its names, or those listed. -/
structure Import where
  module : String
  names : Option (List String)
deriving DecidableEq

namespace Import

def isFrom (i : Import) (module : String) : Bool := i.module == module

/-- The import lets the name through. -/
def exposes (i : Import) (name : String) : Bool :=
  match i.names with
  | none => true
  | some names => names.contains name

/-- The name as a symbol of the imported module, if the import lets it through and it is defined. -/
def qualify (i : Import) (isDefined : Symbol → Bool) (name : String) : Option Symbol :=
  if i.exposes name && isDefined (.qualified i.module name) then some (.qualified i.module name)
  else none

/-- The classes of which the imported module declares an instance for the type. -/
def classesAt (i : Import) (index : Index) (t : Ty) : SymbolSet :=
  .ofList (((index.moduleInstances i.module).filter (·.serves [t])).map (·.typeClass)) compare

end Import

end TypeEngine
