import TypeEngine.Ty.Runtime

/-! # Getters

Every value at the top of a module, and every instance, is reached by a static method without
arguments. -/

namespace TypeEngine

/-- A static method: the class that owns it, its name and its descriptor. -/
structure Getter where
  owner : String
  name : String
  descriptor : String
deriving DecidableEq

namespace Getter

/-- The getter of a value: a method of the module's class, named after the value. -/
def ofValue (s : Symbol) (t : Ty) : Getter := ⟨s.moduleClass, s.methodName, t.signature⟩

def text (g : Getter) : String := g.owner ++ ":" ++ g.name ++ ":" ++ g.descriptor

end Getter

end TypeEngine
