import TypeEngine.Ty.Printer

/-! # Failures of unification -/

namespace TypeEngine

/-- Why two types cannot be made equal. -/
inductive UnifyError where
  /-- The two types differ in a way no binding can mend. -/
  | mismatch (expected actual : Ty)
  /-- Binding the variable to the type would make it occur in itself. -/
  | circular (v : TyVar) (ty : Ty)
  /-- Bindings that already run in a circle through a larger type give the comparison no end. -/
  | endless (expected actual : Ty)
deriving DecidableEq

namespace UnifyError

def message : UnifyError → String
  | .mismatch expected actual =>
    "type mismatch: expected " ++ expected.text ++ ", got " ++ actual.text
  | .circular v ty => "infinite type: " ++ v.name ++ " occurs in " ++ ty.text
  | .endless expected actual =>
    "endless comparison: expected " ++ expected.text ++ ", got " ++ actual.text

def isCircular : UnifyError → Bool
  | .circular _ _ => true
  | _ => false

end UnifyError

end TypeEngine
