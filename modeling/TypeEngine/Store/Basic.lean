import Std.Data.ExtTreeMap
import TypeEngine.Ty.Basic

/-! # The store of inference

Types never change; what inference learns about variables is kept in a store: what each variable is
bound to, how often it is pinned, which classes are demanded of it, which instances are known, and
how many fresh variables were handed out. The maps are extensional, so two stores with the same
answers are equal. -/

namespace TypeEngine

/-- What variables are bound to, by name. -/
abbrev Bindings := Std.ExtTreeMap String Ty compare

/-- How often variables are pinned, by name. A variable without a count is not pinned. -/
abbrev Pins := Std.ExtTreeMap String Nat compare

/-- The classes recorded for variables, by name. -/
abbrev Demands := Std.ExtTreeMap String SymbolSet compare

/-- The instance heads known for each class, in the order in which they became known. -/
abbrev Heads := Std.ExtTreeMap Symbol (List Ty) compare

/-- What inference knows. Fresh variables are named by the stem and the counter. -/
structure Store where
  bindings : Bindings
  pins : Pins
  demands : Demands
  heads : Heads
  counter : Nat
  stem : String

/-- Records further classes for a variable. -/
def Demands.add (d : Demands) (name : String) (classes : SymbolSet) : Demands :=
  d.insert name (d.getD name ∅ ∪ classes)

namespace Store

/-- The store that knows nothing. -/
def empty (stem : String) : Store :=
  { bindings := ∅, pins := ∅, demands := ∅, heads := ∅, counter := 0, stem := stem }

/-- The stem of fresh variables when none is chosen. -/
def defaultStem : String := "t"

/-! ### Fresh variables -/

/-- The name of the fresh variable number `n`. -/
def freshName (s : Store) (n : Nat) : String := s.stem ++ toString n

/-- Hands out a fresh variable with the given demands. -/
def reserve (s : Store) (context : SymbolSet) : Ty × Store :=
  (.var ⟨s.freshName s.counter, context⟩, { s with counter := s.counter + 1 })

/-! ### Looking at a variable -/

def isBound (s : Store) (name : String) : Bool := s.bindings.contains name

/-- What a variable is bound to, one step far; any other type is its own target. -/
def target (s : Store) (t : Ty) : Ty :=
  match t.asVar? with
  | some v => s.bindings.getD v.name t
  | none => t

/-- The variable with the classes recorded for it added to its own. -/
def annotate (s : Store) (v : TyVar) : TyVar := v.demanding (s.demands.getD v.name ∅)

@[simp] theorem name_annotate (s : Store) (v : TyVar) : (s.annotate v).name = v.name := rfl

end Store

end TypeEngine
