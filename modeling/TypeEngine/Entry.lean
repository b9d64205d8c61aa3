import TypeEngine.Declaration
import TypeEngine.Operator

/-! # Entries

An entry holds what is known about one symbol. While an entry is built, every part of it can be set.
In a unit, the type and the signature can be refined, but a declaration is written once: writing the
same one again changes nothing, and writing another one fails. -/

namespace TypeEngine

/-- The parts of an entry that are written once. -/
inductive Slot where
  | operator
  | dataType
  | dataConstructor
  | typeClass
  | memberOf
deriving DecidableEq

def Slot.text : Slot → String
  | .operator => "operator"
  | .dataType => "data type"
  | .dataConstructor => "data constructor"
  | .typeClass => "type class"
  | .memberOf => "owning type class"

/-- A second, different declaration for a slot of a symbol. -/
structure SlotConflict where
  symbol : Symbol
  slot : Slot
deriving DecidableEq

def SlotConflict.message (c : SlotConflict) : String :=
  "`" ++ c.symbol.text ++ "` already has a different " ++ c.slot.text

/-- What is known about a symbol. -/
structure Entry where
  symbol : Symbol
  value : Option Ty
  signature : Option Ty
  getter : Option Getter
  dataType : Option DataType
  dataConstructor : Option DataConstructor
  operator : Option Operator
  typeClass : Option TypeClass
  memberOf : Option Symbol
deriving DecidableEq

/-- Writes `new` into a slot that holds `old`. -/
def SlotConflict.fill {α : Type} [DecidableEq α] (symbol : Symbol) (slot : Slot) (old : Option α)
    (new : α) : Except SlotConflict (Option α) :=
  match old with
  | none => .ok (some new)
  | some x => if x = new then .ok (some x) else .error ⟨symbol, slot⟩

namespace Entry

/-- The entry of a symbol of which nothing is known. -/
def empty (s : Symbol) : Entry :=
  { symbol := s, value := none, signature := none, getter := none, dataType := none,
    dataConstructor := none, operator := none, typeClass := none, memberOf := none }

def isOperator (e : Entry) : Bool := e.operator.isSome

def isDataConstructor (e : Entry) : Bool := e.dataConstructor.isSome

/-! ### Setting -/

/-- Sets the type of the value and its getter. -/
def setValue (e : Entry) (t : Ty) (g : Getter) : Entry := { e with value := some t, getter := some g }

/-- Sets the type of the value, and the getter that belongs to it. -/
def withValue (e : Entry) (t : Ty) : Entry := e.setValue t (.ofValue e.symbol t)

def setSignature (e : Entry) (t : Ty) : Entry := { e with signature := some t }

def withOperator (e : Entry) (o : Operator) : Entry := { e with operator := some o }

def withDataType (e : Entry) (d : DataType) : Entry := { e with dataType := some d }

def withDataConstructor (e : Entry) (d : DataConstructor) : Entry :=
  { e with dataConstructor := some d }

def withTypeClass (e : Entry) (c : TypeClass) : Entry := { e with typeClass := some c }

def withMemberOf (e : Entry) (c : Symbol) : Entry := { e with memberOf := some c }

/-! ### Declaring once -/

def defineOperator (e : Entry) (o : Operator) : Except SlotConflict Entry :=
  (SlotConflict.fill e.symbol .operator e.operator o).map fun slot => { e with operator := slot }

def defineDataType (e : Entry) (d : DataType) : Except SlotConflict Entry :=
  (SlotConflict.fill e.symbol .dataType e.dataType d).map fun slot => { e with dataType := slot }

def defineDataConstructor (e : Entry) (d : DataConstructor) : Except SlotConflict Entry :=
  (SlotConflict.fill e.symbol .dataConstructor e.dataConstructor d).map fun slot =>
    { e with dataConstructor := slot }

def defineTypeClass (e : Entry) (c : TypeClass) : Except SlotConflict Entry :=
  (SlotConflict.fill e.symbol .typeClass e.typeClass c).map fun slot => { e with typeClass := slot }

def defineMemberOf (e : Entry) (c : Symbol) : Except SlotConflict Entry :=
  (SlotConflict.fill e.symbol .memberOf e.memberOf c).map fun slot => { e with memberOf := slot }

end Entry

end TypeEngine
