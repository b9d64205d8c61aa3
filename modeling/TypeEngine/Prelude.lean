import TypeEngine.Index

/-! # The prelude

The symbols every program can import: `Int`, `Bool`, and the classes `Eq` and `Num` with their
instances for `Int`. -/

namespace TypeEngine

namespace Prelude

def intSymbol : Symbol := .qualified "scotch.data.int" "Int"

def boolSymbol : Symbol := .qualified "scotch.data.bool" "Bool"

def eqSymbol : Symbol := .qualified "scotch.data.eq" "Eq"

def numSymbol : Symbol := .qualified "scotch.data.num" "Num"

def int : Ty := .sum intSymbol []

def bool : Ty := .sum boolSymbol []

/-- A data type without parameters. -/
def dataTypeEntry (s : Symbol) (constructors : List Symbol) : Entry :=
  (Entry.empty s).withDataType ⟨s, [], constructors⟩

/-- A class over one variable. -/
def classEntry (s : Symbol) (members : List Symbol) : Entry :=
  (Entry.empty s).withTypeClass ⟨s, [.var (.ofName "a")], members⟩

/-- A member of a class, with its type and its operator if it is one. -/
def memberEntry (c s : Symbol) (t : Ty) (o : Option Operator) : Entry :=
  let e := ((Entry.empty s).withValue t).withMemberOf c
  match o with
  | some o => e.withOperator o
  | none => e

/-- A constructor of `Bool`. -/
def boolConstructorEntry (ordinal : Nat) (s : Symbol) : Entry :=
  let d : DataConstructor := ⟨ordinal, s, bool, []⟩
  ((Entry.empty s).withValue d.valueType).withDataConstructor d

/-- The instance of a class for `Int`, held by the class `owner`. -/
def intInstance (c : Symbol) (owner : String) : Instance :=
  ⟨c.owner?.getD "", c, [int], ⟨owner, "instance", "()L" ++ owner ++ ";"⟩⟩

/-- The variable `a` of which a class is demanded. -/
def demanded (c : Symbol) : Ty := .var ⟨"a", {c}⟩

def boolConstructors : List Symbol :=
  [.qualified "scotch.data.bool" "True", .qualified "scotch.data.bool" "False"]

def equals : Symbol := .qualified "scotch.data.eq" "=="

/-- The members of `Num`: name, type and operator. -/
def numMembers : List (Symbol × Ty × Option Operator) :=
  let a := demanded numSymbol
  let unary := Ty.fn a a
  let binary := Ty.curried [a, a] a
  [("+", binary, some ⟨.leftInfix, 7⟩), ("-", binary, some ⟨.leftInfix, 7⟩),
    ("*", binary, some ⟨.leftInfix, 8⟩), ("negate", unary, none), ("abs", unary, none),
    ("signum", unary, none), ("fromInteger", .fn int a, none)].map
    fun (name, rest) => (.qualified "scotch.data.num" name, rest)

/-- The entries of the prelude. -/
def entries : List Entry :=
  [dataTypeEntry intSymbol [], dataTypeEntry boolSymbol boolConstructors] ++
    boolConstructors.zipIdx.map (fun (s, ordinal) => boolConstructorEntry ordinal s) ++
    [memberEntry eqSymbol equals (.curried [demanded eqSymbol, demanded eqSymbol] bool)
        (some ⟨.leftInfix, 5⟩),
      classEntry eqSymbol [equals]] ++
    numMembers.map (fun (s, t, o) => memberEntry numSymbol s t o) ++
    [classEntry numSymbol (numMembers.map (·.1))]

/-- The instances of the prelude. -/
def instances : List Instance :=
  [intInstance eqSymbol "scotch/data/eq/EqInt", intInstance numSymbol "scotch/data/num/NumInt"]

/-- Adds the prelude to an index. -/
def install (i : Index) : Index := instances.foldl .defineInstance (entries.foldl .define i)

/-- The index that holds the prelude alone. -/
def index : Index := install .empty

end Prelude

end TypeEngine
