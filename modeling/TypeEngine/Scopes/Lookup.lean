import TypeEngine.Diagnostic
import TypeEngine.Scopes.Basic
import TypeEngine.Ty.Names

/-! # Qualification and lookup

To qualify a name is to find the module that owns it, as seen from a scope. Definitions of the
module and of the scopes around a body come before imports, and among imports the first one that
resolves the name wins. To look a symbol up is to find its entry: in the scopes outwards, then among
the definitions of its module in this unit, then in the index. -/

namespace TypeEngine

namespace Scopes

/-! ### What the unit defines -/

/-- The entry of a symbol among the definitions of its module in this unit, else in the index. -/
def lookupInUnit? (s : Scopes) (symbol : Symbol) : Option Entry :=
  ((symbol.owner?.bind s.module?).bind fun id => s.entryIn? id symbol).or (s.index.lookup? symbol)

/-- The symbol is defined at the top of a module, in this unit or in the index. -/
def isDefinedInUnit (s : Scopes) (symbol : Symbol) : Bool := (s.lookupInUnit? symbol).isSome

/-- The scopes of a chain up to the first that is a module. -/
def upToModule (s : Scopes) : List ScopeId → List ScopeId
  | [] => []
  | id :: ids => if (s.kind id).body?.isSome then [id] else id :: s.upToModule ids

/-- The scopes from `scope` outwards, up to its module. -/
def localChain (s : Scopes) (scope : ScopeId) : List ScopeId := s.upToModule (s.chain scope)

/-- The symbol is defined in `scope` or in a scope around it, up to its module. -/
def isDefinedLocally (s : Scopes) (scope : ScopeId) (symbol : Symbol) : Bool :=
  (s.localChain scope).any fun id => (s.entryIn? id symbol).isSome

/-! ### Qualification -/

/-- The symbol an import resolves a name to. -/
def importedAs (s : Scopes) (name : String) (i : Import) : Option Symbol :=
  i.qualify s.isDefinedInUnit name

/-- Every symbol that an import resolves the name to, in the order of the imports. -/
def candidates (s : Scopes) (scope : ScopeId) (name : String) : List Symbol :=
  (s.imports scope).filterMap (s.importedAs name)

/-- The symbol as its owner knows it. A symbol of another module is seen through the first import of
that module. Outside of every module only symbols with an owner are known. -/
def qualify (s : Scopes) (scope : ScopeId) (symbol : Symbol) : Option Symbol :=
  match s.moduleName? scope, symbol with
  | none, .qualified owner name => some (.qualified owner name)
  | none, .unqualified _ => none
  | some module, .qualified owner name =>
    if owner = module then some (.qualified owner name)
    else ((s.imports scope).find? (·.isFrom owner)).bind (s.importedAs name)
  | some module, .unqualified name =>
    if s.isDefinedLocally scope (.qualified module name) then some (.qualified module name)
    else (s.imports scope).findSome? (s.importedAs name)

/-- The name as a symbol of the module of `scope`, defined or not. -/
def qualifyCurrent (s : Scopes) (scope : ScopeId) (symbol : Symbol) : Option Symbol :=
  (s.moduleName? scope).map symbol.qualifyWith

/-- The type with its symbols qualified, and a diagnostic for each symbol that cannot be; those stay
as they are written. -/
def qualifyType (s : Scopes) (scope : ScopeId) (t : Ty) (span : Span) : Ty × List Diagnostic :=
  (t.mapSymbols fun c => (s.qualify scope c).getD c,
    (t.symbols.filter fun c => (s.qualify scope c).isNone).map fun c => ⟨.notFound c, span⟩)

/-! ### Lookup -/

/-- The symbol to look up: itself if it has an owner, else what it is qualified to. -/
def lookupSymbol (s : Scopes) (scope : ScopeId) (symbol : Symbol) : Option Symbol :=
  if symbol.isQualified then some symbol else s.qualify scope symbol

/-- The entry of a symbol as seen from `scope`. -/
def lookup? (s : Scopes) (scope : ScopeId) (symbol : Symbol) : Option Entry :=
  (s.lookupSymbol scope symbol).bind fun q =>
    ((s.chain scope).findSome? fun id => s.entryIn? id q).or (s.lookupInUnit? q)

def isDefined (s : Scopes) (scope : ScopeId) (symbol : Symbol) : Bool :=
  (s.lookup? scope symbol).isSome

/-- The type of a value as it was recorded. -/
def value? (s : Scopes) (scope : ScopeId) (symbol : Symbol) : Option Ty :=
  (s.lookup? scope symbol).bind (·.value)

/-- The signature of a symbol, instantiated for one use. -/
def signature? (s : Scopes) (scope : ScopeId) (symbol : Symbol) : Option (Ty × Scopes) :=
  ((s.lookup? scope symbol).bind (·.signature)).map fun t =>
    let (copy, store) := s.store.instantiate t
    (copy, { s with store := store })

def getter? (s : Scopes) (scope : ScopeId) (symbol : Symbol) : Option Getter :=
  (s.lookup? scope symbol).bind (·.getter)

def operator? (s : Scopes) (scope : ScopeId) (symbol : Symbol) : Option Operator :=
  (s.lookup? scope symbol).bind (·.operator)

def isOperator (s : Scopes) (scope : ScopeId) (symbol : Symbol) : Bool :=
  (s.operator? scope symbol).isSome

def isDataConstructor (s : Scopes) (scope : ScopeId) (symbol : Symbol) : Bool :=
  (s.lookup? scope symbol).any (·.isDataConstructor)

def typeClass? (s : Scopes) (scope : ScopeId) (symbol : Symbol) : Option TypeClass :=
  (s.lookup? scope symbol).bind (·.typeClass)

/-- The class a value is a member of. -/
def memberOf? (s : Scopes) (scope : ScopeId) (symbol : Symbol) : Option TypeClass :=
  ((s.lookup? scope symbol).bind (·.memberOf)).bind (s.typeClass? scope)

/-- The classes known to hold of a type: those demanded of its variables, and those of which the
imports bring an instance. -/
def classesOf (s : Scopes) (scope : ScopeId) (t : Ty) : SymbolSet :=
  (s.imports scope).foldl (fun classes i => classes ∪ i.classesAt s.index t) (s.store.classesOf t)

end Scopes

end TypeEngine
