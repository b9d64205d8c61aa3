import TypeEngine.Scopes.Lookup

/-! # Definitions

Symbols are defined in the scope they are defined from, and only under the module that scope belongs
to. A definition that fails leaves everything as it was. Pattern cases and dependencies are kept for
the module as a whole. -/

namespace TypeEngine

/-- A definition that an earlier pass should never have asked for, or modules that use each other in
a circle. -/
inductive ScopeError where
  /-- The symbol belongs to another module than the scope. -/
  | foreign (symbol : Symbol) (module : String)
  /-- The symbol already has another declaration. -/
  | conflict (conflict : SlotConflict)
  /-- The symbol has no owner. -/
  | unowned (symbol : Symbol)
  /-- The module uses itself through others. -/
  | cycle (module : String)
deriving DecidableEq

namespace ScopeError

def message : ScopeError → String
  | .foreign symbol module =>
    "can't define symbol `" ++ symbol.text ++ "` within different module `" ++ module ++ "`"
  | .conflict c => "conflicting definition: " ++ c.message
  | .unowned symbol => "can't define unqualified symbol `" ++ symbol.text ++ "`"
  | .cycle module => "dependency cycle detected: " ++ module

/-- The definition clashes with what the scope owns. -/
def isDefinitionConflict : ScopeError → Bool
  | .foreign _ _ => true
  | .conflict _ => true
  | .unowned _ => false
  | .cycle _ => false

end ScopeError

namespace Scopes

/-! ### Entries -/

/-- Changes the entry of a symbol in `scope`, a new one if there is none yet. -/
def define (s : Scopes) (scope : ScopeId) (symbol : Symbol)
    (change : Entry → Except SlotConflict Entry) : Except ScopeError Scopes :=
  let module := (s.moduleName? scope).getD ""
  match symbol.owner? with
  | none => .error (.unowned symbol)
  | some owner =>
    if owner ≠ module ∨ module = "" then .error (.foreign symbol module)
    else
      match change ((s.entryIn? scope symbol).getD (.empty symbol)) with
      | .error c => .error (.conflict c)
      | .ok e =>
        .ok (s.modifyFrame scope fun f => { f with entries := f.entries.insert symbol e })

/-- Records the type of a value, and with it the getter of the value. -/
def defineValue (s : Scopes) (scope : ScopeId) (symbol : Symbol) (t : Ty) :
    Except ScopeError Scopes :=
  s.define scope symbol fun e => .ok (e.setValue t (.ofValue symbol t))

def defineSignature (s : Scopes) (scope : ScopeId) (symbol : Symbol) (t : Ty) :
    Except ScopeError Scopes :=
  s.define scope symbol fun e => .ok (e.setSignature t)

def defineOperator (s : Scopes) (scope : ScopeId) (symbol : Symbol) (o : Operator) :
    Except ScopeError Scopes :=
  s.define scope symbol (·.defineOperator o)

def defineDataType (s : Scopes) (scope : ScopeId) (symbol : Symbol) (d : DataType) :
    Except ScopeError Scopes :=
  s.define scope symbol (·.defineDataType d)

def defineDataConstructor (s : Scopes) (scope : ScopeId) (symbol : Symbol) (d : DataConstructor) :
    Except ScopeError Scopes :=
  s.define scope symbol (·.defineDataConstructor d)

def defineTypeClass (s : Scopes) (scope : ScopeId) (symbol : Symbol) (c : TypeClass) :
    Except ScopeError Scopes :=
  s.define scope symbol (·.defineTypeClass c)

def defineMemberOf (s : Scopes) (scope : ScopeId) (symbol c : Symbol) : Except ScopeError Scopes :=
  s.define scope symbol (·.defineMemberOf c)

/-- Makes an instance of the class known in the unit. -/
def implement (s : Scopes) (c : Symbol) (t : Ty) : Scopes :=
  { s with store := s.store.implement c t }

/-! ### Pattern cases and dependencies -/

/-- Adds a pattern case for a symbol to the module of `scope`. -/
def addCase (s : Scopes) (scope : ScopeId) (symbol : Symbol) (c : Case) : Scopes :=
  s.modifyModuleOf scope fun body => { body with cases := body.cases.add symbol c }

/-- Records that the module of `scope` needs a symbol, unless it was compiled elsewhere. -/
def addDependency (s : Scopes) (scope : ScopeId) (symbol : Symbol) : Scopes :=
  if s.index.isDefined symbol then s
  else s.modifyModuleOf scope fun body => { body with dependencies := body.dependencies.insert symbol }

def dependencies (s : Scopes) (scope : ScopeId) : SymbolSet :=
  ((s.moduleBody? scope).map (·.dependencies)).getD ∅

/-- The pattern cases of the module of `scope`, symbols in order of their first case. -/
def cases (s : Scopes) (scope : ScopeId) : CaseTable :=
  ((s.moduleBody? scope).map (·.cases)).getD []

/-- The graph of the modules entered and the modules of the symbols they need. -/
def moduleGraph (s : Scopes) : ModuleGraph :=
  s.modules.foldl
    (fun g (name, id) =>
      ((s.dependencies id).toList.filterMap (·.owner?)).foldl (fun g target => g.addEdge name target)
        (g.addModule name))
    .empty

/-- The modules in the order to build them in. -/
def buildOrder (g : ModuleGraph) : Except ScopeError (List String) :=
  g.buildOrder.mapError .cycle

/-! ### Reserved symbols -/

/-- The name of the reserved symbol number `n`: the names of the definitions around it, each before
the stem, and the number. -/
def reservedName (stem : String) (nestings : List String) (n : Nat) : String :=
  (if nestings.isEmpty then stem else String.join (nestings.map (· ++ stem))) ++ toString n

/-- Hands out a symbol that was not handed out before, in the module of `scope`. -/
def reserveSymbol (s : Scopes) (scope : ScopeId) (nestings : List String) : Symbol × Scopes :=
  let name := reservedName s.options.symbolStem nestings s.reserved
  let symbol :=
    match s.moduleName? scope with
    | some module => .qualified module name
    | none => .unqualified name
  (symbol, { s with reserved := s.reserved + 1 })

end Scopes

end TypeEngine
