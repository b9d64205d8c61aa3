import TypeEngine.Import
import TypeEngine.ModuleGraph
import TypeEngine.Pattern
import TypeEngine.Store.Classes
import TypeEngine.Store.Polymorphism

/-! # The scopes of a unit

A compilation unit has a root scope, one scope for each module under it, and scopes of function
bodies inside those or inside each other. Scopes are numbered in the order in which they are opened,
and the root is number zero. All scopes share one store of inference and the index of what was
compiled elsewhere. -/

namespace TypeEngine

/-! ### Options -/

/-- Choices for one unit. -/
structure Options where
  /-- Report a name without an owner that several imports resolve; otherwise the first import wins. -/
  reportAmbiguous : Bool
  /-- The stem of fresh type variables. -/
  variableStem : String
  /-- The stem of reserved symbols. -/
  symbolStem : String
deriving DecidableEq

def Options.default : Options :=
  { reportAmbiguous := false, variableStem := Store.defaultStem, symbolStem := "#" }

/-! ### Frames -/

/-- A scope, by its number. -/
abbrev ScopeId := Nat

/-- What belongs to a module as a whole. -/
structure ModuleBody where
  name : String
  imports : List Import
  dependencies : SymbolSet
  cases : CaseTable

/-- The kinds of scope. The scope of a function body knows the name of its module; outside of every
module the name is empty. -/
inductive FrameKind where
  | root
  | module (body : ModuleBody)
  | child (moduleName : String)

/-- The name of the module a scope of this kind belongs to. -/
def FrameKind.moduleName? : FrameKind → Option String
  | .root => none
  | .module body => some body.name
  | .child moduleName => some moduleName

def FrameKind.body? : FrameKind → Option ModuleBody
  | .module body => some body
  | _ => none

/-- One scope: the scope around it, its kind, and what is defined in it. -/
structure Frame where
  parent : Option ScopeId
  kind : FrameKind
  entries : Std.ExtTreeMap Symbol Entry compare

/-- The scopes of a unit, the modules entered so far in order of first entry, and how many symbols
were reserved. -/
structure Scopes where
  frames : List Frame
  modules : List (String × ScopeId)
  reserved : Nat
  store : Store
  index : Index
  options : Options

namespace Scopes

/-- The number of the root. -/
def root : ScopeId := 0

/-- The unit in which nothing but the root exists. -/
def new (index : Index) (options : Options) : Scopes :=
  { frames := [⟨none, .root, ∅⟩], modules := [], reserved := 0,
    store := .empty options.variableStem, index := index, options := options }

/-! ### Frames and chains -/

def frame? (s : Scopes) (scope : ScopeId) : Option Frame := s.frames[scope]?

/-- The kind of a scope; what is no scope is treated like the root. -/
def kind (s : Scopes) (scope : ScopeId) : FrameKind := ((s.frame? scope).map (·.kind)).getD .root

/-- The entry of a symbol in one scope alone. -/
def entryIn? (s : Scopes) (scope : ScopeId) (symbol : Symbol) : Option Entry :=
  (s.frame? scope).bind fun f => f.entries[symbol]?

def modifyFrame (s : Scopes) (scope : ScopeId) (f : Frame → Frame) : Scopes :=
  { s with frames := s.frames.modify scope f }

/-- At most `n` scopes from `scope` outwards. -/
def chainWithin (s : Scopes) : Nat → ScopeId → List ScopeId
  | 0, _ => []
  | n + 1, scope =>
    match s.frame? scope with
    | none => []
    | some f =>
      match f.parent with
      | none => [scope]
      | some parent => scope :: s.chainWithin n parent

/-- The scopes from `scope` outwards, up to the root. A scope is opened after the one around it, so
its own number bounds the length. -/
def chain (s : Scopes) (scope : ScopeId) : List ScopeId := s.chainWithin (scope + 1) scope

/-! ### Modules -/

/-- The name of the module a scope belongs to; the root belongs to none. -/
def moduleName? (s : Scopes) (scope : ScopeId) : Option String := (s.kind scope).moduleName?

/-- The scope of an entered module. -/
def module? (s : Scopes) (name : String) : Option ScopeId := s.modules.lookup name

/-- The module scope that `scope` is or lies in. -/
def moduleScope? (s : Scopes) (scope : ScopeId) : Option ScopeId :=
  (s.chain scope).find? fun id => (s.kind id).body?.isSome

/-- What belongs to the module that `scope` is or lies in. -/
def moduleBody? (s : Scopes) (scope : ScopeId) : Option ModuleBody :=
  (s.moduleScope? scope).bind fun id => (s.kind id).body?

/-- Changes what belongs to the module scope `id`. -/
def modifyBody (s : Scopes) (id : ScopeId) (f : ModuleBody → ModuleBody) : Scopes :=
  s.modifyFrame id fun frame =>
    match frame.kind with
    | .module body => { frame with kind := .module (f body) }
    | _ => frame

/-- Changes what belongs to the module that `scope` is or lies in, if there is one. -/
def modifyModuleOf (s : Scopes) (scope : ScopeId) (f : ModuleBody → ModuleBody) : Scopes :=
  match s.moduleScope? scope with
  | some id => s.modifyBody id f
  | none => s

def imports (s : Scopes) (scope : ScopeId) : List Import :=
  ((s.moduleBody? scope).map (·.imports)).getD []

/-! ### Opening and leaving scopes -/

/-- Opens a new scope. -/
def addFrame (s : Scopes) (f : Frame) : ScopeId × Scopes :=
  (s.frames.length, { s with frames := s.frames ++ [f] })

/-- Adds an import unless it is there already. -/
def addImport (imports : List Import) (i : Import) : List Import :=
  if imports.contains i then imports else imports ++ [i]

/-- The scope of a module. It is opened under the root on first entry, and entering again adds the
imports that are new. -/
def enterModule (s : Scopes) (name : String) (imports : List Import) : ScopeId × Scopes :=
  match s.module? name with
  | some id =>
    (id, s.modifyBody id fun body => { body with imports := imports.foldl addImport body.imports })
  | none =>
    let (id, s') := s.addFrame ⟨some root, .module ⟨name, imports, ∅, []⟩, ∅⟩
    (id, { s' with modules := s'.modules ++ [(name, id)] })

/-- Opens the scope of a function body inside `scope`. -/
def enterScope (s : Scopes) (scope : ScopeId) : ScopeId × Scopes :=
  s.addFrame ⟨some scope, .child ((s.moduleName? scope).getD ""), ∅⟩

/-- The scope around `scope`; the root is around itself. -/
def leaveScope (s : Scopes) (scope : ScopeId) : ScopeId :=
  ((s.frame? scope).bind (·.parent)).getD root

end Scopes

end TypeEngine
