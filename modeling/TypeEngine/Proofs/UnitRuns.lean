import TypeEngine.Checker
import TypeEngine.Proofs.StoreRuns

/-! # Runs over a unit

What can be done with an index, with the scopes of a unit, with its store and with the state of the walk
over it, as operations. Questions that change nothing are not among them: whatever they answer, any
operation may come next. The scopes of a unit are `Reachable` if operations on scopes that exist lead to
them from the root alone, and `LeadsTo` goes from any scopes to later ones. A run over a unit is no list of
operations, since `enclose` runs a body of its own inside. `Walk` leads from the start of a run to its end,
with every enclosed body run to its end; `Visits` leads to any state on the way, which may lie inside of
enclosed bodies. -/

namespace TypeEngine

/-! ### Registrations with an index -/

namespace Index

/-- What can be registered with an index. -/
inductive Registration where
  | entry (e : Entry)
  | typeInstance (d : Instance)

def register (i : Index) : Registration → Index
  | .entry e => i.define e
  | .typeInstance d => i.defineInstance d

/-- The index in which exactly these have been registered, one after the other. -/
def ofRegistrations (rs : List Registration) : Index := rs.foldl register .empty

end Index

/-! ### Operations on the scopes -/

namespace Scopes

/-- What can be recorded for a symbol. -/
inductive Definition where
  | value (t : Ty)
  | signature (t : Ty)
  | operator (o : Operator)
  | dataType (d : DataType)
  | dataConstructor (d : DataConstructor)
  | typeClass (c : TypeClass)
  | memberOf (c : Symbol)
deriving DecidableEq

def record (s : Scopes) (scope : ScopeId) (symbol : Symbol) :
    Definition → Except ScopeError Scopes
  | .value t => s.defineValue scope symbol t
  | .signature t => s.defineSignature scope symbol t
  | .operator o => s.defineOperator scope symbol o
  | .dataType d => s.defineDataType scope symbol d
  | .dataConstructor d => s.defineDataConstructor scope symbol d
  | .typeClass c => s.defineTypeClass scope symbol c
  | .memberOf c => s.defineMemberOf scope symbol c

/-- What can be done with the scopes of a unit; `types` is a call of their store. -/
inductive Operation where
  | types (call : Store.Call)
  | enterModule (name : String) (imports : List Import)
  | enterScope (scope : ScopeId)
  | record (scope : ScopeId) (symbol : Symbol) (d : Definition)
  | implement (c : Symbol) (t : Ty)
  | addCase (scope : ScopeId) (symbol : Symbol) (c : Case)
  | addDependency (scope : ScopeId) (symbol : Symbol)
  | reserveSymbol (scope : ScopeId) (nestings : List String)
  | signature (scope : ScopeId) (symbol : Symbol)

/-- The scopes after an operation; a definition that fails leaves them as they are. -/
def perform (s : Scopes) : Operation → Scopes
  | .types call => { s with store := (s.store.call call).2 }
  | .enterModule name imports => (s.enterModule name imports).2
  | .enterScope scope => (s.enterScope scope).2
  | .record scope symbol d =>
    match s.record scope symbol d with
    | .ok s' => s'
    | .error _ => s
  | .implement c t => s.implement c t
  | .addCase scope symbol c => s.addCase scope symbol c
  | .addDependency scope symbol => s.addDependency scope symbol
  | .reserveSymbol scope nestings => (s.reserveSymbol scope nestings).2
  | .signature scope symbol =>
    match s.signature? scope symbol with
    | some (_, s') => s'
    | none => s

/-- The scope an operation is called on. -/
def Operation.scope? : Operation → Option ScopeId
  | .types _ | .enterModule _ _ | .implement _ _ => none
  | .enterScope scope => some scope
  | .record scope _ _ => some scope
  | .addCase scope _ _ => some scope
  | .addDependency scope _ => some scope
  | .reserveSymbol scope _ => some scope
  | .signature scope _ => some scope

/-- Scopes that are reached from the root alone by operations on scopes that exist. -/
inductive Reachable (index : Index) (options : Options) : Scopes → Prop
  | new : Reachable index options (.new index options)
  | perform {s : Scopes} (hs : Reachable index options s) (op : Operation)
      (hop : ∀ scope ∈ op.scope?, scope < s.frames.length) : Reachable index options (s.perform op)

/-- Operations on scopes that exist lead from `s` to the other scopes. -/
inductive LeadsTo (s : Scopes) : Scopes → Prop
  | refl : LeadsTo s s
  | perform {s' : Scopes} (hs : LeadsTo s s') (op : Operation)
      (hop : ∀ scope ∈ op.scope?, scope < s'.frames.length) : LeadsTo s (s'.perform op)

theorem Reachable.leadsTo {index : Index} {options : Options} {s s' : Scopes}
    (h : Reachable index options s) (hrun : s.LeadsTo s') : Reachable index options s' := by
  induction hrun with
  | refl => exact h
  | perform _ op hop ih => exact ih.perform op hop

end Scopes

/-! ### Operations of the walk -/

namespace Checker

/-- What can be done during the walk, apart from enclosing a body; `scopes` is an operation on the
scopes that does not move the current one. -/
inductive Operation where
  | scopes (op : Scopes.Operation)
  | report (cause : Cause) (span : Span)
  | enterModule (name : String) (imports : List Import)
  | enterScope
  | leaveScope
  | reserveType
  | unifyOrReport (expected actual : Ty) (span : Span)
  | reference (symbol : Symbol) (span : Span)
  | checkCapture (symbol : Symbol) (t : Ty) (argument : String) (span : Span)
  | checkContexts (t : Ty) (span : Span)
  | qualifyOrReport (symbol : Symbol) (span : Span)
  | qualifyTypeOrReport (t : Ty) (span : Span)

def perform (c : Checker) : Operation → Checker
  | .scopes op => { c with scopes := c.scopes.perform op }
  | .report cause span => c.report cause span
  | .enterModule name imports => c.enterModule name imports
  | .enterScope => c.enterScope
  | .leaveScope => c.leaveScope
  | .reserveType => c.reserveType.2
  | .unifyOrReport expected actual span => (c.unifyOrReport expected actual span).2
  | .reference symbol span => (c.reference symbol span).2
  | .checkCapture symbol t argument span => (c.checkCapture symbol t argument span).2
  | .checkContexts t span => c.checkContexts t span
  | .qualifyOrReport symbol span => (c.qualifyOrReport symbol span).2
  | .qualifyTypeOrReport t span => (c.qualifyTypeOrReport t span).2

/-! ### Runs -/

/-- A run of allowed operations and of enclosed bodies, which are such runs themselves. -/
inductive Walk (allowed : Operation → Prop) : Checker → Checker → Prop
  | done (c : Checker) : Walk allowed c c
  | step {c c' : Checker} (op : Operation) (hop : allowed op) (hrest : Walk allowed (c.perform op) c') :
      Walk allowed c c'
  | enclose {α : Type} {c c' : Checker} (arguments : List Ty) (body : Checker → α × Checker)
      (hbody : Walk allowed (c.pinned arguments) (body (c.pinned arguments)).2)
      (hrest : Walk allowed (c.enclose arguments body).2 c') : Walk allowed c c'

/-- A run that may stop anywhere, also inside of bodies that are not run to their end. -/
inductive Visits (allowed : Operation → Prop) : Checker → Checker → Prop
  | here (c : Checker) : Visits allowed c c
  | step {c c' : Checker} (op : Operation) (hop : allowed op)
      (hrest : Visits allowed (c.perform op) c') : Visits allowed c c'
  | enclose {α : Type} {c c' : Checker} (arguments : List Ty) (body : Checker → α × Checker)
      (hbody : Walk allowed (c.pinned arguments) (body (c.pinned arguments)).2)
      (hrest : Visits allowed (c.enclose arguments body).2 c') : Visits allowed c c'
  | inside {c c' : Checker} (arguments : List Ty) (hrest : Visits allowed (c.pinned arguments) c') :
      Visits allowed c c'

end Checker

end TypeEngine
