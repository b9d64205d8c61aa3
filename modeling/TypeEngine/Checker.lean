import TypeEngine.Scopes.Definition
import TypeEngine.Unification

/-! # The checker

The state of the walk over one unit: its scopes, the current scope, and the diagnostics so far.
Failures of unification and names that are not found are reported, and the walk goes on with a type
that stands in. -/

namespace TypeEngine

/-- The state of the walk. -/
structure Checker where
  scopes : Scopes
  current : ScopeId
  diagnostics : List Diagnostic

/-- Pins the variables of several types, one type after the other, and returns all their names. -/
def Store.pinAll (s : Store) : List Ty → List String × Store
  | [] => ([], s)
  | t :: ts =>
    let (names, s') := s.pin t
    let (rest, s'') := s'.pinAll ts
    (names ++ rest, s'')

namespace Checker

/-- Starts at the root, without diagnostics. -/
def start (scopes : Scopes) : Checker := ⟨scopes, Scopes.root, []⟩

def store (c : Checker) : Store := c.scopes.store

def withStore (c : Checker) (store : Store) : Checker :=
  { c with scopes := { c.scopes with store := store } }

def report (c : Checker) (cause : Cause) (span : Span) : Checker :=
  { c with diagnostics := c.diagnostics ++ [⟨cause, span⟩] }

/-! ### Scopes -/

def enterModule (c : Checker) (name : String) (imports : List Import) : Checker :=
  let (id, scopes) := c.scopes.enterModule name imports
  { c with scopes := scopes, current := id }

def enterScope (c : Checker) : Checker :=
  let (id, scopes) := c.scopes.enterScope c.current
  { c with scopes := scopes, current := id }

def leaveScope (c : Checker) : Checker := { c with current := c.scopes.leaveScope c.current }

/-! ### Types -/

def resolve (c : Checker) (t : Ty) : Ty := c.store.resolve t

/-- Hands out a fresh variable. -/
def reserveType (c : Checker) : Ty × Checker :=
  let (t, store) := c.store.reserve ∅
  (t, c.withStore store)

/-- A copy of a type for one use. -/
def instantiate (c : Checker) (t : Ty) : Ty × Checker :=
  let (copy, store) := c.store.instantiate t
  (copy, c.withStore store)

/-- Makes two types equal. A failure is reported, and the expected type stands in. -/
def unifyOrReport (c : Checker) (expected actual : Ty) (span : Span) : Ty × Checker :=
  match c.store.unify expected actual with
  | (.ok t, store) => (t, c.withStore store)
  | (.error err, store) => (store.resolve expected, (c.withStore store).report (.unequal err) span)

/-- Pins the variables of the arguments. -/
def pinned (c : Checker) (arguments : List Ty) : Checker :=
  c.withStore (c.store.pinAll arguments).2

/-- Runs `body` with the variables of the arguments pinned, and takes these pins away afterwards. -/
def enclose {α : Type} (c : Checker) (arguments : List Ty) (body : Checker → α × Checker) :
    α × Checker :=
  let (result, c') := body (c.pinned arguments)
  (result, c'.withStore (c'.store.unpin (c.store.pinAll arguments).1))

/-! ### Names -/

/-- The type of one use of a value: its signature if it has one, else its type, instantiated. An
unknown symbol is reported and gets a fresh variable. -/
def reference (c : Checker) (symbol : Symbol) (span : Span) : Ty × Checker :=
  match c.scopes.signature? c.current symbol with
  | some (t, scopes) => (t, { c with scopes := scopes })
  | none =>
    match c.scopes.value? c.current symbol with
    | some t => c.instantiate t
    | none => (c.report (.notFound symbol) span).reserveType

/-- The type of a pattern that binds `symbol` to the argument of the given name: the type of that
argument if it is known, and then the value of the symbol. -/
def checkCapture (c : Checker) (symbol : Symbol) (t : Ty) (argument : String) (span : Span) :
    Except ScopeError Ty × Checker :=
  let (checked, c') :=
    match c.scopes.value? c.current (.unqualified argument) with
    | some argumentType => c.unifyOrReport (c.resolve t) argumentType span
    | none => (t, c.report (.notFound (.unqualified argument)) span)
  match c'.scopes.defineValue c.current symbol checked with
  | .error err => (.error err, c')
  | .ok scopes => (.ok checked, { c' with scopes := scopes })

/-- Reports every class demanded of `t` that neither the unit nor the index implements. -/
def checkContexts (c : Checker) (t : Ty) (span : Span) : Checker :=
  ((c.store.unsatisfied t).filter fun (d, u) => (c.scopes.index.instancesAt d [u]).isEmpty).foldl
    (fun c (d, u) => c.report (.noInstance d u) span) c

/-- The imports that resolve a name without an owner, unless the module itself defines it. -/
def ambiguity? (c : Checker) (symbol : Symbol) : Option Cause :=
  match symbol with
  | .qualified _ _ => none
  | .unqualified name =>
    let shadowed := (c.scopes.qualifyCurrent c.current symbol).any fun q =>
      c.scopes.qualify c.current symbol == some q
    let candidates := c.scopes.candidates c.current name
    if !shadowed && candidates.length > 1 then some (.ambiguous name candidates) else none

/-- Reports an ambiguous name, if that is asked for. -/
def reportAmbiguity (c : Checker) (symbol : Symbol) (span : Span) : Checker :=
  if c.scopes.options.reportAmbiguous then
    match c.ambiguity? symbol with
    | some cause => c.report cause span
    | none => c
  else c

/-- Qualifies a symbol; one that cannot be is reported and stays as it is written. -/
def qualifyOrReport (c : Checker) (symbol : Symbol) (span : Span) : Symbol × Checker :=
  let c' := c.reportAmbiguity symbol span
  match c'.scopes.qualify c'.current symbol with
  | some q => (q, c')
  | none => (symbol, c'.report (.notFound symbol) span)

/-- Qualifies the symbols of a type, and reports those that cannot be. -/
def qualifyTypeOrReport (c : Checker) (t : Ty) (span : Span) : Ty × Checker :=
  let (u, ds) := c.scopes.qualifyType c.current t span
  (u, { c with diagnostics := c.diagnostics ++ ds })

/-- The scopes for the next pass, or the diagnostics if there are any. -/
def finish (c : Checker) : Except (List Diagnostic) Scopes :=
  if c.diagnostics.isEmpty then .ok c.scopes else .error c.diagnostics

end Checker

end TypeEngine
