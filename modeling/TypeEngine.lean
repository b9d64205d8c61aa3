import TypeEngine.Alignment
import TypeEngine.Checker
import TypeEngine.Declaration
import TypeEngine.Diagnostic
import TypeEngine.Entry
import TypeEngine.Getter
import TypeEngine.Import
import TypeEngine.Index
import TypeEngine.ModuleGraph
import TypeEngine.Operator
import TypeEngine.Pattern
import TypeEngine.Prelude
import TypeEngine.Proofs.Assignment
import TypeEngine.Proofs.BindingGraph
import TypeEngine.Proofs.ClassRetention
import TypeEngine.Proofs.ConstraintOrder
import TypeEngine.Proofs.ContextCheck
import TypeEngine.Proofs.CopyIsolation
import TypeEngine.Proofs.Correctness
import TypeEngine.Proofs.Equations
import TypeEngine.Proofs.Freshness
import TypeEngine.Proofs.InstanceRetention
import TypeEngine.Proofs.NameFlow
import TypeEngine.Proofs.PinBalance
import TypeEngine.Proofs.Qualification
import TypeEngine.Proofs.Renaming
import TypeEngine.Proofs.Resolution
import TypeEngine.Proofs.ScopeTree
import TypeEngine.Proofs.Solving
import TypeEngine.Proofs.StoreRuns
import TypeEngine.Proofs.Symmetry
import TypeEngine.Proofs.Termination
import TypeEngine.Proofs.UnitRuns
import TypeEngine.Scopes.Basic
import TypeEngine.Scopes.Definition
import TypeEngine.Scopes.Lookup
import TypeEngine.Store.Basic
import TypeEngine.Store.Binding
import TypeEngine.Store.Classes
import TypeEngine.Store.Polymorphism
import TypeEngine.Store.Resolution
import TypeEngine.Symbol
import TypeEngine.Symbol.Mangling
import TypeEngine.Text.UpperCase
import TypeEngine.Ty.Basic
import TypeEngine.Ty.Names
import TypeEngine.Ty.Printer
import TypeEngine.Ty.Runtime
import TypeEngine.Ty.Subst
import TypeEngine.Unification
import TypeEngine.UnifyError
import TypeEngine.Proofs.WriteOnce
import TypeEngine.Proofs.Visibility
import TypeEngine.Proofs.ModuleEntry
import TypeEngine.Proofs.KnownClasses
import TypeEngine.Proofs.Ambiguity
import TypeEngine.Proofs.InstanceAgreement
import TypeEngine.Proofs.ModuleLog
import TypeEngine.Proofs.BuildOrder
import TypeEngine.Proofs.ModuleDependencies
import TypeEngine.Proofs.CycleCheck
import TypeEngine.Proofs.NormalForm
import TypeEngine.Proofs.Instantiation
import TypeEngine.Proofs.OccurrenceClasses
import TypeEngine.Proofs.Matching
import TypeEngine.Proofs.SymbolText
import TypeEngine.Proofs.TypeText
import TypeEngine.Proofs.ReservedSymbols
import TypeEngine.Proofs.Flattening
import TypeEngine.Proofs.Registrations
