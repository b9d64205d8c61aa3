import TypeEngine.Store.Binding

/-! # Unification

Unification makes two types equal by binding variables. It works through a list of equations from
the left. Both sides of the first equation are resolved; then the equation holds already, or binds a
variable, or splits into equations between the parts, or cannot hold. Bindings made before a failure
stay in the store.

The work is bounded by the equations themselves. A split makes the resolved equations smaller, a
binding between two variables leaves them of one size, and a binding to a larger type leaves fewer
variables to bind. If the bindings at hand already run in a circle through a larger type, these
bounds may be spent, and the outcome is `UnifyError.endless`. -/

namespace TypeEngine

/-- Two types that are to become equal: the expected one and the actual one. -/
abbrev Equation := Ty × Ty

namespace Ty

mutual

/-- The number of nodes of a type. -/
def size : Ty → Nat
  | .var _ => 1
  | .fn a r => 1 + a.size + r.size
  | .sum _ ts => 1 + sizeAll ts
  | .app h a => 1 + h.size + a.size

/-- The number of nodes of a parameter list. -/
def sizeAll : List Ty → Nat
  | [] => 0
  | t :: ts => t.size + sizeAll ts

end

/-- An application against the named type `head` with parameters `args`: the head of the application
takes the type without as many parameters as there are arguments, and each argument takes one of
those. There is no such split if there are more arguments than parameters. -/
def spread (application : Ty) (head : Symbol) (args : List Ty) : Option (List Equation) :=
  let (root, operands) := application.spine
  if operands.length ≤ args.length then
    let kept := args.length - operands.length
    some ((root, .sum head (args.take kept)) :: operands.zip (args.drop kept))
  else none

end Ty

/-- What one equation between resolved types asks for. -/
inductive Reading where
  /-- Nothing: both sides are the same variable. -/
  | agree
  /-- The variable has to stand for the type. -/
  | bind (v : TyVar) (t : Ty)
  /-- The parts have to be equal, from left to right. -/
  | split (parts : List Equation)
  /-- It cannot hold. -/
  | clash
deriving DecidableEq

/-- Reads an equation between resolved types. Of two variables the actual one is bound. -/
def Reading.of : (expected actual : Ty) → Reading
  | .var v, .var w => if v.name = w.name then .agree else .bind w (.var v)
  | .var v, .fn a r => .bind v (.fn a r)
  | .var v, .sum s ts => .bind v (.sum s ts)
  | .var v, .app h a => .bind v (.app h a)
  | .fn a r, .var v => .bind v (.fn a r)
  | .sum s ts, .var v => .bind v (.sum s ts)
  | .app h a, .var v => .bind v (.app h a)
  | .fn a r, .fn b q => .split [(a, b), (r, q)]
  | .app h a, .app g b => .split [(h, g), (a, b)]
  | .sum s ts, .sum s' us =>
    if s = s' ∧ ts.length = us.length then .split (ts.zip us) else .clash
  | .app h a, .sum s ts =>
    match (Ty.app h a).spread s ts with
    | some parts => .split parts
    | none => .clash
  | .sum s ts, .app h a =>
    match (Ty.app h a).spread s ts with
    | some parts => .split (parts.map Prod.swap)
    | none => .clash
  | .fn _ _, .sum _ _ | .fn _ _, .app _ _ | .sum _ _, .fn _ _ | .app _ _, .fn _ _ => .clash

/-- The outcome of solving equations, with the store it leaves. -/
abbrev Solved := Except UnifyError Unit × Store

namespace Store

/-- The number of nodes of the resolved equations. -/
def weight (s : Store) : List Equation → Nat
  | [] => 0
  | (e, a) :: eqs => (s.resolve e).size + (s.resolve a).size + s.weight eqs

/-- The number of different variables in the resolved equations. -/
def width (s : Store) (eqs : List Equation) : Nat :=
  (TyVar.firstOfEachName (eqs.flatMap fun (e, a) => (s.resolve e).vars ++ (s.resolve a).vars)).length

/-- Gives up on equations that have no end. -/
def giveUp (eqs : List Equation) (s : Store) : Solved :=
  match eqs with
  | [] => (.ok (), s)
  | (e, a) :: _ => (.error (.endless (s.resolve e) (s.resolve a)), s)

/-- Solves equations from the left in at most `n` steps. After a variable was bound to a larger type
the rest is left to `next`. -/
def solveWithin (next : List Equation → Store → Solved) : Nat → List Equation → Store → Solved
  | _, [], s => (.ok (), s)
  | 0, eq :: eqs, s => giveUp (eq :: eqs) s
  | n + 1, (e, a) :: eqs, s =>
    match Reading.of (s.resolve e) (s.resolve a) with
    | .agree => solveWithin next n eqs s
    | .clash => (.error (.mismatch (s.resolve e) (s.resolve a)), s)
    | .split parts => solveWithin next n (parts ++ eqs) s
    | .bind v t =>
      match s.bind v t with
      | .error err => (.error err, s)
      | .ok s' => if t.isVar then solveWithin next n eqs s' else next eqs s'

/-- Solves equations from the left, binding at most `m` variables to larger types. -/
def solveBinding : Nat → List Equation → Store → Solved
  | 0, eqs, s => solveWithin giveUp (s.weight eqs) eqs s
  | m + 1, eqs, s => solveWithin (solveBinding m) (s.weight eqs) eqs s

/-- Solves equations from the left. -/
def solve (s : Store) (eqs : List Equation) : Solved := solveBinding (s.width eqs) eqs s

/-- The side of an equation that its answer is read from: the one that is not a variable, and of an
application and a named type the named type. -/
def answerSide : (expected actual : Ty) → Ty
  | .var v, .var _ => .var v
  | .var _, t => t
  | .app _ _, .sum s ts => .sum s ts
  | t, _ => t

/-- Makes two types equal and answers what both now stand for. Of two resolved types of which one is
a variable, that is the other one; else it is read from the store again. -/
def unify (s : Store) (expected actual : Ty) : Except UnifyError Ty × Store :=
  let e := s.resolve expected
  let a := s.resolve actual
  match s.solve [(expected, actual)] with
  | (.error err, s') => (.error err, s')
  | (.ok (), s') =>
    (.ok (if e.isVar || a.isVar then answerSide e a else s'.resolve (answerSide e a)), s')

end Store

end TypeEngine
