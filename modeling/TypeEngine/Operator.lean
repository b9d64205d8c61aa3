/-! # Operators -/

namespace TypeEngine

/-- Where an operator stands and how it groups. -/
inductive Fixity where
  | leftInfix
  | rightInfix
  | prefixed
deriving DecidableEq

/-- An operator; a higher precedence binds tighter. -/
structure Operator where
  fixity : Fixity
  precedence : Nat
deriving DecidableEq

def Fixity.keyword : Fixity → String
  | .leftInfix => "left infix"
  | .rightInfix => "right infix"
  | .prefixed => "prefix"

namespace Operator

def isLeftAssociative (o : Operator) : Bool := o.fixity == .leftInfix

def isPrefixed (o : Operator) : Bool := o.fixity == .prefixed

def isBetween (o : Operator) : Bool := !o.isPrefixed

def hasSamePrecedence (o p : Operator) : Bool := o.precedence == p.precedence

def hasLessPrecedence (o p : Operator) : Bool := o.precedence < p.precedence

/-- An operator `p` on the left is reduced before `o` is pushed. -/
def yieldsTo (o p : Operator) : Bool :=
  (o.isLeftAssociative && o.hasSamePrecedence p) || o.hasLessPrecedence p

def text (o : Operator) : String := o.fixity.keyword ++ " " ++ toString o.precedence

end Operator

end TypeEngine
