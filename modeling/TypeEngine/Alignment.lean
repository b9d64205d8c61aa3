import TypeEngine.Store.Resolution

/-! # Alignment

Aligning a formal type with an actual one lines up their positions without binding anything: each
variable of the formal type is paired with what stands in its place. Every occurrence of a variable
is on its own. Two named types that are equal up to demands form a single pair. -/

namespace TypeEngine

namespace Ty

mutual

/-- The pairs of positions of a collapsed formal type and a collapsed actual type. -/
def align : (formal actual : Ty) → Option (List (Ty × Ty))
  | .var v, t => some [(.var v, t)]
  | .fn a r, .fn b q =>
    match a.align b, r.align q with
    | some front, some back => some (front ++ back)
    | _, _ => none
  | .sum s ps, .sum s' qs =>
    if (Ty.sum s ps).simplify = (Ty.sum s' qs).simplify then some [(.sum s ps, .sum s' qs)]
    else if s = s' then alignAll ps qs
    else none
  | .app h a, .sum s qs =>
    match qs.getLast? with
    | none => none
    | some q =>
      match h.align (.sum s qs.dropLast), a.align q with
      | some front, some back => some (front ++ back)
      | _, _ => none
  | .app h a, .app g b =>
    match h.align g, a.align b with
    | some front, some back => some (front ++ back)
    | _, _ => none
  | .fn _ _, .var _ | .fn _ _, .sum _ _ | .fn _ _, .app _ _
  | .sum _ _, .var _ | .sum _ _, .fn _ _ | .sum _ _, .app _ _
  | .app _ _, .var _ | .app _ _, .fn _ _ => none

/-- The pairs of positions of two parameter lists of one length. -/
def alignAll : (formals actuals : List Ty) → Option (List (Ty × Ty))
  | [], [] => some []
  | p :: ps, q :: qs =>
    match p.align q, alignAll ps qs with
    | some front, some back => some (front ++ back)
    | _, _ => none
  | [], _ :: _ | _ :: _, [] => none

end

end Ty

/-- The positions of `formal`, simplified, with what `actual` has in their place; `none` where the
two shapes do not line up. -/
def Store.align (s : Store) (formal actual : Ty) : Option (List (Ty × Ty)) :=
  ((s.resolve formal).align (s.resolve actual)).map fun pairs =>
    pairs.map fun (f, a) => (f.simplify, a)

end TypeEngine
