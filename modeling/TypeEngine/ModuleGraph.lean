import Std.Data.ExtTreeMap
import Std.Data.ExtTreeSet

/-! # The graph of modules

Which modules use which, and the order to build them in: every module after those it uses. The order
is found by walking the graph depth first, modules in ascending order; a module met again on the way
to itself lies on a cycle. -/

namespace TypeEngine

abbrev ModuleSet := Std.ExtTreeSet String compare

/-- For each module, the modules it is related to. -/
abbrev ModuleRelation := Std.ExtTreeMap String ModuleSet compare

/-- Relates `a` to `b`. -/
def ModuleRelation.relate (r : ModuleRelation) (a b : String) : ModuleRelation :=
  r.insert a ((r.getD a ∅).insert b)

/-- Lists the module, related to nothing unless it is listed already. -/
def ModuleRelation.list (r : ModuleRelation) (a : String) : ModuleRelation :=
  r.insert a (r.getD a ∅)

/-- The modules with those they use, and the used modules with those that use them. -/
structure ModuleGraph where
  uses : ModuleRelation
  usedBy : ModuleRelation

namespace ModuleGraph

def empty : ModuleGraph := ⟨∅, ∅⟩

def addModule (g : ModuleGraph) (a : String) : ModuleGraph := { g with uses := g.uses.list a }

/-- Records that `a` uses `b`; that a module uses itself is not recorded. -/
def addEdge (g : ModuleGraph) (a b : String) : ModuleGraph :=
  if a = b then g
  else ⟨(g.uses.list b).relate a b, g.usedBy.relate b a⟩

/-- Puts `a` after the modules it uses, which are put at the end of `done` first. `trail` holds the
modules on the way to `a`, and `r` the modules that are not on it. A module on the trail is an error.
At most `n` modules are entered on a path. -/
def visit : Nat → ModuleRelation → List String → List String → String →
    Except String (List String)
  | 0, _, trail, done, a =>
    if trail.contains a then .error a
    else if done.contains a then .ok done
    else .ok (done ++ [a])
  | n + 1, r, trail, done, a =>
    if trail.contains a then .error a
    else if done.contains a then .ok done
    else
      match ((r.getD a ∅).toList).foldlM (visit n (r.erase a) (a :: trail)) done with
      | .error b => .error b
      | .ok done' => .ok (done' ++ [a])

/-- The modules in an order in which each comes after those it uses, or a module on a cycle. -/
def buildOrder (g : ModuleGraph) : Except String (List String) :=
  g.uses.keys.foldlM (visit g.uses.size g.uses []) []

end ModuleGraph

end TypeEngine
