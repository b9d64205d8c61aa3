import TypeEngine.Store.Resolution

/-! # Pins and instantiation

A variable is generic unless it is pinned, or occurs in what a pinned variable stands for. Pins are
counted, so that regions can be nested. Instantiating a type replaces its generic variables by fresh
ones, a single fresh variable for all occurrences of a name. -/

namespace TypeEngine

/-- Pins a name once more. -/
def Pins.add (p : Pins) (name : String) : Pins := p.insert name (p.getD name 0 + 1)

/-- Takes one pin of a name away; a name without a pin is left alone. -/
def Pins.remove (p : Pins) (name : String) : Pins :=
  match p[name]? with
  | none => p
  | some n => if n - 1 = 0 then p.erase name else p.insert name (n - 1)

@[simp] theorem Pins.getD_add (p : Pins) (name other : String) :
    (p.add name).getD other 0 = p.getD other 0 + if name = other then 1 else 0 := by
  by_cases h : name = other
  · subst h
    simp [Pins.add]
  · simp [Pins.add, Std.ExtTreeMap.getD_insert, h]

@[simp] theorem Pins.getD_remove (p : Pins) (name other : String) :
    (p.remove name).getD other 0 = p.getD other 0 - if name = other then 1 else 0 := by
  unfold Pins.remove
  by_cases h : name = other
  · subst h
    cases hn : p[name]? with
    | none => simp [Std.ExtTreeMap.getD_eq_getD_getElem?, hn]
    | some n =>
      by_cases hz : n - 1 = 0 <;> simp [hz, Std.ExtTreeMap.getD_eq_getD_getElem?, hn]
  · cases hn : p[name]? with
    | none => simp [h]
    | some n =>
      by_cases hz : n - 1 = 0
      · simp [hz, Std.ExtTreeMap.getD_erase, h]
      · simp [hz, Std.ExtTreeMap.getD_insert, h]

namespace Store

/-! ### Pins -/

/-- The names that belong to a region over `t`: the variables written in it, and then those it
resolves to. -/
def regionNames (s : Store) (t : Ty) : List String :=
  t.freeNames ++ (s.resolve t).freeNames.filter (· ∉ t.freeNames)

/-- Pins the variables of `t` and returns their names. -/
def pin (s : Store) (t : Ty) : List String × Store :=
  (s.regionNames t, { s with pins := (s.regionNames t).foldl Pins.add s.pins })

/-- Takes one pin of each name away. -/
def unpin (s : Store) (names : List String) : Store :=
  { s with pins := names.foldl Pins.remove s.pins }

/-- Takes one pin of the variables of `t` away, as far as they still belong to it. -/
def unpinType (s : Store) (t : Ty) : Store := s.unpin (s.regionNames t)

/-- The names that must not be generalized: the pinned ones and those they resolve to. -/
def fixedNames (s : Store) : List String :=
  s.pins.keys.flatMap fun name => name :: (s.resolve (.var (.ofName name))).freeNames

def isGeneric (s : Store) (name : String) : Bool := !s.fixedNames.contains name

/-! ### Instantiation -/

/-- The generic variables of a type, in order of first occurrence. -/
def genericVars (s : Store) (t : Ty) : List TyVar := t.freeVars.filter fun v => s.isGeneric v.name

/-- Numbers the variables `generic` from the counter on, and replaces a variable by the fresh one of
its number, which takes over the demands. Other variables stay. -/
def freshen (s : Store) (generic : List TyVar) (v : TyVar) : TyVar :=
  match (generic.zipIdx s.counter).find? fun p => p.1.name == v.name with
  | some (w, n) => ⟨s.freshName n, w.context⟩
  | none => v

/-- A copy of a type for one use: its generic variables are replaced by fresh ones. -/
def instantiate (s : Store) (t : Ty) : Ty × Store :=
  let generic := s.genericVars (s.resolve t)
  ((s.resolve t).subst fun v => .var (s.freshen generic v),
    { s with counter := s.counter + generic.length })

end Store

end TypeEngine
