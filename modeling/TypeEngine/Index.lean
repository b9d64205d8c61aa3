import TypeEngine.Entry

/-! # The index of a program

The index knows every symbol and every instance compiled outside the current unit. Instances are
kept by class, in the order in which they were registered. -/

namespace TypeEngine

/-- Symbols with their entries, and the instances of each class in order of registration. -/
structure Index where
  entries : Std.ExtTreeMap Symbol Entry compare
  instances : Std.ExtTreeMap Symbol (List Instance) compare

namespace Index

def empty : Index := ⟨∅, ∅⟩

/-! ### Registration -/

/-- Adds the entry of its symbol, in place of an earlier one. -/
def define (i : Index) (e : Entry) : Index := { i with entries := i.entries.insert e.symbol e }

def defineInstance (i : Index) (d : Instance) : Index :=
  { i with instances := i.instances.insert d.typeClass (i.instances.getD d.typeClass [] ++ [d]) }

/-! ### Queries -/

def lookup? (i : Index) (s : Symbol) : Option Entry := i.entries[s]?

@[simp] theorem lookup?_define (i : Index) (e : Entry) (s : Symbol) :
    (i.define e).lookup? s = if e.symbol = s then some e else i.lookup? s := by
  simp [define, lookup?, Std.ExtTreeMap.getElem?_insert]

def isDefined (i : Index) (s : Symbol) : Bool := (i.lookup? s).isSome

/-- The instances of a class in order of registration. -/
def instancesOf (i : Index) (c : Symbol) : List Instance := i.instances.getD c []

@[simp] theorem instancesOf_defineInstance (i : Index) (d : Instance) (c : Symbol) :
    (i.defineInstance d).instancesOf c =
      i.instancesOf c ++ if d.typeClass = c then [d] else [] := by
  by_cases h : d.typeClass = c
  · subst h
    simp [defineInstance, instancesOf]
  · simp [defineInstance, instancesOf, Std.ExtTreeMap.getD_insert, h]

/-- The instances of a class that serve it at the given types. -/
def instancesAt (i : Index) (c : Symbol) (types : List Ty) : List Instance :=
  (i.instancesOf c).filter (·.serves types)

/-- The modules of the defined symbols, in ascending order. -/
def modules (i : Index) : List String :=
  (Std.ExtTreeSet.ofList (i.entries.keys.filterMap (·.owner?)) compare).toList

/-- The symbols defined in a module, in ascending order. -/
def symbolsOf (i : Index) (module : String) : List Symbol := i.entries.keys.filter (·.isFrom module)

/-- The instances a module declares, by class, and within a class in order of registration. -/
def moduleInstances (i : Index) (module : String) : List Instance :=
  i.instances.toList.flatMap fun (_, ds) => ds.filter (·.module == module)

end Index

end TypeEngine
