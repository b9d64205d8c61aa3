import TypeEngine.Ty.Basic

/-! # Names inside a type

The symbols a type mentions: the classes in the contexts of its variables and the heads of its named
types, in the order in which they are written. -/

namespace TypeEngine

namespace Ty

mutual

/-- The symbols of a type from left to right; the classes of a variable in the order of symbols. -/
def symbols : Ty → List Symbol
  | .var v => v.context.toList
  | .fn a r => a.symbols ++ r.symbols
  | .sum s ts => s :: symbolsAll ts
  | .app h a => h.symbols ++ a.symbols

/-- The symbols of a parameter list. -/
def symbolsAll : List Ty → List Symbol
  | [] => []
  | t :: ts => t.symbols ++ symbolsAll ts

end

mutual

/-- Renames every symbol of a type by `f`. -/
def mapSymbols (f : Symbol → Symbol) : Ty → Ty
  | .var v => .var ⟨v.name, .ofList (v.context.toList.map f) compare⟩
  | .fn a r => .fn (a.mapSymbols f) (r.mapSymbols f)
  | .sum s ts => .sum (f s) (mapSymbolsAll f ts)
  | .app h a => .app (h.mapSymbols f) (a.mapSymbols f)

/-- Renames every symbol of a parameter list. -/
def mapSymbolsAll (f : Symbol → Symbol) : List Ty → List Ty
  | [] => []
  | t :: ts => t.mapSymbols f :: mapSymbolsAll f ts

end

@[simp] theorem symbolsAll_eq (ts : List Ty) : symbolsAll ts = ts.flatMap symbols := by
  induction ts with
  | nil => rfl
  | cons t ts ih => simp [symbolsAll, ih]

@[simp] theorem mapSymbolsAll_eq (f : Symbol → Symbol) (ts : List Ty) :
    mapSymbolsAll f ts = ts.map (mapSymbols f) := by
  induction ts with
  | nil => rfl
  | cons t ts ih => simp [mapSymbolsAll, ih]

end Ty

end TypeEngine
