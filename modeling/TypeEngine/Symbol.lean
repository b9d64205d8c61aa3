import Std.Data.ExtTreeSet

/-! # Symbols

A symbol is a name, alone or together with the module that owns it. Only symbols with an owner
identify a definition across modules. This file holds the type, its order, the sets of symbols
ordered by it, and the dotted text form: everything before the last dot is the module, and the one
name that is itself a dot is written after a separating dot. -/

namespace TypeEngine

/-- A name, with the module that owns it or without one. -/
inductive Symbol where
  | qualified (owner name : String)
  | unqualified (name : String)
deriving DecidableEq

namespace Symbol

/-! ### Parts -/

/-- The name without its module. -/
def simpleName : Symbol → String
  | .qualified _ name => name
  | .unqualified name => name

/-- The module that owns the symbol. -/
def owner? : Symbol → Option String
  | .qualified owner _ => some owner
  | .unqualified _ => none

def isQualified (s : Symbol) : Bool := s.owner?.isSome

/-- The symbol is owned by `module`. -/
def isFrom (s : Symbol) (module : String) : Bool := s.owner? == some module

/-- The same simple name, owned by `module`. -/
def qualifyWith (s : Symbol) (module : String) : Symbol := .qualified module s.simpleName

/-- The simple name without an owner. -/
def unqualify (s : Symbol) : Symbol := .unqualified s.simpleName

@[simp] theorem simpleName_qualifyWith (s : Symbol) (module : String) :
    (s.qualifyWith module).simpleName = s.simpleName := rfl

@[simp] theorem owner?_qualifyWith (s : Symbol) (module : String) :
    (s.qualifyWith module).owner? = some module := rfl

@[simp] theorem simpleName_unqualify (s : Symbol) : s.unqualify.simpleName = s.simpleName := rfl

/-! ### Order

Symbols with an owner come before those without one. Two symbols with an owner are ordered by
module and then by name, and texts by code point. -/

/-- The position of the two kinds of symbol in the order. -/
def rank : Symbol → Nat
  | .qualified _ _ => 0
  | .unqualified _ => 1

instance : Ord Symbol where
  compare := compareLex (compareOn rank)
    (compareLex (compareOn (fun s => s.owner?.getD "")) (compareOn simpleName))

instance : Std.TransOrd Symbol :=
  inferInstanceAs (Std.TransCmp (compareLex (compareOn rank)
    (compareLex (compareOn (fun s => s.owner?.getD "")) (compareOn simpleName))))

theorem eq_of_compare_eq {s t : Symbol} (h : compare s t = .eq) : s = t := by
  obtain ⟨hrank, hrest⟩ := compareLex_eq_eq.1 h
  obtain ⟨howner, hname⟩ := compareLex_eq_eq.1 hrest
  have hrank : s.rank = t.rank := Std.LawfulEqOrd.eq_of_compare hrank
  have howner : s.owner?.getD "" = t.owner?.getD "" := Std.LawfulEqOrd.eq_of_compare howner
  have hname : s.simpleName = t.simpleName := Std.LawfulEqOrd.eq_of_compare hname
  cases s <;> cases t <;> simp_all [rank, owner?, simpleName]

instance : Std.LawfulEqOrd Symbol where
  eq_of_compare := eq_of_compare_eq

/-! ### Dotted text -/

/-- The text form: module, a dot, and the name; or the name alone. -/
def text : Symbol → String
  | .qualified owner name => owner ++ "." ++ name
  | .unqualified name => name

/-- What stands before and after the last dot, if there is a dot. -/
def splitAtLastDot : List Char → Option (List Char × List Char)
  | [] => none
  | c :: cs =>
    match splitAtLastDot cs with
    | some (before, after) => some (c :: before, after)
    | none => if c = '.' then some ([], cs) else none

/-- Reads dotted text. A text that ends in two dots names the dot itself, in the module before
them; otherwise the text splits at its last dot. A text with nothing on one side of the split is
a name without an owner. -/
def parse (text : String) : Symbol :=
  match splitAtLastDot text.toList with
  | none => .unqualified text
  | some (before, []) =>
    if before.getLast? = some '.' ∧ before.dropLast ≠ [] then
      .qualified (String.ofList before.dropLast) "."
    else .unqualified text
  | some (before, after) =>
    if before = [] then .unqualified text
    else .qualified (String.ofList before) (String.ofList after)

/-- A text with a dot splits. -/
theorem splitAtLastDot_ne_none {cs : List Char} (h : '.' ∈ cs) : splitAtLastDot cs ≠ none := by
  induction cs with
  | nil => simp at h
  | cons c cs ih =>
    rw [splitAtLastDot]
    cases hs : splitAtLastDot cs with
    | some p => simp
    | none =>
      have hn : '.' ∉ cs := fun hm => ih hm hs
      have hc : c = '.' := by simpa [hn, eq_comm] using h
      simp [hc]

/-- A split loses nothing but the dot between its two sides, and the second side has no dot. -/
theorem splitAtLastDot_eq_some {cs before after : List Char}
    (h : splitAtLastDot cs = some (before, after)) :
    cs = before ++ '.' :: after ∧ '.' ∉ after := by
  induction cs generalizing before after with
  | nil => simp [splitAtLastDot] at h
  | cons c cs ih =>
    rw [splitAtLastDot] at h
    cases hs : splitAtLastDot cs with
    | some p =>
      obtain ⟨b, a⟩ := p
      simp only [hs, Option.some.injEq, Prod.mk.injEq] at h
      obtain ⟨rfl, rfl⟩ := h
      exact ⟨by simp [(ih hs).1], (ih hs).2⟩
    | none =>
      simp only [hs] at h
      split at h
      · rename_i hc
        simp only [Option.some.injEq, Prod.mk.injEq] at h
        obtain ⟨rfl, rfl⟩ := h
        exact ⟨by simp [hc], fun hm => splitAtLastDot_ne_none hm hs⟩
      · simp at h

end Symbol

/-- A finite set of symbols, listed in the order of symbols. -/
abbrev SymbolSet := Std.ExtTreeSet Symbol compare

end TypeEngine
