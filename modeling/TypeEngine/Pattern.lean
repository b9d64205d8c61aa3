import TypeEngine.Diagnostic

/-! # Pattern cases

A definition by equations consists of cases; a case has one pattern for each argument. Cases are
drafted field by field, and a draft is complete when no field is missing. -/

namespace TypeEngine

/-! ### Patterns -/

/-- What a pattern does with its argument. A capture or a comparison may know the name of the
argument it reads. -/
inductive PatternForm where
  /-- Binds the argument to a name. -/
  | capture (argument : Option String) (symbol : Symbol)
  /-- Compares the argument with a constant. -/
  | equal (argument : Option String) (value : Symbol)
  /-- Takes any argument. -/
  | ignore
deriving DecidableEq

/-- A pattern for one argument. -/
structure Pattern where
  span : Span
  form : PatternForm
  ty : Ty
deriving DecidableEq

namespace Pattern

/-- The name of the argument the pattern reads, if it reads one and knows its name. -/
def argument (p : Pattern) : Option String :=
  match p.form with
  | .capture argument _ => argument
  | .equal argument _ => argument
  | .ignore => none

def withType (p : Pattern) (t : Ty) : Pattern := { p with ty := t }

/-- Sets the name of the argument; a pattern that takes any argument reads none. -/
def withArgument (p : Pattern) (name : String) : Pattern :=
  match p.form with
  | .capture _ s => { p with form := .capture (some name) s }
  | .equal _ v => { p with form := .equal (some name) v }
  | .ignore => p

end Pattern

/-! ### Cases -/

/-- One equation of a definition. -/
structure Case where
  span : Span
  symbol : Symbol
  patterns : List Pattern
  body : Ty
deriving DecidableEq

namespace Case

def arity (c : Case) : Nat := c.patterns.length

/-- The curried type of the equation: the types of its patterns, then that of its body. -/
def ty (c : Case) : Ty := .curried (c.patterns.map (·.ty)) c.body

end Case

/-- The cases of each symbol; symbols in order of their first case, cases in order of arrival. -/
abbrev CaseTable := List (Symbol × List Case)

/-- Adds a case at the end of the cases of its symbol. -/
def CaseTable.add (symbol : Symbol) (c : Case) : CaseTable → CaseTable
  | [] => [(symbol, [c])]
  | (s, cs) :: rest =>
    if s = symbol then (s, cs ++ [c]) :: rest else (s, cs) :: CaseTable.add symbol c rest

/-! ### Drafts -/

/-- A case of which some fields may still be missing. -/
structure CaseDraft where
  span : Option Span
  symbol : Option Symbol
  patterns : Option (List Pattern)
  body : Option Ty
deriving DecidableEq

/-- The fields an incomplete draft is missing. -/
structure MissingFields where
  fields : List String
deriving DecidableEq

def MissingFields.message (m : MissingFields) : String :=
  "pattern case is missing required fields: " ++ ", ".intercalate m.fields

namespace CaseDraft

def empty : CaseDraft := ⟨none, none, none, none⟩

def withSpan (d : CaseDraft) (span : Span) : CaseDraft := { d with span := some span }

def withSymbol (d : CaseDraft) (symbol : Symbol) : CaseDraft := { d with symbol := some symbol }

/-- Sets the patterns, in place of those already given. -/
def withPatterns (d : CaseDraft) (patterns : List Pattern) : CaseDraft :=
  { d with patterns := some patterns }

def withBody (d : CaseDraft) (body : Ty) : CaseDraft := { d with body := some body }

/-- Adds a pattern after those already given. -/
def addPattern (d : CaseDraft) (p : Pattern) : CaseDraft :=
  { d with patterns := some (d.patterns.getD [] ++ [p]) }

/-- The names of the missing fields, in the order of the fields. -/
def missing (d : CaseDraft) : List String :=
  (if d.span.isNone then ["span"] else []) ++ (if d.symbol.isNone then ["symbol"] else []) ++
    (if d.patterns.isNone then ["matches"] else []) ++ (if d.body.isNone then ["body type"] else [])

/-- The case, if no field is missing. -/
def build (d : CaseDraft) : Except MissingFields Case :=
  match d.span, d.symbol, d.patterns, d.body with
  | some span, some symbol, some patterns, some body => .ok ⟨span, symbol, patterns, body⟩
  | _, _, _, _ => .error ⟨d.missing⟩

end CaseDraft

end TypeEngine
