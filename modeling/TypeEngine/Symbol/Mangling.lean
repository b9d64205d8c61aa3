import TypeEngine.Symbol

/-! # Names for the virtual machine

Class and method names may not hold operator characters. Each such character is spelled as a
dollar sign and a word, and a dollar sign as two of them, so that a spelled name can be read back:
no word is the beginning of another. -/

namespace TypeEngine

/-- The word that stands for an operator character after the dollar sign. -/
def spelling : Char → Option String
  | '+' => some "plus"
  | '-' => some "minus"
  | '*' => some "times"
  | '/' => some "div"
  | '=' => some "eq"
  | '<' => some "less"
  | '>' => some "greater"
  | '!' => some "bang"
  | '?' => some "qmark"
  | '.' => some "dot"
  | ':' => some "colon"
  | '&' => some "amp"
  | '|' => some "bar"
  | '#' => some "hash"
  | '%' => some "percent"
  | '^' => some "up"
  | '~' => some "tilde"
  | '@' => some "at"
  | '\\' => some "bslash"
  | '$' => some "$"
  | _ => none

/-- One character of a name, spelled out if it has a spelling. -/
def mangleChar (c : Char) : List Char :=
  match spelling c with
  | some word => '$' :: word.toList
  | none => [c]

/-- A name with every operator character spelled out. -/
def mangle (name : String) : String := String.ofList (name.toList.flatMap mangleChar)

@[simp] theorem toList_mangle (name : String) :
    (mangle name).toList = name.toList.flatMap mangleChar := by
  simp [mangle]

/-- The path of a module: its name with slashes for dots. -/
def modulePath (module : String) : String :=
  String.ofList (module.toList.map fun c => if c = '.' then '/' else c)

namespace Symbol

/-- The class that stands behind a data type. -/
def className : Symbol → String
  | .qualified owner name => modulePath owner ++ "/" ++ mangle name
  | .unqualified name => mangle name

/-- The class that holds the values of the symbol's module. -/
def moduleClass : Symbol → String
  | .qualified owner _ => modulePath owner ++ "/ScotchModule"
  | .unqualified _ => "ScotchModule"

/-- The simple name as a method name. -/
def methodName (s : Symbol) : String := mangle s.simpleName

end Symbol

end TypeEngine
