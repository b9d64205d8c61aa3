import TypeEngine.Symbol

/-! # Types

A type is a variable, a function, a named type with its parameters, or the application of a head
that need not be known yet. Variables are identified by name alone; the context of a variable lists
the classes that whatever stands for it has to implement. The file holds the two types, equality,
the induction principle that reaches into parameter lists, and the views every other file uses: the
occurrences of variables from left to right, and the first occurrence of each name. -/

namespace TypeEngine

/-! ### Variables -/

/-- A type variable: a name, and the classes demanded of what it stands for. -/
structure TyVar where
  name : String
  context : SymbolSet
deriving DecidableEq

namespace TyVar

/-- The variable of this name without demands. -/
def ofName (name : String) : TyVar := ⟨name, ∅⟩

/-- The variable without its demands. -/
def bare (v : TyVar) : TyVar := ofName v.name

/-- The variable with further classes demanded of it. -/
def demanding (v : TyVar) (classes : SymbolSet) : TyVar := { v with context := v.context ∪ classes }

@[simp] theorem name_ofName (name : String) : (ofName name).name = name := rfl

@[simp] theorem name_bare (v : TyVar) : v.bare.name = v.name := rfl

@[simp] theorem name_demanding (v : TyVar) (classes : SymbolSet) :
    (v.demanding classes).name = v.name := rfl

@[simp] theorem mem_context_demanding {v : TyVar} {classes : SymbolSet} {c : Symbol} :
    c ∈ (v.demanding classes).context ↔ c ∈ v.context ∨ c ∈ classes :=
  Std.ExtTreeSet.mem_union_iff

/-- Keeps the first variable of each name. -/
def firstOfEachName : List TyVar → List TyVar
  | [] => []
  | v :: vs => v :: (firstOfEachName vs).filter (fun w => w.name ≠ v.name)

end TyVar

/-! ### Types -/

/-- A type. `sum head args` is the named type `head` applied to `args`; `app head argument` applies
a head that is not known to be a named type. -/
inductive Ty where
  | var (v : TyVar)
  | fn (argument result : Ty)
  | sum (head : Symbol) (args : List Ty)
  | app (head argument : Ty)

namespace Ty

/-- Induction on a type, with the hypothesis for every parameter of a named type. -/
@[elab_as_elim, induction_eliminator]
theorem induct {motive : Ty → Prop} (var : ∀ v, motive (.var v))
    (fn : ∀ a r, motive a → motive r → motive (.fn a r))
    (sum : ∀ s ts, (∀ t ∈ ts, motive t) → motive (.sum s ts))
    (app : ∀ h a, motive h → motive a → motive (.app h a)) (t : Ty) : motive t :=
  @Ty.rec motive (fun ts => ∀ t ∈ ts, motive t) var fn sum app
    (fun _ h => nomatch h)
    (fun _ _ ht hts _ hm => by
      rcases List.mem_cons.1 hm with rfl | hm
      · exact ht
      · exact hts _ hm) t

mutual

/-- Decides equality of types. -/
def decEq : (t u : Ty) → Decidable (t = u)
  | .var v, .var w =>
    if h : v = w then isTrue (by rw [h]) else isFalse (fun e => h (Ty.var.inj e))
  | .fn a r, .fn b q =>
    match decEq a b, decEq r q with
    | isTrue ha, isTrue hr => isTrue (by rw [ha, hr])
    | isFalse ha, _ => isFalse (fun e => ha (Ty.fn.inj e).1)
    | _, isFalse hr => isFalse (fun e => hr (Ty.fn.inj e).2)
  | .sum s ts, .sum s' us =>
    if hs : s = s' then
      match decEqAll ts us with
      | isTrue ht => isTrue (by rw [hs, ht])
      | isFalse ht => isFalse (fun e => ht (Ty.sum.inj e).2)
    else isFalse (fun e => hs (Ty.sum.inj e).1)
  | .app h a, .app g b =>
    match decEq h g, decEq a b with
    | isTrue hh, isTrue ha => isTrue (by rw [hh, ha])
    | isFalse hh, _ => isFalse (fun e => hh (Ty.app.inj e).1)
    | _, isFalse ha => isFalse (fun e => ha (Ty.app.inj e).2)
  | .var _, .fn _ _ | .var _, .sum _ _ | .var _, .app _ _
  | .fn _ _, .var _ | .fn _ _, .sum _ _ | .fn _ _, .app _ _
  | .sum _ _, .var _ | .sum _ _, .fn _ _ | .sum _ _, .app _ _
  | .app _ _, .var _ | .app _ _, .fn _ _ | .app _ _, .sum _ _ => isFalse nofun

/-- Decides equality of parameter lists. -/
def decEqAll : (ts us : List Ty) → Decidable (ts = us)
  | [], [] => isTrue rfl
  | t :: ts, u :: us =>
    match decEq t u, decEqAll ts us with
    | isTrue ht, isTrue hts => isTrue (by rw [ht, hts])
    | isFalse ht, _ => isFalse (fun e => ht (List.cons.inj e).1)
    | _, isFalse hts => isFalse (fun e => hts (List.cons.inj e).2)
  | [], _ :: _ | _ :: _, [] => isFalse nofun

end

instance : DecidableEq Ty := decEq

/-- The curried function type from `args` to `result`. -/
def curried (args : List Ty) (result : Ty) : Ty := args.foldr .fn result

/-- The variable a type is, if it is one. -/
def asVar? : Ty → Option TyVar
  | .var v => some v
  | _ => none

def isVar (t : Ty) : Bool := t.asVar?.isSome

/-- The classes demanded of the type itself: only a variable has any. -/
def context (t : Ty) : SymbolSet :=
  match t.asVar? with
  | some v => v.context
  | none => ∅

/-! ### Occurrences of variables -/

mutual

/-- The occurrences of variables, from left to right. -/
def vars : Ty → List TyVar
  | .var v => [v]
  | .fn a r => a.vars ++ r.vars
  | .sum _ ts => varsAll ts
  | .app h a => h.vars ++ a.vars

/-- The occurrences of variables in a parameter list. -/
def varsAll : List Ty → List TyVar
  | [] => []
  | t :: ts => t.vars ++ varsAll ts

end

@[simp] theorem varsAll_eq (ts : List Ty) : varsAll ts = ts.flatMap vars := by
  induction ts with
  | nil => rfl
  | cons t ts ih => simp [varsAll, ih]

/-- A variable named `name` occurs in the type. -/
def mentions (t : Ty) (name : String) : Bool := t.vars.any (·.name == name)

@[simp] theorem mentions_eq_true_iff {t : Ty} {name : String} :
    t.mentions name = true ↔ ∃ v ∈ t.vars, v.name = name := by
  simp [mentions]

/-- The free variables in order of first occurrence, one for each name. -/
def freeVars (t : Ty) : List TyVar := TyVar.firstOfEachName t.vars

/-- The names of the free variables in order of first occurrence. -/
def freeNames (t : Ty) : List String := t.freeVars.map (·.name)

/-- Every demand of a free variable: its name and the class. -/
def demands (t : Ty) : List (String × Symbol) :=
  t.freeVars.flatMap fun v => v.context.toList.map fun c => (v.name, c)

end Ty

end TypeEngine
