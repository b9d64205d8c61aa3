import TypeEngine.Alignment

/-! # Demanded classes and known instances

Classes can be demanded of whatever a type resolves to, and instances can become known. A demand on
a bound variable is unsatisfied when the variable stands for a named type without the instance. -/

namespace TypeEngine

namespace Store

/-! ### Demands -/

/-- Demands the classes of every variable `t` resolves to. -/
def demand (s : Store) (t : Ty) (classes : SymbolSet) : Store :=
  { s with
    demands := (s.resolve t).freeNames.foldl (fun d name => d.add name classes) s.demands }

/-- Every class demanded of the variables `t` resolves to. -/
def classesOf (s : Store) (t : Ty) : SymbolSet :=
  .ofList ((s.resolve t).freeVars.flatMap fun v => v.context.toList) compare

/-! ### Instances -/

/-- Makes an instance of the class known for `head`. -/
def implement (s : Store) (c : Symbol) (head : Ty) : Store :=
  { s with heads := s.heads.insert c (s.heads.getD c [] ++ [head.simplify]) }

/-- The instance head covers the type: a name alone covers every type of that name, and any other
head has to line up. -/
def covers (s : Store) (head t : Ty) : Bool :=
  match head, t with
  | .sum h [], .sum g _ => h == g
  | _, _ => (s.align head t).isSome

/-- An instance of the class is known for `t`. -/
def implements (s : Store) (c : Symbol) (t : Ty) : Bool :=
  (s.heads.getD c []).any fun head => s.covers head (s.resolve t)

/-! ### Unsatisfied demands -/

/-- Adds to `seen` the variables that can be reached from `t`: those that occur in it, and those
reached from what a reached variable is bound to. Each name is listed once, when it is first met, and
its binding is entered then; at most `n` bindings are entered on a path. -/
def reachFrom (s : Store) : Nat → List TyVar → Ty → List TyVar
  | 0, seen, t =>
    t.vars.foldl
      (fun seen v => if seen.any (·.name == v.name) then seen else seen ++ [v]) seen
  | n + 1, seen, t =>
    t.vars.foldl
      (fun seen v =>
        if seen.any (·.name == v.name) then seen
        else
          match s.bindings[v.name]? with
          | none => seen ++ [v]
          | some u => s.reachFrom n (seen ++ [v]) u) seen

/-- The variables reached from `t`, in the order in which they are met. -/
def reachable (s : Store) (t : Ty) : List TyVar := s.reachFrom s.bindings.size [] t

/-- The demands on one variable that the named type it stands for does not satisfy. -/
def unsatisfiedAt (s : Store) (v : TyVar) : List (Symbol × Ty) :=
  match s.bindings[v.name]? with
  | none => []
  | some u =>
    match s.resolve u with
    | .sum h ts =>
      ((s.annotate v).context.toList.filter fun c => !s.implements c (.sum h ts)).map
        fun c => (c, .sum h ts)
    | _ => []

/-- The classes demanded of variables reached from `t` that the named types they stand for do not
implement; each class and type once. -/
def unsatisfied (s : Store) (t : Ty) : List (Symbol × Ty) :=
  ((s.reachable t).flatMap s.unsatisfiedAt).eraseDups

end Store

/-! ### Laws -/

theorem nodup_eraseDups {α : Type} [BEq α] [LawfulBEq α] : ∀ xs : List α, xs.eraseDups.Nodup
  | [] => by simp
  | x :: xs => by
    rw [List.eraseDups_cons, List.nodup_cons]
    refine ⟨fun h => ?_, nodup_eraseDups _⟩
    simpa using List.mem_eraseDups.1 h
termination_by xs => xs.length
decreasing_by exact Nat.lt_succ_of_le (List.length_filter_le _ _)

theorem Store.nodup_unsatisfied (s : Store) (t : Ty) : (s.unsatisfied t).Nodup := nodup_eraseDups _

end TypeEngine
