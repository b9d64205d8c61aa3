import TypeEngine.Store.Resolution
import TypeEngine.UnifyError

/-! # Binding a variable

A variable is bound to a type unless it would then occur in what it stands for. Classes demanded of
the variable are recorded, and passed on to the variable it is bound to. -/

namespace TypeEngine

namespace Store

/-- The recorded classes once `v` is bound to `t`: what is demanded of `v` is recorded for `v` and,
if `t` is a variable, for that one too. -/
def demandsAfterBinding (s : Store) (v : TyVar) (t : Ty) : Demands :=
  let required := (s.annotate v).context
  if required.isEmpty then s.demands
  else
    match t.asVar? with
    | some w => (s.demands.add v.name required).add w.name required
    | none => s.demands.add v.name required

/-- Binding `v` to `t` would make `v` occur in what it stands for. -/
def wouldLoop (s : Store) (v : TyVar) (t : Ty) : Bool :=
  t.mentions v.name || (s.resolve t).mentions v.name

/-- Binds `v` to `t`. Binding a variable to itself does nothing. -/
def bind (s : Store) (v : TyVar) (t : Ty) : Except UnifyError Store :=
  if t.asVar?.any (·.name == v.name) then .ok s
  else if s.wouldLoop v t then .error (.circular v t)
  else .ok { s with bindings := s.bindings.insert v.name t, demands := s.demandsAfterBinding v t }

end Store

end TypeEngine
