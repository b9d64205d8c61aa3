import Mathlib.Logic.Equiv.Basic
import TypeEngine.Proofs.Solving

/-! # Stores with the same solutions

Two stores agree when the same assignments respect them. Each of two acyclic stores that agree can
then be read off the other one: a variable that is left unbound in the first stands for a variable in
the second, which in turn stands for it in the first. Exchanging the two names, wherever they differ,
is a bijection of all names, and it turns what any type stands for in one store into what it stands
for in the other. -/

namespace TypeEngine

namespace Ty

/-- The type with its variables renamed. -/
def rename (ρ : String → String) (t : Ty) : Ty := t.subst fun v => .var ⟨ρ v.name, v.context⟩

theorem rename_simplify (ρ : String → String) (t : Ty) :
    t.simplify.rename ρ = t.subst fun v => .var (.ofName (ρ v.name)) :=
  subst_subst _ _ t

/-- Only a variable becomes a variable. -/
theorem exists_var_of_subst_eq_var {f : TyVar → Ty} {t : Ty} {w : TyVar} (h : t.subst f = .var w) :
    ∃ v, t = .var v := by
  cases t with
  | var v => exact ⟨v, rfl⟩
  | fn a r => cases h
  | sum c ts => cases h
  | app g a =>
    rw [subst] at h
    cases hg : g.subst f <;> rw [hg] at h <;> cases h

end Ty

namespace Assignment

theorem value_simplify (θ : Assignment) (t : Ty) : θ.value t.simplify = θ.value t := by
  rw [Ty.simplify, value_subst, value_eq_subst]
  rfl

end Assignment

namespace Store

/-- The same assignments respect both stores. -/
def Agrees (s s' : Store) : Prop := ∀ θ : Assignment, θ.Respects s ↔ θ.Respects s'

theorem Agrees.symm {s s' : Store} (h : s.Agrees s') : s'.Agrees s := fun θ => (h θ).symm

/-- The name of the variable that `x` stands for, and `x` itself if it stands for another type. -/
def standIn (s : Store) (x : String) : String :=
  match (s.resolve (.var (.ofName x))).simplify.asVar? with
  | some v => v.name
  | none => x

theorem standIn_eq {s : Store} {x y : String}
    (h : (s.resolve (.var (.ofName x))).simplify = .var (.ofName y)) : s.standIn x = y := by
  rw [standIn, h]
  rfl

theorem simplify_resolve_var_of_unbound {s : Store} {x : String} (h : s.bindings[x]? = none) :
    (s.resolve (.var (.ofName x))).simplify = .var (.ofName x) := by
  rw [Store.resolve_var_of_unbound (v := .ofName x) h]
  rfl

namespace Agrees

variable {s s' : Store}

theorem value_resolve (h : s.Agrees s') (hs' : s'.Acyclic) (t : Ty) :
    s'.assignment.value (s.resolve t) = (s'.resolve t).simplify := by
  have hrespects : s'.assignment.Respects s := (h _).2 hs'.respects_assignment
  rw [hrespects.value_resolve, value_assignment]

/-- What is left unbound in one store stands for a variable in the other, and back. -/
theorem standIn_spec (h : s.Agrees s') (hs : s.Acyclic) (hs' : s'.Acyclic) {x : String}
    (hx : s.bindings[x]? = none) :
    s'.bindings[s'.standIn x]? = none ∧ s.standIn (s'.standIn x) = x ∧
      (s'.resolve (.var (.ofName x))).simplify = .var (.ofName (s'.standIn x)) := by
  have hback : s.assignment.value (s'.resolve (.var (.ofName x))) = .var (.ofName x) := by
    rw [h.symm.value_resolve hs]
    exact simplify_resolve_var_of_unbound hx
  obtain ⟨v, hv⟩ : ∃ v, s'.resolve (.var (.ofName x)) = .var v := by
    rw [Assignment.value_eq_subst] at hback
    exact Ty.exists_var_of_subst_eq_var hback
  have hthere : (s'.resolve (.var (.ofName x))).simplify = .var (.ofName v.name) := by
    rw [hv]
    rfl
  have hfree : s'.bindings[v.name]? = none := by
    apply hs'.unbound_of_mem (u := .var (.ofName x))
    rw [hv, Ty.names_var]
    exact List.mem_singleton_self _
  rw [standIn_eq hthere]
  rw [hv] at hback
  exact ⟨hfree, standIn_eq hback, hthere⟩

end Agrees

/-! ### The renaming -/

/-- Takes a variable that is unbound in one of two stores to what it stands for in the other. -/
def exchange (s s' : Store) (x : String) : String :=
  if s.bindings[x]? = none then s'.standIn x
  else if s'.bindings[x]? = none then s.standIn x
  else x

theorem exchange_of_unbound {s s' : Store} {x : String} (hx : s.bindings[x]? = none) :
    s.exchange s' x = s'.standIn x := if_pos hx

namespace Agrees

variable {s s' : Store}

theorem exchange_involutive (h : s.Agrees s') (hs : s.Acyclic) (hs' : s'.Acyclic) :
    Function.Involutive (s.exchange s') := by
  intro x
  by_cases hx : s.bindings[x]? = none
  · obtain ⟨hfree, hback, -⟩ := h.standIn_spec hs hs' hx
    rw [exchange_of_unbound hx]
    by_cases hy : s.bindings[s'.standIn x]? = none
    · have hsame : s'.standIn x = x := by
        rw [standIn_eq (simplify_resolve_var_of_unbound hy)] at hback
        exact hback
      rw [exchange_of_unbound hy, hsame, hsame]
    · rw [exchange, if_neg hy, if_pos hfree, hback]
  · by_cases hx' : s'.bindings[x]? = none
    · obtain ⟨hfree, hback, -⟩ := h.symm.standIn_spec hs' hs hx'
      have hy : s.exchange s' x = s.standIn x := by rw [exchange, if_neg hx, if_pos hx']
      rw [hy, exchange_of_unbound hfree, hback]
    · have hy : s.exchange s' x = x := by rw [exchange, if_neg hx, if_neg hx']
      rw [hy, hy]

/-- The bijection of names that turns what types stand for in one of two stores with the same
solutions into what they stand for in the other. -/
def perm (h : s.Agrees s') (hs : s.Acyclic) (hs' : s'.Acyclic) : Equiv.Perm String :=
  (h.exchange_involutive hs hs').toPerm

theorem resolve_var_of_unbound (h : s.Agrees s') (hs : s.Acyclic) (hs' : s'.Acyclic) {x : String}
    (hx : s.bindings[x]? = none) :
    (s'.resolve (.var (.ofName x))).simplify = .var (.ofName (h.perm hs hs' x)) := by
  have hρ : h.perm hs hs' x = s'.standIn x := exchange_of_unbound hx
  rw [hρ]
  exact (h.standIn_spec hs hs' hx).2.2

theorem resolve_eq_rename (h : s.Agrees s') (hs : s.Acyclic) (hs' : s'.Acyclic) (t : Ty) :
    (s'.resolve t).simplify = (s.resolve t).simplify.rename (h.perm hs hs') := by
  rw [← h.value_resolve hs' t, Assignment.value_eq_subst, Ty.rename_simplify]
  apply Ty.subst_congr
  intro v hv
  have hfree : s.bindings[v.name]? = none := hs.unbound_of_mem (Ty.mem_names.2 ⟨v, hv, rfl⟩)
  exact h.resolve_var_of_unbound hs hs' hfree

end Agrees

end Store

end TypeEngine
