import TypeEngine.Ty.Basic

/-! # Substitution

Replacing variables by types. An application whose head has become a named type collapses into that
type, with the argument as its last parameter, so a substitution always yields a collapsed type.
Collapsing alone (`flatten`) and collapsing without demands (`simplify`) are substitutions too, and
all of them compose by one law, `subst_subst`. -/

namespace TypeEngine

namespace Ty

/-- The application of `head` to `argument`; a named head takes it as its last parameter. -/
def apply : Ty → Ty → Ty
  | .sum s ts, a => .sum s (ts ++ [a])
  | .var v, a => .app (.var v) a
  | .fn b r, a => .app (.fn b r) a
  | .app h b, a => .app (.app h b) a

mutual

/-- Replaces every variable `v` by `f v` and collapses applications to named types. -/
def subst (f : TyVar → Ty) : Ty → Ty
  | .var v => f v
  | .fn a r => .fn (a.subst f) (r.subst f)
  | .sum s ts => .sum s (substAll f ts)
  | .app h a => (h.subst f).apply (a.subst f)

/-- Replaces every variable in a parameter list. -/
def substAll (f : TyVar → Ty) : List Ty → List Ty
  | [] => []
  | t :: ts => t.subst f :: substAll f ts

end

@[simp] theorem substAll_eq (f : TyVar → Ty) (ts : List Ty) : substAll f ts = ts.map (subst f) := by
  induction ts with
  | nil => rfl
  | cons t ts ih => simp [substAll, ih]

/-- The type with every application to a named type collapsed into that type. -/
def flatten (t : Ty) : Ty := t.subst .var

/-- The collapsed type without the demands of its variables: what is left is identity. -/
def simplify (t : Ty) : Ty := t.subst fun v => .var v.bare

/-- The head of a chain of applications and its arguments from left to right. -/
def spine : Ty → Ty × List Ty
  | .app h a => (h.spine.1, h.spine.2 ++ [a])
  | .var v => (.var v, [])
  | .fn a r => (.fn a r, [])
  | .sum s ts => (.sum s ts, [])

/-! ### Laws -/

theorem subst_apply (f : TyVar → Ty) (h a : Ty) :
    (h.apply a).subst f = (h.subst f).apply (a.subst f) := by
  cases h <;> simp [apply, subst]

/-- One substitution after another is the substitution of the results. -/
theorem subst_subst (f g : TyVar → Ty) (t : Ty) :
    (t.subst f).subst g = t.subst fun v => (f v).subst g := by
  induction t with
  | var v => rfl
  | fn a r iha ihr => simp [subst, iha, ihr]
  | sum s ts ih => simpa [subst] using ih
  | app h a ihh iha => simp [subst, subst_apply, ihh, iha]

/-- Substitutions that agree on the variables of a type agree on the type. -/
theorem subst_congr {f g : TyVar → Ty} {t : Ty} (h : ∀ v ∈ t.vars, f v = g v) :
    t.subst f = t.subst g := by
  induction t with
  | var v => simpa [vars, subst] using h
  | fn a r iha ihr =>
    simp only [vars, List.mem_append] at h
    simp [subst, iha fun v hv => h v (.inl hv), ihr fun v hv => h v (.inr hv)]
  | sum s ts ih =>
    simp only [vars, varsAll_eq, List.mem_flatMap] at h
    simpa [subst] using fun t ht => ih t ht fun v hv => h v ⟨t, ht, hv⟩
  | app f' a ihf iha =>
    simp only [vars, List.mem_append] at h
    simp [subst, ihf fun v hv => h v (.inl hv), iha fun v hv => h v (.inr hv)]

/-- The occurrences in an application are those of its head and then those of its argument. -/
theorem vars_apply (h a : Ty) : (h.apply a).vars = h.vars ++ a.vars := by
  cases h <;> simp [apply, vars]

/-- The occurrences after a substitution are those of the replacements, in order. -/
theorem vars_subst (f : TyVar → Ty) (t : Ty) :
    (t.subst f).vars = t.vars.flatMap fun v => (f v).vars := by
  induction t with
  | var v => simp [subst, vars]
  | fn a r iha ihr => simp [subst, vars, iha, ihr]
  | sum s ts ih =>
    simp only [subst, vars, varsAll_eq, substAll_eq, List.flatMap_map, List.flatMap_assoc]
    rw [List.flatMap_def, List.flatMap_def, List.map_congr_left ih]
  | app h a ihh iha => simp [subst, vars, vars_apply, ihh, iha]

end Ty

end TypeEngine
