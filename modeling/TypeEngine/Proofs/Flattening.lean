import TypeEngine.Proofs.KnownClasses

/-! # Flattening decides equality of applications

A named type applied to an argument, and the named type with that argument as its last parameter, are two ways
to write one type. `Ty.Congruent` is the least congruence that identifies them. Every type is congruent to its
flattened form (`Ty.congruent_flatten`), and congruent types have the same flattened form
(`Ty.Congruent.flatten_eq`). Flattening leaves the occurrences of variables as they are (`Ty.vars_flatten`), and
simplifying is flattening and then dropping the demands of the variables (`Ty.simplify_eq_bare`). -/

namespace TypeEngine

namespace Ty

/-! ### The congruence of applications -/

/-- The least congruence in which a named type takes its argument as a last parameter. -/
inductive Congruent : Ty → Ty → Prop
  | collapse (c : Symbol) (ts : List Ty) (a : Ty) : Congruent (.app (.sum c ts) a) (.sum c (ts ++ [a]))
  | refl (t : Ty) : Congruent t t
  | symm {t u : Ty} (h : Congruent t u) : Congruent u t
  | trans {t u w : Ty} (htu : Congruent t u) (huw : Congruent u w) : Congruent t w
  | fn {a b r q : Ty} (hargument : Congruent a b) (hresult : Congruent r q) : Congruent (.fn a r) (.fn b q)
  | sum (c : Symbol) {ts us : List Ty} (h : List.Forall₂ Congruent ts us) : Congruent (.sum c ts) (.sum c us)
  | app {g k a b : Ty} (hhead : Congruent g k) (hargument : Congruent a b) : Congruent (.app g a) (.app k b)

namespace Congruent

variable {t u : Ty}

/-- Every relation closed under the rules holds of congruent types. -/
theorem least {R : Ty → Ty → Prop} (hequivalence : Equivalence R)
    (hcollapse : ∀ c ts a, R (.app (.sum c ts) a) (.sum c (ts ++ [a])))
    (hfn : ∀ {a b r q}, R a b → R r q → R (.fn a r) (.fn b q))
    (hsum : ∀ c {ts us}, List.Forall₂ R ts us → R (.sum c ts) (.sum c us))
    (happ : ∀ {g k a b}, R g k → R a b → R (.app g a) (.app k b)) (h : t.Congruent u) : R t u :=
  -- the second relation is about the parameter lists below the rule for named types
  @Congruent.rec (fun t u _ => R t u) (fun ts us _ => List.Forall₂ R ts us) hcollapse hequivalence.refl
    (fun _ h => hequivalence.symm h) (fun _ _ htu huw => hequivalence.trans htu huw)
    (fun _ _ ha hr => hfn ha hr) (fun c _ _ _ hall => hsum c hall) (fun _ _ hg ha => happ hg ha)
    .nil (fun _ _ ht hts => .cons ht hts) t u h

theorem flatten_eq (h : t.Congruent u) : t.flatten = u.flatten := by
  refine h.least (R := fun t u => t.flatten = u.flatten) ⟨fun _ => rfl, Eq.symm, Eq.trans⟩ ?_ ?_ ?_ ?_
  · intro c ts a
    exact (subst_apply .var (.sum c ts) a).symm
  · intro a b r q ha hr
    exact congrArg₂ Ty.fn ha hr
  · intro c ts us hall
    rw [flatten_sum, flatten_sum, map_eq_map_iff_forall₂.2 hall]
  · intro g k a b hg ha
    exact congrArg₂ Ty.apply hg ha

theorem app_apply (g a : Ty) : (Ty.app g a).Congruent (g.apply a) := by
  cases g with
  | sum c ts => exact .collapse c ts a
  | var v => exact .refl _
  | fn b r => exact .refl _
  | app h b => exact .refl _

end Congruent

theorem congruent_flatten (t : Ty) : t.Congruent t.flatten := by
  induction t with
  | var v => exact .refl _
  | fn a r iha ihr => exact .fn iha ihr
  | sum c ts ih =>
    have hall : List.Forall₂ Congruent ts (ts.map flatten) :=
      List.forall₂_map_right_iff.2 (List.forall₂_same.2 ih)
    rw [flatten_sum]
    exact .sum c hall
  | app g a ihg iha =>
    have hparts : (Ty.app g a).Congruent (.app g.flatten a.flatten) := .app ihg iha
    exact hparts.trans (.app_apply _ _)

theorem flatten_eq_iff_congruent {t u : Ty} : t.flatten = u.flatten ↔ t.Congruent u := by
  constructor
  · intro h
    have hu := (congruent_flatten u).symm
    rw [← h] at hu
    exact (congruent_flatten t).trans hu
  · exact Congruent.flatten_eq

/-! ### Variables under flattening -/

theorem vars_flatten (t : Ty) : t.flatten.vars = t.vars :=
  (vars_subst _ t).trans (List.flatMap_singleton' _)

theorem freeVars_flatten (t : Ty) : t.flatten.freeVars = t.freeVars :=
  congrArg TyVar.firstOfEachName (vars_flatten t)

theorem mentions_flatten (t : Ty) (name : String) : t.flatten.mentions name = t.mentions name := by
  rw [mentions, mentions, vars_flatten]

/-! ### Simplifying -/

mutual

/-- The type as it is, without the demands of its variables. -/
def bare : Ty → Ty
  | .var v => .var v.bare
  | .fn a r => .fn a.bare r.bare
  | .sum c ts => .sum c (bareAll ts)
  | .app g a => .app g.bare a.bare

/-- The parameter list without the demands of its variables. -/
def bareAll : List Ty → List Ty
  | [] => []
  | t :: ts => t.bare :: bareAll ts

end

theorem bareAll_eq (ts : List Ty) : bareAll ts = ts.map bare := by
  induction ts with
  | nil => rfl
  | cons t ts ih => rw [bareAll, ih, List.map_cons]

theorem bare_apply (g a : Ty) : (g.apply a).bare = g.bare.apply a.bare := by
  cases g with
  | sum c ts => simp only [apply, bare, bareAll_eq, List.map_append, List.map_cons, List.map_nil]
  | var v => rfl
  | fn b r => rfl
  | app h b => rfl

theorem bare_subst (f : TyVar → Ty) (t : Ty) : (t.subst f).bare = t.subst fun v => (f v).bare := by
  induction t with
  | var v => rfl
  | fn a r iha ihr => exact congrArg₂ Ty.fn iha ihr
  | sum c ts ih =>
    rw [subst_sum, subst_sum, bare, bareAll_eq, List.map_map]
    exact congrArg (Ty.sum c) (List.map_congr_left ih)
  | app g a ihg iha => rw [subst, bare_apply, ihg, iha, subst]

theorem simplify_eq_bare (t : Ty) : t.simplify = t.flatten.bare := (bare_subst .var t).symm

theorem simplify_simplify (t : Ty) : t.simplify.simplify = t.simplify := subst_subst _ _ t

/-- The type with its parts simplified, each of them flattened anew. -/
def simplifyParts : Ty → Ty
  | .var v => .var v.bare
  | .fn a r => .fn a.simplify r.simplify
  | .sum c ts => .sum c (ts.map simplify)
  | .app g a => .app g.simplify a.simplify

theorem Collapsed.simplify_eq {t : Ty} (h : t.Collapsed) : t.simplify = t.simplifyParts := by
  cases t with
  | var v => rfl
  | fn a r => rfl
  | sum c ts => exact simplify_sum c ts
  | app g a => exact h.app.2 TyVar.bare

/-- Types have the same flattened form exactly if they are congruent. Simplifying is flattening and dropping the
demands, and can be done level by level. Flattening changes neither the free variables nor which variables occur. -/
theorem flatten_decides_congruence (t u : Ty) :
    (t.flatten = u.flatten ↔ t.Congruent u) ∧
      t.flatten.flatten = t.flatten ∧
      t.simplify = t.flatten.bare ∧
      t.simplify = t.flatten.simplifyParts ∧
      t.simplify.simplify = t.simplify ∧
      t.flatten.freeVars = t.freeVars ∧
      ∀ v : TyVar, t.flatten.mentions v.name = t.mentions v.name := by
  have hlevel : t.simplify = t.flatten.simplifyParts :=
    (subst_flatten _ t).symm.trans (collapsed_flatten t).simplify_eq
  exact ⟨flatten_eq_iff_congruent, collapsed_flatten t, simplify_eq_bare t, hlevel, simplify_simplify t,
    freeVars_flatten t, fun v => mentions_flatten t v.name⟩

end Ty

end TypeEngine
