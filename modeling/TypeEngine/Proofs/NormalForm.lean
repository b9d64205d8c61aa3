import TypeEngine.Proofs.ClassRetention
import TypeEngine.Proofs.CycleCheck
import TypeEngine.Proofs.KnownClasses

/-! # Resolved types are normal forms

Resolution can be taken apart into single steps: put in what one bound variable is bound to, give one
unbound variable its recorded classes, collapse one application to a named type. Every step keeps what a
type resolves to (`Acyclic.resolve_eq_of_rewrites`), steps lead from every type to what it resolves to
(`Acyclic.rewrites_resolve`), and none leads on from there (`Acyclic.not_rewrites_resolve`). So one pass
of resolution finds the one normal form of a type. -/

namespace TypeEngine

open Relation

/-- One step of rewriting a type by what the store knows. -/
inductive Store.Rewrites (s : Store) : Ty → Ty → Prop
  | bound {v : TyVar} {t : Ty} (h : s.bindings[v.name]? = some t) : s.Rewrites (.var v) t
  | recorded {v : TyVar} (h : s.bindings[v.name]? = none) (hne : s.annotate v ≠ v) :
      s.Rewrites (.var v) (.var (s.annotate v))
  | collapse {c : Symbol} {ts : List Ty} {a : Ty} :
      s.Rewrites (.app (.sum c ts) a) (.sum c (ts ++ [a]))
  | argument {a a' r : Ty} (h : s.Rewrites a a') : s.Rewrites (.fn a r) (.fn a' r)
  | result {a r r' : Ty} (h : s.Rewrites r r') : s.Rewrites (.fn a r) (.fn a r')
  | param {c : Symbol} {front back : List Ty} {t t' : Ty} (h : s.Rewrites t t') :
      s.Rewrites (.sum c (front ++ t :: back)) (.sum c (front ++ t' :: back))
  | head {g g' a : Ty} (h : s.Rewrites g g') : s.Rewrites (.app g a) (.app g' a)
  | operand {g a a' : Ty} (h : s.Rewrites a a') : s.Rewrites (.app g a) (.app g a')

namespace Store

variable {s : Store} {t u : Ty}

/-! ### A step keeps what a type resolves to -/

theorem annotate_annotate (s : Store) (v : TyVar) : s.annotate (s.annotate v) = s.annotate v :=
  Extends.annotate_annotate ⟨id, id⟩ v

theorem resolve_sum (s : Store) (c : Symbol) (ts : List Ty) :
    s.resolve (.sum c ts) = .sum c (ts.map s.resolve) :=
  Ty.subst_sum _ c ts

theorem resolve_app (s : Store) (g a : Ty) :
    s.resolve (.app g a) = (s.resolve g).apply (s.resolve a) := by
  simp only [resolve, Ty.subst]

theorem Acyclic.resolve_eq_of_rewrites (hs : s.Acyclic) (h : s.Rewrites t u) :
    s.resolve u = s.resolve t := by
  induction h with
  | bound h => exact (hs.resolve_var_of_bound h).symm
  | @recorded v h =>
    rw [resolve_var_of_unbound h, resolve_var_of_unbound (by exact h), annotate_annotate]
  | collapse => rw [resolve_app, resolve_sum, resolve_sum, List.map_append]; rfl
  | argument _ ih => exact congrArg (Ty.fn · _) ih
  | result _ ih => exact congrArg (Ty.fn _) ih
  | param _ ih => simp only [resolve_sum, List.map_append, List.map_cons, ih]
  | head _ ih => rw [resolve_app, resolve_app, ih]
  | operand _ ih => rw [resolve_app, resolve_app, ih]

theorem Acyclic.resolve_eq_of_reduces (hs : s.Acyclic) (h : ReflTransGen s.Rewrites t u) :
    s.resolve u = s.resolve t := by
  induction h with
  | refl => rfl
  | tail _ hstep ih => exact (hs.resolve_eq_of_rewrites hstep).trans ih

/-! ### Steps lead to the resolved type -/

theorem reduces_params {f : Ty → Ty} (c : Symbol) (front : List Ty) {ts : List Ty}
    (h : ∀ t ∈ ts, ReflTransGen s.Rewrites t (f t)) :
    ReflTransGen s.Rewrites (.sum c (front ++ ts)) (.sum c (front ++ ts.map f)) := by
  induction ts generalizing front with
  | nil => exact .refl
  | cons t ts ih =>
    obtain ⟨ht, hts⟩ := List.forall_mem_cons.1 h
    have hfirst : ReflTransGen s.Rewrites (.sum c (front ++ t :: ts)) (.sum c (front ++ f t :: ts)) :=
      ht.lift (fun u => Ty.sum c (front ++ u :: ts)) fun _ _ => Rewrites.param
    have hrest := ih (front ++ [f t]) hts
    simp only [List.append_assoc, List.singleton_append] at hrest
    exact hfirst.trans hrest

theorem reduces_apply (g a : Ty) : ReflTransGen s.Rewrites (.app g a) (g.apply a) := by
  cases g with
  | sum c ts => exact .single .collapse
  | var v => exact .refl
  | fn b r => exact .refl
  | app h b => exact .refl

/-- What can be done with the variables of a type can be done inside of the type. -/
theorem reduces_subst {f : TyVar → Ty} (h : ∀ v ∈ t.vars, ReflTransGen s.Rewrites (.var v) (f v)) :
    ReflTransGen s.Rewrites t (t.subst f) := by
  induction t with
  | var v => exact h v (List.mem_singleton.2 rfl)
  | fn a r iha ihr =>
    simp only [Ty.vars, List.forall_mem_append] at h
    have hargument : ReflTransGen s.Rewrites (.fn a r) (.fn (a.subst f) r) :=
      (iha h.1).lift (Ty.fn · r) fun _ _ => Rewrites.argument
    exact hargument.trans ((ihr h.2).lift (Ty.fn (a.subst f)) fun _ _ => Rewrites.result)
  | sum c ts ih =>
    simp only [Ty.vars, Ty.varsAll_eq, List.mem_flatMap] at h
    rw [Ty.subst_sum]
    exact reduces_params c [] fun t ht => ih t ht fun v hv => h v ⟨t, ht, hv⟩
  | app g a ihg iha =>
    simp only [Ty.vars, List.forall_mem_append] at h
    have hhead : ReflTransGen s.Rewrites (.app g a) (.app (g.subst f) a) :=
      (ihg h.1).lift (Ty.app · a) fun _ _ => Rewrites.head
    have hoperand : ReflTransGen s.Rewrites (.app (g.subst f) a) (.app (g.subst f) (a.subst f)) :=
      (iha h.2).lift (Ty.app (g.subst f)) fun _ _ => Rewrites.operand
    rw [Ty.subst]
    exact (hhead.trans hoperand).trans (reduces_apply _ _)

theorem Acyclic.rewrites_resolve (hs : s.Acyclic) (t : Ty) :
    ReflTransGen s.Rewrites t (s.resolve t) := by
  suffices hvar : ∀ v, ReflTransGen s.Rewrites (.var v) (s.expandAll s.bindings v) from
    reduces_subst fun v _ => hvar v
  intro v
  -- along the bindings: the variables of what `v` is bound to come before `v`
  induction hv : v.name using hs.induction generalizing v with
  | step x ih =>
    subst hv
    cases hb : s.bindings[v.name]? with
    | none =>
      rw [expandAll_of_unbound s hb]
      by_cases hne : s.annotate v = v
      · rw [hne]
      · exact .single (.recorded hb hne)
    | some r =>
      rw [hs.expandAll_of_bound hb]
      refine .head (.bound hb) (reduces_subst fun w hw => ?_)
      exact ih w.name (Bindings.edge_of_mem_vars hb hw) w rfl

/-! ### No step leads on from a resolved type -/

theorem not_rewrites_of_collapsed (ht : t.Collapsed)
    (hvars : ∀ v ∈ t.vars, s.bindings[v.name]? = none ∧ s.annotate v = v) : ¬ s.Rewrites t u := by
  intro h
  induction h with
  | @bound v r h =>
    rw [(hvars v (List.mem_singleton.2 rfl)).1] at h
    cases h
  | @recorded v h hne => exact hne (hvars v (List.mem_singleton.2 rfl)).2
  | collapse => cases ht
  | argument _ ih => exact ih ht.parts.1 fun v hv => hvars v (List.mem_append_left _ hv)
  | result _ ih => exact ih ht.parts.2 fun v hv => hvars v (List.mem_append_right _ hv)
  | @param c front back r _ _ ih =>
    refine ih (ht.param r (by simp)) fun v hv => hvars v ?_
    simp only [Ty.vars, Ty.varsAll_eq, List.mem_flatMap]
    exact ⟨r, by simp, hv⟩
  | head _ ih => exact ih ht.app.1 fun v hv => hvars v (List.mem_append_left _ hv)
  | operand _ ih => exact ih ht.arg fun v hv => hvars v (List.mem_append_right _ hv)

theorem annotate_of_mem_resolve {v : TyVar} (hv : v ∈ (s.resolve t).vars) : s.annotate v = v := by
  have hcontext : (s.annotate v).context = v.context := by
    apply Std.ExtTreeSet.ext_mem
    intro c
    exact TyVar.mem_context_demanding.trans (or_iff_left_of_imp (mem_context_of_recorded hv))
  exact congrArg (TyVar.mk v.name) hcontext

theorem Acyclic.not_rewrites_resolve (hs : s.Acyclic) (t : Ty) : ¬ s.Rewrites (s.resolve t) u := by
  refine not_rewrites_of_collapsed (s.collapsed_resolve t) fun v hv => ⟨?_, annotate_of_mem_resolve hv⟩
  exact hs.unbound_of_mem (Ty.mem_names.2 ⟨v, hv, rfl⟩)

/-- What a type resolves to over acyclic bindings has no bound variable in it, is collapsed, and is
resolved already; collapsing the type first makes no difference. It is the one type that single steps lead
to from the given one and that allows no further step. -/
theorem resolve_is_normal_form (hs : s.Acyclic) (t : Ty) :
    (∀ x ∈ (s.resolve t).names, s.isBound x = false) ∧
      (s.resolve t).flatten = s.resolve t ∧
      s.resolve (s.resolve t) = s.resolve t ∧
      s.resolve t.flatten = s.resolve t ∧
      ∀ u, ReflTransGen s.Rewrites t u ∧ (∀ u', ¬ s.Rewrites u u') ↔ u = s.resolve t := by
  refine ⟨fun x hx => isBound_eq_false_iff.2 (hs.unbound_of_mem hx), s.collapsed_resolve t,
    hs.resolve_idem t, Ty.subst_flatten _ t, fun u => ⟨?_, ?_⟩⟩
  · rintro ⟨hreduces, hnormal⟩
    rcases (hs.rewrites_resolve u).cases_head with heq | ⟨u', hstep, -⟩
    · rw [heq, hs.resolve_eq_of_reduces hreduces]
    · exact absurd hstep (hnormal u')
  · rintro rfl
    exact ⟨hs.rewrites_resolve t, fun u' => hs.not_rewrites_resolve t⟩

/-- `g` is bound to `f Int`, an application that collapses only once `f` is bound to `Either a`, and `Num`
is demanded of `a`. -/
theorem resolve_is_normal_form_collapsing :
    let int := Ty.sum (.unqualified "Int") []
    let either := Ty.sum (.unqualified "Either")
    let num : Symbol := .unqualified "Num"
    let a := Ty.var (.ofName "a")
    let f := Ty.var (.ofName "f")
    let g := Ty.var (.ofName "g")
    let s := (empty "t").callAll [.unify g (.app f int), .demand a {num}, .unify f (either [a])]
    let resolved := either [.var ⟨"a", {num}⟩, int]
    s.Acyclic ∧ s.resolve g = resolved ∧ s.bindings["g"]? = some (.app f int) ∧
      s.resolve (s.resolve g) = s.resolve g ∧ ReflTransGen s.Rewrites g (s.resolve g) ∧
      s.isBound "a" = false := by
  refine ⟨?hs, by decide +kernel, by decide +kernel, (resolve_is_normal_form ?hs _).2.2.1,
    (((resolve_is_normal_form ?hs _).2.2.2.2 _).2 rfl).1,
    (resolve_is_normal_form ?hs (.var (.ofName "g"))).1 "a" (by decide +kernel)⟩
  exact (acyclic_empty "t").acyclic_callAll ⟨nofun, nofun, nofun, trivial⟩

end Store

end TypeEngine
