import TypeEngine.Proofs.KnownClasses

/-! # Instances of the unit and of the index

An instance is known in the unit by its simplified head, and in the index by its parameters. Which variables
stand in a head makes no difference (`Ty.fits_mapVars_left`), so without bindings both go by whether head and
type line up, with one exception: in the unit a head that is a name alone also covers the types that apply the
name to something (`Store.covers_simplify_iff`), and these never line up with it. -/

namespace TypeEngine

namespace Ty

/-- The head is a name alone, and the type applies this name to something. -/
def AppliesBare (head t : Ty) : Prop :=
  ∃ c q qs, head.flatten = .sum c [] ∧ t.flatten = .sum c (q :: qs)

/-- Putting variables in for the variables of the formal type changes nothing. -/
theorem fits_mapVars_left {t u : Ty} (ht : t.Collapsed) (hu : u.Collapsed) (f : TyVar → TyVar) :
    (t.mapVars f).Fits u ↔ t.Fits u := by
  induction t generalizing u with
  | var v => exact iff_of_true (fits_var _ u) (fits_var _ u)
  | fn a r iha ihr =>
    rw [mapVars_fn, fits_fn, fits_fn]
    refine exists_congr fun b => exists_congr fun q => and_congr_right fun hsame => ?_
    subst hsame
    rw [iha ht.parts.1 hu.parts.1, ihr ht.parts.2 hu.parts.2]
  | sum c ps ih =>
    have hmap := collapsed_mapVars f (.sum c ps)
    rw [mapVars_sum] at hmap ⊢
    rw [hmap.fits_sum_iff hu, ht.fits_sum_iff hu]
    refine exists_congr fun qs => and_congr_right fun hsame => ?_
    subst hsame
    have hparams : ∀ p ∈ ps, ∀ q ∈ qs, (p.mapVars f).Fits q ↔ p.Fits q :=
      fun p hp q hq => ih p hp (ht.param p hp) (hu.param q hq)
    rw [List.forall₂_map_left_iff]
    exact ⟨fun h => forall₂_imp_of_mem h fun p hp q hq => (hparams p hp q hq).1,
      fun h => forall₂_imp_of_mem h fun p hp q hq => (hparams p hp q hq).2⟩
  | app g a ihg iha =>
    rw [ht.app.2, fits_app, fits_app]
    refine or_congr ?_ ?_
    · refine exists_congr fun d => exists_congr fun qs => exists_congr fun q => and_congr_right fun hsame => ?_
      subst hsame
      rw [ihg ht.app.1 hu.init.1, iha ht.arg hu.init.2]
    · refine exists_congr fun k => exists_congr fun b => and_congr_right fun hsame => ?_
      subst hsame
      rw [ihg ht.app.1 hu.app.1, iha ht.arg hu.arg]

theorem fits_mapVars_mapVars {t u : Ty} (f g : TyVar → TyVar) :
    (t.mapVars f).Fits (u.mapVars g) ↔ t.flatten.Fits u.flatten := by
  rw [mapVars, mapVars, ← subst_flatten _ t, ← subst_flatten _ u]
  exact (fits_mapVars_left (collapsed_flatten t) (collapsed_mapVars g _) f).trans
    (fits_mapVars (collapsed_flatten t) (collapsed_flatten u) g)

theorem flatten_of_mapVars_eq_sum {f : TyVar → TyVar} {t : Ty} {c : Symbol} {ts : List Ty}
    (h : t.mapVars f = .sum c ts) : ∃ us, t.flatten = .sum c us ∧ ts = us.map (mapVars f) := by
  rw [mapVars, ← subst_flatten] at h
  exact (collapsed_flatten t).mapVars_eq_sum h

theorem mapVars_of_flatten_eq_sum {t : Ty} {c : Symbol} {us : List Ty} (h : t.flatten = .sum c us)
    (f : TyVar → TyVar) : t.mapVars f = .sum c (us.map (mapVars f)) := by
  rw [mapVars, ← subst_flatten, h]
  exact mapVars_sum f c us

theorem AppliesBare.not_fits {head t : Ty} (h : head.AppliesBare t) : ¬ head.flatten.Fits t.flatten := by
  obtain ⟨c, q, qs, hhead, ht⟩ := h
  intro hfits
  have hformal := collapsed_flatten head
  have hactual := collapsed_flatten t
  rw [hhead] at hformal hfits
  rw [ht] at hactual hfits
  obtain ⟨qs', hqs, hall⟩ := (hformal.fits_sum_iff hactual).1 hfits
  cases hqs
  cases hall

end Ty

namespace Store

variable {s : Store}

/-- The class is implemented for the type, in the unit or in the index. -/
def Provides (s : Store) (index : Index) (c : Symbol) (t : Ty) : Prop :=
  s.implements c t = true ∨ index.instancesAt c [t] ≠ []

theorem resolve_of_no_bindings (hs : s.bindings = ∅) (t : Ty) : s.resolve t = t.mapVars s.annotate :=
  s.resolve_of_unbound fun x _ => by rw [hs, Std.ExtTreeMap.getElem?_empty]

theorem covers_simplify_iff (hs : s.bindings = ∅) (head t : Ty) :
    s.covers head.simplify (s.resolve t) = true ↔ head.flatten.Fits t.flatten ∨ head.AppliesBare t := by
  have hfits : (s.resolve head.simplify).Fits (s.resolve (s.resolve t)) ↔ head.flatten.Fits t.flatten := by
    simp only [resolve_of_no_bindings hs]
    have hhead : head.simplify.mapVars s.annotate = head.mapVars fun v => s.annotate v.bare :=
      Ty.subst_subst _ _ head
    have ht : (t.mapVars s.annotate).mapVars s.annotate = t.mapVars fun v => s.annotate (s.annotate v) :=
      Ty.subst_subst _ _ t
    rw [hhead, ht, Ty.fits_mapVars_mapVars]
  rw [covers_iff, hfits, resolve_of_no_bindings hs]
  constructor
  · rintro (⟨c, ts, hhead, ht⟩ | h)
    · obtain ⟨us, hhead, hnil⟩ := Ty.flatten_of_mapVars_eq_sum (f := TyVar.bare) hhead
      obtain ⟨ws, ht, -⟩ := Ty.flatten_of_mapVars_eq_sum ht
      rw [List.map_eq_nil_iff.1 hnil.symm] at hhead
      cases ws with
      | nil => exact .inl (by rw [ht, ← hhead]; exact (Ty.collapsed_flatten head).fits_self)
      | cons q qs => exact .inr ⟨c, q, qs, hhead, ht⟩
    · exact .inl h
  · rintro (h | ⟨c, q, qs, hhead, ht⟩)
    · exact .inr h
    · exact .inl ⟨c, _, Ty.mapVars_of_flatten_eq_sum hhead TyVar.bare, Ty.mapVars_of_flatten_eq_sum ht _⟩

theorem implements_implement (s : Store) (c : Symbol) (head t : Ty) :
    (s.implement c head).implements c t = (s.implements c t || s.covers head.simplify (s.resolve t)) := by
  have hheads : (s.implement c head).heads.getD c [] = s.heads.getD c [] ++ [head.simplify] := by
    simp [implement]
  have hcovers : ∀ h, (s.implement c head).covers h ((s.implement c head).resolve t) =
      s.covers h (s.resolve t) := by
    have hresolve : ∀ u, (s.implement c head).resolve u = s.resolve u := resolve_congr rfl rfl
    intro h
    rw [Bool.eq_iff_iff, covers_iff, covers_iff, hresolve, hresolve, hresolve]
  simp only [implements, hheads, hcovers, List.any_append, List.any_cons, List.any_nil, Bool.or_false]

end Store

theorem Index.instancesAt_defineInstance_ne_nil {index : Index} {d : Instance} {types : List Ty} :
    (index.defineInstance d).instancesAt d.typeClass types ≠ [] ↔
      index.instancesAt d.typeClass types ≠ [] ∨ d.serves types = true := by
  cases hserves : d.serves types <;> simp [instancesAt, hserves]

namespace Store

/-- Without bindings, an instance that becomes known in the unit serves the types that it serves from the
index, and if its head is a name alone, also the types that apply this name to something. The unit and the
index agree on all other types, so there the instance can be moved from the one to the other. -/
theorem unit_agrees_with_index_iff {s : Store} (hs : s.bindings = ∅) (module : String) (c : Symbol)
    (head t : Ty) (getter : Getter) :
    let d : Instance := ⟨module, c, [head], getter⟩
    ((s.implement c head).implements c t = true ↔
      s.implements c t = true ∨ d.serves [t] = true ∨ head.AppliesBare t) ∧
    (s.heads.getD c [] = [] →
      (((s.implement c head).implements c t = true ↔ d.serves [t] = true) ↔ ¬ head.AppliesBare t)) ∧
    ∀ index, (s.implement c head).Provides index c t ↔
      s.Provides (index.defineInstance d) c t ∨ head.AppliesBare t := by
  intro d
  have hserves : d.serves [t] = true ↔ head.flatten.Fits t.flatten := by
    rw [Instance.serves_singleton]
    exact ⟨fun ⟨_, hd, hfits⟩ => List.singleton_inj.1 hd ▸ hfits, fun hfits => ⟨head, rfl, hfits⟩⟩
  have hknown : (s.implement c head).implements c t = true ↔
      s.implements c t = true ∨ d.serves [t] = true ∨ head.AppliesBare t := by
    rw [implements_implement, Bool.or_eq_true, covers_simplify_iff hs, hserves]
  refine ⟨hknown, fun hnone => ?_, fun index => ?_⟩
  · have hempty : ¬ s.implements c t = true := by simp [implements, hnone]
    have hbare : head.AppliesBare t → ¬ d.serves [t] = true := fun h => hserves.not.2 h.not_fits
    rw [hknown, or_iff_right hempty, or_iff_left_iff_imp]
    exact ⟨fun h happlies => hbare happlies (h happlies), fun h happlies => absurd happlies h⟩
  · have hindex : (index.defineInstance d).instancesAt c [t] ≠ [] ↔
        index.instancesAt c [t] ≠ [] ∨ d.serves [t] = true := Index.instancesAt_defineInstance_ne_nil
    rw [Provides, Provides, hknown, hindex]
    simp only [or_assoc, or_comm, or_left_comm]

/-- The head `Maybe a` as an application. It serves `Maybe Int` from the unit and from the index, also where
`Num` is demanded of a variable in the type, and it serves neither `Maybe` nor `Int`. -/
theorem unit_agrees_with_index_iff_maybe :
    let eq : Symbol := .unqualified "Eq"
    let a := Ty.var (.ofName "a")
    let int := Ty.sum (.unqualified "Int") []
    let maybe := Ty.sum (.unqualified "Maybe") []
    let s := (empty "t").demand a {.unqualified "Num"}
    let d : Instance := ⟨"m", eq, [.app maybe a], ⟨"m/Maybe", "eq", "()"⟩⟩
    s.bindings = ∅ ∧ s.heads.getD eq [] = [] ∧ ¬ (Ty.app maybe a).AppliesBare (.app maybe int) ∧
      ((s.implement eq (.app maybe a)).implements eq (.app maybe int) = true ↔
        d.serves [.app maybe int] = true) ∧
      d.serves [.app maybe int] = true ∧ d.serves [.app maybe a] = true ∧ d.serves [maybe] = false ∧
      d.serves [int] = false ∧
      ((s.implement eq (.app maybe a)).Provides .empty eq (.app maybe a) ↔
        s.Provides (Index.empty.defineInstance d) eq (.app maybe a) ∨
          (Ty.app maybe a).AppliesBare (.app maybe a)) := by
  intro eq a int maybe s d
  have hs : s.bindings = ∅ := rfl
  have hnone : s.heads.getD eq [] = [] := by decide +kernel
  have hbare : ¬ (Ty.app maybe a).AppliesBare (.app maybe int) := by
    rintro ⟨c, q, qs, hhead, -⟩
    cases hhead
  refine ⟨hs, hnone, hbare, ((unit_agrees_with_index_iff hs "m" eq _ _ _).2.1 hnone).2 hbare, ?_, ?_, ?_, ?_,
    (unit_agrees_with_index_iff hs "m" eq _ _ _).2.2 .empty⟩ <;> decide +kernel

/-- An instance for `Maybe` alone. From the unit it serves `Maybe Int`, and from the index it does not. -/
theorem bare_instance_lost_in_index :
    let functor : Symbol := .unqualified "Functor"
    let maybe := Ty.sum (.unqualified "Maybe")
    let int := Ty.sum (.unqualified "Int") []
    let s := (empty "t").implement functor (maybe [])
    let d : Instance := ⟨"m", functor, [maybe []], ⟨"m/Maybe", "functor", "()"⟩⟩
    s.bindings = ∅ ∧ s.implements functor (maybe [int]) = true ∧ d.serves [maybe [int]] = false ∧
      s.Provides .empty functor (maybe [int]) ∧
      ¬ (empty "t").Provides (Index.empty.defineInstance d) functor (maybe [int]) := by
  refine ⟨rfl, ?hknown, ?_, .inl ?hknown, ?hlost⟩
  case hlost => rintro (h | h) <;> revert h <;> decide +kernel
  all_goals decide +kernel

end Store

end TypeEngine
