import TypeEngine.Proofs.InstanceRetention
import TypeEngine.Proofs.UnitRuns

/-! # The known classes of a type and of what it resolves to

The classes known of a type are those demanded of its variables, read through the store, and those of the
imported instances, which are lined up with the type as it is written. What lines up with a type lines up
with everything that is put in for its variables (`Ty.Fits.subst`), so resolving never loses a class. The
converse holds if variables are put in (`Ty.fits_mapVars`), and for nothing else: a type with something put
in for a variable does not line up with the type itself (`Ty.isVar_of_fits_subst`). -/

namespace TypeEngine

namespace Ty

/-! ### Lining up under substitution -/

theorem subst_sum (f : TyVar → Ty) (c : Symbol) (ts : List Ty) :
    (Ty.sum c ts).subst f = .sum c (ts.map (subst f)) := by
  simp only [subst, substAll_eq]

theorem subst_flatten (f : TyVar → Ty) (t : Ty) : t.flatten.subst f = t.subst f :=
  subst_subst _ f t

theorem collapsed_flatten (t : Ty) : t.flatten.Collapsed := collapsed_subst fun _ _ => rfl

theorem collapsed_mapVars (f : TyVar → TyVar) (t : Ty) : (t.mapVars f).Collapsed :=
  collapsed_subst fun _ _ => rfl

theorem collapsed_sum {c : Symbol} {ts : List Ty} (h : ∀ t ∈ ts, t.Collapsed) :
    (Ty.sum c ts).Collapsed := by
  have hts : ts.map flatten = ts := (List.map_congr_left h).trans (List.map_id' ts)
  rw [Collapsed, flatten_sum, hts]

theorem mapVars_eq_fn {f : TyVar → TyVar} {u b q : Ty} (h : u.mapVars f = .fn b q) :
    ∃ b' q', u = .fn b' q' ∧ b = b'.mapVars f ∧ q = q'.mapVars f := by
  cases u with
  | var v => cases h
  | fn b' q' =>
    injection h with hb hq
    exact ⟨b', q', rfl, hb.symm, hq.symm⟩
  | sum c ts => cases h
  | app g a => exact absurd h (apply_ne_fn _ _ _ _)

namespace Collapsed

theorem mapVars_eq_sum {f : TyVar → TyVar} {u : Ty} (hu : u.Collapsed) {c : Symbol} {qs : List Ty}
    (h : u.mapVars f = .sum c qs) : ∃ us, u = .sum c us ∧ qs = us.map (Ty.mapVars f) := by
  cases u with
  | var v => cases h
  | fn b q => cases h
  | sum d us =>
    rw [mapVars_sum] at h
    injection h with hd hus
    exact ⟨us, by rw [hd], hus.symm⟩
  | app g a =>
    rw [hu.app.2] at h
    cases h

theorem mapVars_eq_app {f : TyVar → TyVar} {u g a : Ty} (hu : u.Collapsed) (h : u.mapVars f = .app g a) :
    ∃ g' a', u = .app g' a' ∧ g = g'.mapVars f ∧ a = a'.mapVars f := by
  cases u with
  | var v => cases h
  | fn b q => cases h
  | sum d us =>
    rw [mapVars_sum] at h
    cases h
  | app g' a' =>
    rw [hu.app.2] at h
    injection h with hg ha
    exact ⟨g', a', rfl, hg.symm, ha.symm⟩

theorem init {c : Symbol} {ts : List Ty} {t : Ty} (h : (Ty.sum c (ts ++ [t])).Collapsed) :
    (Ty.sum c ts).Collapsed ∧ t.Collapsed := by
  have hall := List.forall_mem_append.1 h.param
  exact ⟨collapsed_sum hall.1, hall.2 t (List.mem_singleton.2 rfl)⟩

theorem parts {b q : Ty} (h : (Ty.fn b q).Collapsed) : b.Collapsed ∧ q.Collapsed := by
  injection h with hb hq
  exact ⟨hb, hq⟩

end Collapsed

theorem fits_of_simplify_eq {t u : Ty} (ht : t.Collapsed) (hu : u.Collapsed)
    (h : t.simplify = u.simplify) : t.Fits u := by
  induction t generalizing u with
  | var v => exact fits_var v u
  | fn a r iha ihr =>
    obtain ⟨b, q, rfl, hb, hq⟩ := mapVars_eq_fn (f := TyVar.bare) h.symm
    exact fits_fn.2 ⟨b, q, rfl, iha ht.parts.1 hu.parts.1 hb, ihr ht.parts.2 hu.parts.2 hq⟩
  | sum c ps _ =>
    obtain ⟨us, rfl, -⟩ := hu.mapVars_eq_sum (f := TyVar.bare) (h.symm.trans (simplify_sum c ps))
    exact fits_sum.2 ⟨c, us, rfl, .inl h⟩
  | app g a ihg iha =>
    obtain ⟨k, b, rfl, hk, hb⟩ := hu.mapVars_eq_app (f := TyVar.bare) (h.symm.trans (ht.app.2 _))
    exact fits_app.2 (.inr ⟨k, b, rfl, ihg ht.app.1 hu.app.1 hk, iha ht.arg hu.arg hb⟩)

theorem Collapsed.fits_self {t : Ty} (h : t.Collapsed) : t.Fits t := fits_of_simplify_eq h h rfl

/-- Between collapsed types, equality up to demands is no further way for named types to line up. -/
theorem Collapsed.fits_sum_iff {c : Symbol} {ps : List Ty} {u : Ty} (ht : (Ty.sum c ps).Collapsed)
    (hu : u.Collapsed) : (Ty.sum c ps).Fits u ↔ ∃ qs, u = .sum c qs ∧ List.Forall₂ Fits ps qs := by
  rw [fits_sum]
  constructor
  · rintro ⟨d, qs, rfl, hsame | ⟨rfl, hall⟩⟩
    · rw [simplify_sum, simplify_sum] at hsame
      injection hsame with hc hmap
      subst hc
      exact ⟨qs, rfl, forall₂_imp_of_mem (map_eq_map_iff_forall₂.1 hmap) fun p hp q hq hpq =>
        fits_of_simplify_eq (ht.param p hp) (hu.param q hq) hpq⟩
    · exact ⟨qs, rfl, hall⟩
  · rintro ⟨qs, rfl, hall⟩
    exact ⟨c, qs, rfl, .inr ⟨rfl, hall⟩⟩

theorem Fits.apply {h g a b : Ty} (hhead : h.Fits g) (harg : a.Fits b) : (Ty.app h a).Fits (g.apply b) := by
  cases g with
  | sum d qs => exact fits_app.2 (.inl ⟨d, qs, b, rfl, hhead, harg⟩)
  | _ => exact fits_app.2 (.inr ⟨_, b, rfl, hhead, harg⟩)

/-- What lines up with a type lines up with whatever is put in for the variables of that type. -/
theorem Fits.subst {t u : Ty} (h : t.Fits u) (ht : t.Collapsed) (hu : u.Collapsed) (f : TyVar → Ty) :
    t.Fits (u.subst f) := by
  induction t generalizing u with
  | var v => exact fits_var v _
  | fn a r iha ihr =>
    obtain ⟨b, q, rfl, ha, hr⟩ := fits_fn.1 h
    exact fits_fn.2 ⟨_, _, rfl, iha ha ht.parts.1 hu.parts.1, ihr hr ht.parts.2 hu.parts.2⟩
  | sum c ps ih =>
    obtain ⟨qs, rfl, hall⟩ := (ht.fits_sum_iff hu).1 h
    rw [subst_sum]
    refine fits_sum.2 ⟨c, _, rfl, .inr ⟨rfl, List.forall₂_map_right_iff.2 ?_⟩⟩
    exact forall₂_imp_of_mem hall fun p hp q hq hpq => ih p hp hpq (ht.param p hp) (hu.param q hq)
  | app g a ihg iha =>
    rcases fits_app.1 h with ⟨d, qs, q, rfl, hhead, harg⟩ | ⟨k, b, rfl, hhead, harg⟩
    · have hinit := ihg hhead ht.app.1 hu.init.1
      rw [subst_sum] at hinit
      rw [subst_sum, List.map_append]
      exact fits_app.2 (.inl ⟨d, _, _, rfl, hinit, iha harg ht.arg hu.init.2⟩)
    · exact (ihg hhead ht.app.1 hu.app.1).apply (iha harg ht.arg hu.arg)

theorem Fits.of_mapVars {t u : Ty} {f : TyVar → TyVar} (h : t.Fits (u.mapVars f)) (ht : t.Collapsed)
    (hu : u.Collapsed) : t.Fits u := by
  induction t generalizing u with
  | var v => exact fits_var v u
  | fn a r iha ihr =>
    obtain ⟨b, q, hbq, ha, hr⟩ := fits_fn.1 h
    obtain ⟨b, q, rfl, rfl, rfl⟩ := mapVars_eq_fn hbq
    exact fits_fn.2 ⟨b, q, rfl, iha ha ht.parts.1 hu.parts.1, ihr hr ht.parts.2 hu.parts.2⟩
  | sum c ps ih =>
    obtain ⟨qs, hqs, hall⟩ := (ht.fits_sum_iff (collapsed_mapVars f u)).1 h
    obtain ⟨us, rfl, rfl⟩ := hu.mapVars_eq_sum hqs
    refine fits_sum.2 ⟨c, us, rfl, .inr ⟨rfl, ?_⟩⟩
    exact forall₂_imp_of_mem (List.forall₂_map_right_iff.1 hall) fun p hp q hq hpq =>
      ih p hp hpq (ht.param p hp) (hu.param q hq)
  | app g a ihg iha =>
    rcases fits_app.1 h with ⟨d, qs, q, hqs, hhead, harg⟩ | ⟨k, b, hkb, hhead, harg⟩
    · obtain ⟨us, rfl, hus⟩ := hu.mapVars_eq_sum hqs
      obtain ⟨us, w, rfl, rfl, hw⟩ := List.map_eq_append_iff.1 hus.symm
      obtain ⟨w, rfl, rfl⟩ := List.map_eq_singleton_iff.1 hw
      rw [← mapVars_sum] at hhead
      exact fits_app.2 (.inl ⟨d, us, w, rfl, ihg hhead ht.app.1 hu.init.1, iha harg ht.arg hu.init.2⟩)
    · obtain ⟨k, b, rfl, rfl, rfl⟩ := hu.mapVars_eq_app hkb
      exact fits_app.2 (.inr ⟨k, b, rfl, ihg hhead ht.app.1 hu.app.1, iha harg ht.arg hu.arg⟩)

/-- Putting variables in for the variables of the actual type changes nothing. -/
theorem fits_mapVars {t u : Ty} (ht : t.Collapsed) (hu : u.Collapsed) (f : TyVar → TyVar) :
    t.Fits (u.mapVars f) ↔ t.Fits u :=
  ⟨fun h => h.of_mapVars ht hu, fun h => h.subst ht hu _⟩

theorem Fits.isVar {t : Ty} {v : TyVar} (h : t.Fits (.var v)) : t.isVar = true := by
  cases t with
  | var w => rfl
  | fn a r =>
    obtain ⟨b, q, hbq, -⟩ := fits_fn.1 h
    cases hbq
  | sum c ps =>
    obtain ⟨d, qs, hqs, -⟩ := fits_sum.1 h
    cases hqs
  | app g a => rcases fits_app.1 h with ⟨d, qs, q, hqs, -⟩ | ⟨k, b, hkb, -⟩ <;> cases ‹Ty.var v = _›

/-- A type with more than variables put in for its variables is too narrow to line up with itself. -/
theorem isVar_of_fits_subst {f : TyVar → Ty} {t : Ty} (ht : t.Collapsed)
    (hf : ∀ v ∈ t.vars, (f v).Collapsed) (h : (t.subst f).Fits t) : ∀ v ∈ t.vars, (f v).isVar = true := by
  induction t with
  | var w =>
    intro v hv
    obtain rfl := List.mem_singleton.1 hv
    exact h.isVar
  | fn a r iha ihr =>
    obtain ⟨b, q, hbq, ha, hr⟩ := fits_fn.1 h
    cases hbq
    simp only [vars, List.forall_mem_append] at hf ⊢
    exact ⟨iha ht.parts.1 hf.1 ha, ihr ht.parts.2 hf.2 hr⟩
  | sum c ps ih =>
    have hcollapsed := collapsed_subst hf
    rw [subst_sum] at h hcollapsed
    obtain ⟨qs, hqs, hall⟩ := (hcollapsed.fits_sum_iff ht).1 h
    cases hqs
    rw [List.forall₂_map_left_iff, List.forall₂_same] at hall
    simp only [vars, varsAll_eq, List.mem_flatMap] at hf ⊢
    rintro v ⟨p, hp, hv⟩
    exact ih p hp (ht.param p hp) (fun w hw => hf w ⟨p, hp, hw⟩) (hall p hp) v hv
  | app g a ihg iha =>
    have hparts : (g.subst f).Fits g ∧ (a.subst f).Fits a := by
      have happ : ((g.subst f).apply (a.subst f)).Fits (.app g a) := h
      cases hg : g.subst f with
      | sum c ps =>
        rw [hg] at happ
        obtain ⟨d, qs, hqs, -⟩ := fits_sum.1 happ
        cases hqs
      | _ =>
        rw [hg] at happ
        rcases fits_app.1 happ with ⟨d, qs, q, hqs, -⟩ | ⟨k, b, hkb, hhead, harg⟩
        · cases hqs
        · cases hkb
          exact ⟨hhead, harg⟩
    simp only [vars, List.forall_mem_append] at hf ⊢
    exact ⟨ihg ht.app.1 hf.1 hparts.1, iha ht.arg hf.2 hparts.2⟩

end Ty

/-! ### Instances at a type -/

namespace Store

theorem resolve_empty (stem : String) (t : Ty) : (empty stem).resolve t = t.flatten := by
  have hvar : ∀ v, (empty stem).annotate v = v := by
    intro v
    have hcontext : ((empty stem).annotate v).context = v.context := by
      apply Std.ExtTreeSet.ext_mem
      intro c
      simp [annotate, empty]
    exact congrArg (TyVar.mk v.name) hcontext
  rw [resolve_of_unbound _ fun x _ => Std.ExtTreeMap.getElem?_empty]
  simp only [hvar]
  rfl

theorem Acyclic.call_unify {s : Store} (hs : s.Acyclic) (e a : Ty) : (s.call (.unify e a)).2.Acyclic :=
  (hs.precedes_call (c := .unify e a) nofun).acyclic

theorem Acyclic.resolve_idem {s : Store} (hs : s.Acyclic) (t : Ty) :
    s.resolve (s.resolve t) = s.resolve t :=
  hs.precedes_self.toExtends.resolve_resolve hs hs t

theorem exists_notMem_classesOf (s : Store) (t : Ty) : ∃ c, c ∉ s.classesOf t := by
  obtain ⟨name, hname⟩ := Infinite.exists_notMem_finset
    ((s.classesOf t).toList.map Symbol.simpleName).toFinset
  refine ⟨.unqualified name, fun hc => hname ?_⟩
  rw [List.mem_toFinset]
  exact List.mem_map.2 ⟨_, Std.ExtTreeSet.mem_toList.2 hc, rfl⟩

end Store

namespace Instance

variable {d : Instance} {t : Ty}

theorem serves_iff {ts : List Ty} :
    d.serves ts = true ↔ List.Forall₂ (fun head t => head.flatten.Fits t.flatten) d.parameters ts := by
  have halign : ∀ head t, ((Store.empty Store.defaultStem).align head t).isSome = true ↔
      head.flatten.Fits t.flatten := by
    intro head t
    rw [Store.isSome_align, Store.resolve_empty, Store.resolve_empty]
  rw [serves, Bool.and_eq_true, beq_iff_eq, List.all_eq_true, List.forall₂_iff_zip]
  simp only [Prod.forall, halign]

theorem serves_singleton :
    d.serves [t] = true ↔ ∃ head, d.parameters = [head] ∧ head.flatten.Fits t.flatten := by
  rw [serves_iff, List.forall₂_cons_right_iff]
  constructor
  · rintro ⟨head, heads, hfits, hnil, hhead⟩
    rw [List.forall₂_nil_right_iff.1 hnil] at hhead
    exact ⟨head, hhead, hfits⟩
  · rintro ⟨head, hhead, hfits⟩
    exact ⟨head, [], hfits, .nil, hhead⟩

theorem serves_resolve (s : Store) (h : d.serves [t] = true) : d.serves [s.resolve t] = true := by
  obtain ⟨head, hhead, hfits⟩ := serves_singleton.1 h
  refine serves_singleton.2 ⟨head, hhead, ?_⟩
  rw [s.collapsed_resolve t, Store.resolve, ← Ty.subst_flatten]
  exact hfits.subst (Ty.collapsed_flatten head) (Ty.collapsed_flatten t) _

theorem serves_of_serves_resolve {s : Store}
    (hopen : ∀ x ∈ t.names, (s.resolve (.var (.ofName x))).isVar = true)
    (h : d.serves [s.resolve t] = true) : d.serves [t] = true := by
  obtain ⟨head, hhead, hfits⟩ := serves_singleton.1 h
  obtain ⟨f, hf⟩ := s.exists_mapVars_of_open hopen
  rw [s.collapsed_resolve t, hf, Ty.mapVars, ← Ty.subst_flatten] at hfits
  refine serves_singleton.2 ⟨head, hhead, ?_⟩
  exact (Ty.fits_mapVars (Ty.collapsed_flatten head) (Ty.collapsed_flatten t) f).1 hfits

theorem serves_of_resolved {s : Store} (hd : d.parameters = [s.resolve t]) :
    d.serves [s.resolve t] = true := by
  refine serves_singleton.2 ⟨_, hd, ?_⟩
  rw [s.collapsed_resolve t]
  exact (s.collapsed_resolve t).fits_self

/-- If an instance for just what a type resolves to is one for the type as written, nothing but variables
was put in. -/
theorem isVar_of_serves {s : Store} (hd : d.parameters = [s.resolve t]) (h : d.serves [t] = true) :
    ∀ x ∈ t.names, (s.resolve (.var (.ofName x))).isVar = true := by
  obtain ⟨head, hhead, hfits⟩ := serves_singleton.1 h
  obtain rfl : s.resolve t = head := List.singleton_inj.1 (hd.symm.trans hhead)
  rw [s.collapsed_resolve t, Store.resolve, ← Ty.subst_flatten] at hfits
  have hvars := Ty.isVar_of_fits_subst (Ty.collapsed_flatten t)
    (fun v _ => s.collapsed_resolve (.var v)) hfits
  intro x hx
  rw [← Ty.names_flatten] at hx
  obtain ⟨v, hv, rfl⟩ := Ty.mem_names.1 hx
  rw [← s.isVar_expandAll]
  exact hvars v hv

end Instance

namespace Index

theorem mem_moduleInstances {i : Index} {module : String} {d : Instance} :
    d ∈ i.moduleInstances module ↔ (∃ c, d ∈ i.instancesOf c) ∧ d.module = module := by
  simp only [moduleInstances, List.mem_flatMap, Prod.exists, Std.ExtTreeMap.mem_toList_iff_getElem?_eq_some,
    List.mem_filter, beq_iff_eq]
  constructor
  · rintro ⟨c, ds, hds, hd, hmodule⟩
    exact ⟨⟨c, by simpa [instancesOf, Std.ExtTreeMap.getD_eq_getD_getElem?, hds] using hd⟩, hmodule⟩
  · rintro ⟨⟨c, hd⟩, hmodule⟩
    rw [instancesOf, Std.ExtTreeMap.getD_eq_getD_getElem?] at hd
    cases hds : i.instances[c]? with
    | none => simp [hds] at hd
    | some ds => exact ⟨c, ds, hds, by simpa [hds] using hd, hmodule⟩

theorem mem_moduleInstances_single {d d' : Instance} {module : String} :
    d' ∈ (empty.defineInstance d).moduleInstances module ↔ d' = d ∧ d.module = module := by
  have hnone : ∀ c, empty.instancesOf c = [] := fun c => Std.ExtTreeMap.getD_empty
  have hsome : (∃ c, d' ∈ (empty.defineInstance d).instancesOf c) ↔ d' = d := by
    simp [hnone, List.mem_ite_nil_right]
  rw [mem_moduleInstances, hsome]
  exact and_congr_right fun hd => by rw [hd]

end Index

/-! ### Known classes -/

namespace Scopes

/-- The same scopes over another index. -/
def withIndex (s : Scopes) (index : Index) : Scopes := { s with index := index }

theorem chainWithin_withIndex (s : Scopes) (index : Index) (n : Nat) (scope : ScopeId) :
    (s.withIndex index).chainWithin n scope = s.chainWithin n scope := by
  induction n generalizing scope with
  | zero => rfl
  | succ n ih =>
    simp only [chainWithin, ih]
    rfl

theorem imports_withIndex (s : Scopes) (index : Index) (scope : ScopeId) :
    (s.withIndex index).imports scope = s.imports scope := by
  simp only [imports, moduleBody?, moduleScope?, chain, chainWithin_withIndex]
  rfl

theorem mem_foldl_classesAt {index : Index} {t : Ty} {c : Symbol} (imports : List Import)
    (classes : SymbolSet) :
    c ∈ imports.foldl (fun classes i => classes ∪ i.classesAt index t) classes ↔
      c ∈ classes ∨ ∃ i ∈ imports, c ∈ i.classesAt index t := by
  induction imports generalizing classes with
  | nil => simp
  | cons i imports ih => simp [ih, Std.ExtTreeSet.mem_union_iff, or_assoc]

theorem mem_classesOf {s : Scopes} {scope : ScopeId} {t : Ty} {c : Symbol} :
    c ∈ s.classesOf scope t ↔ c ∈ s.store.classesOf t ∨
      ∃ i ∈ s.imports scope, ∃ d ∈ s.index.moduleInstances i.module,
        d.typeClass = c ∧ d.serves [t] = true := by
  have hat : ∀ i : Import, c ∈ i.classesAt s.index t ↔
      ∃ d ∈ s.index.moduleInstances i.module, d.typeClass = c ∧ d.serves [t] = true := by
    intro i
    simp only [Import.classesAt, Std.ExtTreeSet.mem_ofList, List.contains_iff_mem, List.mem_map,
      List.mem_filter, and_assoc, and_comm (a := _ = c)]
  simp only [classesOf, mem_foldl_classesAt, hat]

theorem mem_classesOf_resolve {s : Scopes} (hs : s.store.Acyclic) {scope : ScopeId} {t : Ty} {c : Symbol} :
    c ∈ s.classesOf scope (s.store.resolve t) ↔ c ∈ s.classesOf scope t ∨
      ∃ i ∈ s.imports scope, ∃ d ∈ s.index.moduleInstances i.module,
        d.typeClass = c ∧ d.serves [s.store.resolve t] = true ∧ d.serves [t] = false := by
  have hstore : s.store.classesOf (s.store.resolve t) = s.store.classesOf t := by
    rw [Store.classesOf, hs.resolve_idem, Store.classesOf]
  rw [mem_classesOf, mem_classesOf, hstore]
  constructor
  · rintro (hc | ⟨i, hi, d, hd, hclass, hserves⟩)
    · exact .inl (.inl hc)
    · cases hraw : d.serves [t] with
      | true => exact .inl (.inr ⟨i, hi, d, hd, hclass, hraw⟩)
      | false => exact .inr ⟨i, hi, d, hd, hclass, hserves, hraw⟩
  · rintro ((hc | ⟨i, hi, d, hd, hclass, hserves⟩) | ⟨i, hi, d, hd, hclass, hserves, -⟩)
    · exact .inl hc
    · exact .inr ⟨i, hi, d, hd, hclass, d.serves_resolve s.store hserves⟩
    · exact .inr ⟨i, hi, d, hd, hclass, hserves⟩

theorem classesOf_resolve_of_open {s : Scopes} (hs : s.store.Acyclic) {t : Ty}
    (hopen : ∀ x ∈ t.names, (s.store.resolve (.var (.ofName x))).isVar = true) (scope : ScopeId) :
    s.classesOf scope t = s.classesOf scope (s.store.resolve t) := by
  apply Std.ExtTreeSet.ext_mem
  intro c
  refine (mem_classesOf_resolve hs).trans (or_iff_left ?_) |>.symm
  rintro ⟨i, -, d, -, -, hserves, hraw⟩
  rw [Instance.serves_of_serves_resolve hopen hserves] at hraw
  cases hraw

/-- Resolving a type never takes a class from it. The classes it adds are those of imported instances for
what the type resolves to that are no instances for the type as written. Whatever the index holds, none
is added exactly if all variables of the type stand for variables. -/
theorem classes_of_resolved_iff_open {s : Scopes} (hs : s.store.Acyclic) (scope : ScopeId) (t : Ty) :
    (∀ c, c ∈ s.classesOf scope (s.store.resolve t) ↔ c ∈ s.classesOf scope t ∨
      ∃ i ∈ s.imports scope, ∃ d ∈ s.index.moduleInstances i.module,
        d.typeClass = c ∧ d.serves [s.store.resolve t] = true ∧ d.serves [t] = false) ∧
    (s.imports scope ≠ [] →
      ((∀ index, (s.withIndex index).classesOf scope t =
          (s.withIndex index).classesOf scope (s.store.resolve t)) ↔
        ∀ x ∈ t.names, (s.store.resolve (.var (.ofName x))).isVar = true)) := by
  refine ⟨fun c => mem_classesOf_resolve hs, fun himports => ⟨fun hsame => ?_, fun hopen index => ?_⟩⟩
  · obtain ⟨i, hi⟩ := List.exists_mem_of_ne_nil _ himports
    obtain ⟨c, hc⟩ := s.store.exists_notMem_classesOf t
    let d : Instance := ⟨i.module, c, [s.store.resolve t], ⟨"", "", ""⟩⟩
    have hd : d ∈ (Index.empty.defineInstance d).moduleInstances i.module :=
      Index.mem_moduleInstances_single.2 ⟨rfl, rfl⟩
    have hknown : c ∈ (s.withIndex (Index.empty.defineInstance d)).classesOf scope (s.store.resolve t) :=
      mem_classesOf.2 (.inr ⟨i, (s.imports_withIndex _ scope).symm ▸ hi, d, hd, rfl,
        d.serves_of_resolved rfl⟩)
    rw [← hsame] at hknown
    rcases mem_classesOf.1 hknown with hdemanded | ⟨j, -, d', hd', -, hserves⟩
    · exact absurd hdemanded hc
    · obtain ⟨rfl, -⟩ := Index.mem_moduleInstances_single.1 hd'
      exact Instance.isVar_of_serves rfl hserves
  · exact classesOf_resolve_of_open (s := s.withIndex index) hs hopen scope

/-- The import brings `Eq` for every `Maybe`, and `Num` for `Int`. The variable `b` stands for a variable,
and `Maybe b` has its classes over any index; `c` stands for `Int` and has no class. -/
theorem classes_of_resolved_iff_open_maybe :
    let eq : Symbol := .unqualified "Eq"
    let num : Symbol := .unqualified "Num"
    let a := Ty.var (.ofName "a")
    let b := Ty.var (.ofName "b")
    let c := Ty.var (.ofName "c")
    let int := Ty.sum (.unqualified "Int") []
    let maybe := Ty.sum (.unqualified "Maybe")
    let i : Index := .ofRegistrations [.typeInstance ⟨"m", eq, [maybe [a]], ⟨"m/Maybe", "eq", "()"⟩⟩,
      .typeInstance ⟨"m", num, [int], ⟨"m/Int", "num", "()"⟩⟩]
    let s := (((new i .default).perform (.enterModule "M" [⟨"m", none⟩])).perform
      (.types (.unify a b))).perform (.types (.unify c int))
    s.store.Acyclic ∧ s.imports 1 ≠ [] ∧ s.store.resolve b = a ∧ eq ∈ s.classesOf 1 (maybe [b]) ∧
      (∀ index, (s.withIndex index).classesOf 1 (maybe [b]) =
        (s.withIndex index).classesOf 1 (s.store.resolve (maybe [b]))) ∧
      num ∈ s.classesOf 1 (s.store.resolve c) ∧ num ∉ s.classesOf 1 c ∧
      (num ∈ s.classesOf 1 c ∨ ∃ i ∈ s.imports 1, ∃ d ∈ s.index.moduleInstances i.module,
        d.typeClass = num ∧ d.serves [s.store.resolve c] = true ∧ d.serves [c] = false) := by
  refine ⟨?hs, ?himports, ?_, ?_, ((classes_of_resolved_iff_open ?hs 1 _).2 ?himports).2 ?_, ?hnum, ?_,
    ((classes_of_resolved_iff_open ?hs 1 _).1 _).1 ?hnum⟩
  case hs => exact ((Store.acyclic_empty _).call_unify _ _).call_unify _ _
  all_goals decide +kernel

/-- The import brings `Eq` for `Int`, and `a` is unified with `Int`. The class is known of `Int` and not
of `a`. -/
theorem class_unknown_of_bound_variable :
    let eq : Symbol := .unqualified "Eq"
    let a := Ty.var (.ofName "a")
    let int := Ty.sum (.unqualified "Int") []
    let i : Index := .ofRegistrations [.typeInstance ⟨"m", eq, [int], ⟨"m/Int", "eq", "()"⟩⟩]
    let s := ((new i .default).perform (.enterModule "M" [⟨"m", none⟩])).perform (.types (.unify a int))
    Reachable i .default s ∧ s.store.Acyclic ∧ s.store.resolve a = int ∧
      eq ∈ s.classesOf 1 (s.store.resolve a) ∧ eq ∉ s.classesOf 1 a ∧
      s.classesOf 1 a ≠ s.classesOf 1 (s.store.resolve a) := by
  refine ⟨?_, (Store.acyclic_empty _).call_unify _ _, ?_, ?heq, ?ha, fun hsame => ?ha (hsame ▸ ?heq)⟩
  · refine .perform (.perform .new _ ?_) _ ?_ <;> decide +kernel
  all_goals decide +kernel

end Scopes

end TypeEngine
