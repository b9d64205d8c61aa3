import Mathlib.Data.Finset.Card
import TypeEngine.Proofs.UnitRuns

/-! # The check of demanded classes

The search for variables lists each name once and enters its binding then. It misses none that can be
reached (`mem_reachable_of_meets`), although it counts how many bindings it enters: a binding is entered
only for a name that was not listed, so there are never more of them than there are bindings. Hence the
unsatisfied demands hold every class recorded for a variable that stands for a named type without the
instance, in whichever order the variables are met. What the check does not report is therefore implemented,
for every variable that stands for a named type. Other types are not looked at. -/

namespace TypeEngine

namespace Store

/-! ### The search for variables -/

/-- The occurrence of a variable is met from the occurrences `vs`: it is one of them, or it stands in the
binding of a variable that is met. -/
inductive Meets (s : Store) (vs : List TyVar) : TyVar → Prop
  | here {v : TyVar} (hv : v ∈ vs) : s.Meets vs v
  | behind {v w : TyVar} {u : Ty} (hv : s.Meets vs v) (hu : s.bindings[v.name]? = some u)
      (hw : w ∈ u.vars) : s.Meets vs w

theorem Meets.trans {s : Store} {vs ws : List TyVar} {v : TyVar} (h : s.Meets ws v)
    (hws : ∀ w ∈ ws, s.Meets vs w) : s.Meets vs v := by
  induction h with
  | here hv => exact hws _ hv
  | behind _ hu hw ih => exact ih.behind hu hw

/-- The search from `vs` extends the list `seen` to `seen'`: it lists what it meets, and with every name
that it adds the names in the binding of that name. -/
structure Explored (s : Store) (seen seen' vs : List TyVar) : Prop where
  kept : seen ⊆ seen'
  listed : ∀ v ∈ vs, v.name ∈ seen'.map (·.name)
  closed : ∀ x ∈ seen'.map (·.name), x ∉ seen.map (·.name) →
    ∀ u, s.bindings[x]? = some u → ∀ y ∈ u.names, y ∈ seen'.map (·.name)
  met : ∀ w ∈ seen', w ∈ seen ∨ s.Meets vs w

namespace Explored

theorem nil (s : Store) (seen : List TyVar) : s.Explored seen seen [] :=
  ⟨fun _ hw => hw, nofun, fun _ hx hnew => absurd hx hnew, fun _ hw => .inl hw⟩

theorem known (s : Store) {seen : List TyVar} {v : TyVar} (hv : v.name ∈ seen.map (·.name)) :
    s.Explored seen seen [v] :=
  ⟨fun _ hw => hw, List.forall_mem_singleton.2 hv, fun _ hx hnew => absurd hx hnew, fun _ hw => .inl hw⟩

theorem unbound {s : Store} {v : TyVar} (hv : s.bindings[v.name]? = none) (seen : List TyVar) :
    s.Explored seen (seen ++ [v]) [v] where
  kept := List.subset_append_left _ _
  listed := by simp
  closed x hx hnew u hu := by
    obtain rfl : x = v.name := by simpa [hnew] using hx
    rw [hv] at hu
    cases hu
  met w hw := (List.mem_append.1 hw).imp_right .here

/-- The binding of a new name is searched with the name listed. -/
theorem bound {s : Store} {seen seen' : List TyVar} {v : TyVar} {u : Ty}
    (hv : s.bindings[v.name]? = some u) (h : s.Explored (seen ++ [v]) seen' u.vars) :
    s.Explored seen seen' [v] where
  kept := fun w hw => h.kept (List.mem_append_left _ hw)
  listed := List.forall_mem_singleton.2
    (List.mem_map_of_mem (h.kept (List.mem_append_right _ (List.mem_singleton.2 rfl))))
  closed x hx hnew r hr := by
    by_cases hxv : x = v.name
    · subst hxv
      obtain rfl : u = r := Option.some.inj (hv.symm.trans hr)
      intro y hy
      obtain ⟨w, hw, rfl⟩ := Ty.mem_names.1 hy
      exact h.listed w hw
    · exact h.closed x hx (by simpa [hxv] using hnew) r hr
  met w hw := by
    rcases h.met w hw with hw | hw
    · exact (List.mem_append.1 hw).imp_right .here
    · exact .inr (hw.trans fun _ hw' => .behind (.here (List.mem_singleton.2 rfl)) hv hw')

theorem cons {s : Store} {seen seen₁ seen' vs : List TyVar} {v : TyVar} (h : s.Explored seen seen₁ [v])
    (h' : s.Explored seen₁ seen' vs) : s.Explored seen seen' (v :: vs) where
  kept := fun _ hw => h'.kept (h.kept hw)
  listed := List.forall_mem_cons.2
    ⟨List.map_subset _ h'.kept (h.listed v (List.mem_singleton.2 rfl)), h'.listed⟩
  closed x hx hnew u hu y hy := by
    by_cases hx₁ : x ∈ seen₁.map (·.name)
    · exact List.map_subset _ h'.kept (h.closed x hx₁ hnew u hu y hy)
    · exact h'.closed x hx hx₁ u hu y hy
  met w hw := by
    rcases h'.met w hw with hw | hw
    · refine (h.met w hw).imp_right fun hw => hw.trans fun _ hv => .here ?_
      rw [List.mem_singleton.1 hv]
      exact List.mem_cons_self
    · exact .inr (hw.trans fun _ hv => .here (List.mem_cons_of_mem _ hv))

end Explored

def unseen (s : Store) (seen : List TyVar) : Finset String :=
  s.bindings.keys.toFinset \ (seen.map (·.name)).toFinset

theorem mem_unseen {s : Store} {seen : List TyVar} {x : String} :
    x ∈ s.unseen seen ↔ x ∈ s.bindings.keys ∧ x ∉ seen.map (·.name) := by
  rw [unseen, Finset.mem_sdiff, List.mem_toFinset, List.mem_toFinset]

theorem unseen_subset {s : Store} {seen seen' : List TyVar} (h : seen ⊆ seen') :
    s.unseen seen' ⊆ s.unseen seen := by
  intro x hx
  obtain ⟨hkey, hnew⟩ := mem_unseen.1 hx
  exact mem_unseen.2 ⟨hkey, fun hx => hnew (List.map_subset _ h hx)⟩

theorem card_unseen_append_lt {s : Store} {seen : List TyVar} {v : TyVar} {u : Ty}
    (hv : s.bindings[v.name]? = some u) (hnew : v.name ∉ seen.map (·.name)) :
    (s.unseen (seen ++ [v])).card < (s.unseen seen).card := by
  have hkey : v.name ∈ s.bindings.keys := by
    rw [Std.ExtTreeMap.mem_keys, Std.ExtTreeMap.mem_iff_isSome_getElem?, hv]
    rfl
  refine Finset.card_lt_card ((Finset.ssubset_iff_of_subset ?_).2 ⟨v.name, ?_, ?_⟩)
  · exact unseen_subset (List.subset_append_left _ _)
  · exact mem_unseen.2 ⟨hkey, hnew⟩
  · simp [mem_unseen]

theorem explored_foldl {s : Store} {n : Nat} {step : List TyVar → TyVar → List TyVar}
    (hstep : ∀ seen v, (s.unseen seen).card ≤ n → s.Explored seen (step seen v) [v]) (vs : List TyVar)
    {seen : List TyVar} (hn : (s.unseen seen).card ≤ n) : s.Explored seen (vs.foldl step seen) vs := by
  induction vs generalizing seen with
  | nil => exact .nil s seen
  | cons v vs ih =>
    have hv := hstep seen v hn
    exact hv.cons (ih ((Finset.card_le_card (unseen_subset hv.kept)).trans hn))

theorem explored_reachFrom (s : Store) {n : Nat} {seen : List TyVar} (hn : (s.unseen seen).card ≤ n) (t : Ty) :
    s.Explored seen (s.reachFrom n seen t) t.vars := by
  have hlisted : ∀ {seen : List TyVar} {v : TyVar}, seen.any (·.name == v.name) = true ↔
      v.name ∈ seen.map (·.name) := by simp
  induction n generalizing seen t with
  | zero =>
    rw [reachFrom]
    refine explored_foldl (fun seen v hn => ?_) t.vars hn
    split
    · rename_i hv
      exact .known s (hlisted.1 hv)
    · rename_i hv
      refine .unbound (Option.eq_none_iff_forall_ne_some.2 fun u hu => ?_) seen
      exact absurd (card_unseen_append_lt hu (mt hlisted.2 hv)) (by omega)
  | succ n ih =>
    rw [reachFrom]
    refine explored_foldl (fun seen v hn => ?_) t.vars hn
    split
    · rename_i hv
      exact .known s (hlisted.1 hv)
    · rename_i hv
      split
      · rename_i hu
        exact .unbound hu seen
      · rename_i u hu
        have hlt := card_unseen_append_lt hu (mt hlisted.2 hv)
        exact .bound hu (ih (by omega) u)

theorem explored_reachable (s : Store) (t : Ty) : s.Explored [] (s.reachable t) t.vars := by
  refine s.explored_reachFrom ?_ t
  calc (s.unseen []).card ≤ s.bindings.keys.toFinset.card := Finset.card_le_card Finset.sdiff_subset
    _ ≤ s.bindings.keys.length := List.toFinset_card_le _
    _ = s.bindings.size := Std.ExtTreeMap.length_keys

theorem meets_of_mem_reachable {s : Store} {t : Ty} {v : TyVar} (h : v ∈ s.reachable t) :
    s.Meets t.vars v :=
  ((s.explored_reachable t).met v h).resolve_left nofun

theorem mem_reachable_of_meets {s : Store} {t : Ty} {v : TyVar} (h : s.Meets t.vars v) :
    v.name ∈ (s.reachable t).map (·.name) := by
  have hsearch := s.explored_reachable t
  induction h with
  | here hv => exact hsearch.listed _ hv
  | behind _ hu hw ih =>
    exact hsearch.closed _ ih List.not_mem_nil _ hu _ (Ty.mem_names.2 ⟨_, hw, rfl⟩)

/-! ### Unsatisfied demands -/

namespace Acyclic

theorem mem_unsatisfiedAt {s : Store} (hs : s.Acyclic) {v : TyVar} {d : Symbol} {r : Ty} :
    (d, r) ∈ s.unsatisfiedAt v ↔
      s.resolve (.var v) = r ∧ (∃ head args, r = .sum head args) ∧ d ∈ (s.annotate v).context ∧
        s.implements d r = false := by
  unfold unsatisfiedAt
  split
  · rename_i hv
    rw [resolve_var_of_unbound hv]
    refine ⟨nofun, ?_⟩
    rintro ⟨rfl, ⟨_, _, hsum⟩, -⟩
    cases hsum
  · rename_i u hu
    rw [hs.resolve_var_of_bound hu]
    split
    · rename_i head args hsum
      simp only [hsum, List.mem_map, List.mem_filter, Std.ExtTreeSet.mem_toList, Bool.not_eq_true',
        Prod.mk.injEq]
      constructor
      · rintro ⟨d, ⟨hd, hmissing⟩, rfl, rfl⟩
        exact ⟨rfl, ⟨head, args, rfl⟩, hd, hmissing⟩
      · rintro ⟨rfl, -, hd, hmissing⟩
        exact ⟨d, ⟨hd, hmissing⟩, rfl, rfl⟩
    · rename_i hother
      refine ⟨nofun, ?_⟩
      rintro ⟨rfl, ⟨head, args, hsum⟩, -⟩
      exact absurd hsum (hother head args)

theorem mem_unsatisfied {s : Store} (hs : s.Acyclic) {t : Ty} {d : Symbol} {r : Ty} :
    (d, r) ∈ s.unsatisfied t ↔
      ∃ v ∈ s.reachable t, s.resolve (.var v) = r ∧ (∃ head args, r = .sum head args) ∧
        d ∈ (s.annotate v).context ∧ s.implements d r = false := by
  simp only [unsatisfied, List.mem_eraseDups, List.mem_flatMap, hs.mem_unsatisfiedAt]

theorem exists_binding_of_sum {s : Store} (hs : s.Acyclic) {v : TyVar} {head : Symbol} {args : List Ty}
    (h : s.resolve (.var v) = .sum head args) :
    ∃ u, s.bindings[v.name]? = some u ∧ s.resolve u = .sum head args := by
  cases hb : s.bindings[v.name]? with
  | none =>
    rw [resolve_var_of_unbound hb] at h
    cases h
  | some u =>
    rw [hs.resolve_var_of_bound hb] at h
    exact ⟨u, rfl, h⟩

/-- Classes recorded for a variable are asked for, whichever of its occurrences is listed. -/
theorem mem_unsatisfied_of_recorded {s : Store} (hs : s.Acyclic) {t : Ty} {v : TyVar} {d head : Symbol}
    {args : List Ty} (hv : s.Meets t.vars v) (hr : s.resolve (.var v) = .sum head args)
    (hd : d ∈ s.demands.getD v.name ∅) (hmissing : s.implements d (.sum head args) = false) :
    (d, .sum head args) ∈ s.unsatisfied t := by
  obtain ⟨w, hw, hname⟩ := List.mem_map.1 (mem_reachable_of_meets hv)
  obtain ⟨u, hu, -⟩ := hs.exists_binding_of_sum hr
  have hsame : s.resolve (.var w) = .sum head args := (expandAll_congr_name s hname.symm hu).symm.trans hr
  refine hs.mem_unsatisfied.2 ⟨w, hw, hsame, ⟨head, args, rfl⟩, ?_, hmissing⟩
  exact TyVar.mem_context_demanding.2 (.inr (by rwa [hname]))

end Acyclic

/-- The unsatisfied demands hold nothing twice. They hold every class recorded for a bound variable that is met
from `t` and stands for a named type without the instance, in whichever order the variables are met. And they
hold nothing but classes that are recorded for such a variable, or that an occurrence of it carries. -/
theorem unsatisfied_exact_on_recorded {s : Store} (hs : s.Acyclic) (t : Ty) :
    (s.unsatisfied t).Nodup ∧
    (∀ v u head args, s.Meets t.vars v → s.bindings[v.name]? = some u → s.resolve u = .sum head args →
      ∀ d ∈ s.demands.getD v.name ∅, s.implements d (.sum head args) = false →
        (d, .sum head args) ∈ s.unsatisfied t) ∧
    ∀ d r, (d, r) ∈ s.unsatisfied t →
      ∃ v u, s.Meets t.vars v ∧ s.bindings[v.name]? = some u ∧ s.resolve u = r ∧
        (∃ head args, r = .sum head args) ∧ s.implements d r = false ∧
        (d ∈ s.demands.getD v.name ∅ ∨ d ∈ v.context) := by
  refine ⟨s.nodup_unsatisfied t, fun v u head args hv hu hr d hd hmissing => ?_, fun d r h => ?_⟩
  · exact hs.mem_unsatisfied_of_recorded hv ((hs.resolve_var_of_bound hu).trans hr) hd hmissing
  · obtain ⟨v, hv, hr, ⟨head, args, hsum⟩, hd, hmissing⟩ := hs.mem_unsatisfied.1 h
    obtain ⟨u, hu, hur⟩ := hs.exists_binding_of_sum (hr.trans hsum)
    exact ⟨v, u, meets_of_mem_reachable hv, hu, hur.trans hsum.symm, ⟨head, args, hsum⟩, hmissing,
      (TyVar.mem_context_demanding.1 hd).symm⟩

/-- `Num` is recorded for `a`, which is met behind `b`, and stands for `Int`. `Eq` is carried by one occurrence of
`c`, which is met before the other and stands for `Bool`. -/
theorem unsatisfied_exact_on_recorded_chain :
    let num : Symbol := .unqualified "Num"
    let eq : Symbol := .unqualified "Eq"
    let int := Ty.sum (.unqualified "Int") []
    let bool := Ty.sum (.unqualified "Bool") []
    let a : TyVar := ⟨"a", {num}⟩
    let b : TyVar := .ofName "b"
    let c : TyVar := .ofName "c"
    let s := ((((empty "t").unify (.var a) (.var b)).2.unify (.var b) int).2.unify (.var c) bool).2
    let t := Ty.fn (.var b) (.fn (.var ⟨"c", {eq}⟩) (.fn (.var c) (.var b)))
    s.Acyclic ∧ s.unsatisfied t = [(num, int), (eq, bool)] ∧ (s.unsatisfied t).Nodup ∧
      s.Meets t.vars a ∧ s.bindings["a"]? = some int ∧ s.resolve int = int ∧ num ∈ s.demands.getD "a" ∅ ∧
      s.implements num int = false ∧ (num, int) ∈ s.unsatisfied t ∧
      eq ∉ s.demands.getD "c" ∅ ∧ (eq, bool) ∈ s.unsatisfied t ∧
      ∃ v u, s.Meets t.vars v ∧ s.bindings[v.name]? = some u ∧ s.resolve u = bool ∧
        (∃ head args, bool = .sum head args) ∧ s.implements eq bool = false ∧
        (eq ∈ s.demands.getD v.name ∅ ∨ eq ∈ v.context) := by
  refine ⟨?hs, ?_, (unsatisfied_exact_on_recorded ?hs _).1, ?hmeets, ?hbound, ?hresolve, ?hnum, ?hmissing,
    (unsatisfied_exact_on_recorded ?hs _).2.1 _ _ _ _ ?hmeets ?hbound ?hresolve _ ?hnum ?hmissing, ?_, ?hcarried,
    (unsatisfied_exact_on_recorded ?hs _).2.2 _ _ ?hcarried⟩
  case hs => exact (((acyclic_empty "t").acyclic_unify _ _).acyclic_unify _ _).acyclic_unify _ _
  case hmeets =>
    exact .behind (u := .var ⟨"a", {.unqualified "Num"}⟩) (.here List.mem_cons_self) (by decide +kernel)
      (List.mem_singleton.2 rfl)
  all_goals decide +kernel

end Store

namespace Checker

/-! ### The check -/

theorem diagnostics_foldl_report {f : Checker → Symbol × Ty → Checker} {span : Span}
    (hf : ∀ c p, (f c p).diagnostics = c.diagnostics ++ [⟨.noInstance p.1 p.2, span⟩])
    (ps : List (Symbol × Ty)) (c : Checker) :
    (ps.foldl f c).diagnostics = c.diagnostics ++ ps.map fun p => ⟨.noInstance p.1 p.2, span⟩ := by
  induction ps generalizing c with
  | nil => simp
  | cons p ps ih => simp [ih, hf]

/-- The check reports nothing exactly if the index has an instance for all that the unit has none for. -/
theorem diagnostics_checkContexts_iff {c : Checker} {t : Ty} {span : Span} :
    (c.checkContexts t span).diagnostics = c.diagnostics ↔
      ∀ p ∈ c.store.unsatisfied t, c.scopes.index.instancesAt p.1 [p.2] ≠ [] := by
  rw [checkContexts, diagnostics_foldl_report (fun _ _ => rfl), List.append_right_eq_self,
    List.map_eq_nil_iff, List.filter_eq_nil_iff]
  simp

theorem acyclic_start (index : Index) (options : Options) :
    (start (.new index options)).store.Acyclic :=
  Store.acyclic_empty options.variableStem

theorem acyclic_unifyOrReport {c : Checker} (hc : c.store.Acyclic) (e a : Ty) (span : Span) :
    (c.unifyOrReport e a span).2.store.Acyclic := by
  have hacyclic := hc.acyclic_unify e a
  unfold unifyOrReport
  split <;> rename_i h <;> rw [h] at hacyclic <;> exact hacyclic

/-- If the check reports nothing, then every class recorded for a variable met from `t` that stands for a
named type is implemented for that type, in the unit or in the index. If it reports something, then some
class demanded of such a variable is implemented in neither. -/
theorem clean_check_implemented {c : Checker} (hc : c.store.Acyclic) (t : Ty) (span : Span) :
    ((c.checkContexts t span).diagnostics = c.diagnostics →
      ∀ v, c.store.Meets t.vars v → ∀ head args, c.resolve (.var v) = .sum head args →
        ∀ d ∈ c.store.demands.getD v.name ∅,
          c.store.implements d (c.resolve (.var v)) = true ∨
            c.scopes.index.instancesAt d [c.resolve (.var v)] ≠ []) ∧
    ((c.checkContexts t span).diagnostics ≠ c.diagnostics →
      ∃ v, c.store.Meets t.vars v ∧ ∃ head args, c.resolve (.var v) = .sum head args ∧
        ∃ d ∈ (c.store.annotate v).context, c.store.implements d (c.resolve (.var v)) = false ∧
          c.scopes.index.instancesAt d [c.resolve (.var v)] = []) := by
  refine ⟨fun hclean v hv head args hr d hd => ?_, fun hreport => ?_⟩
  · rw [hr]
    cases hmissing : c.store.implements d (.sum head args) with
    | true => exact .inl rfl
    | false =>
      exact .inr (diagnostics_checkContexts_iff.1 hclean _ (hc.mem_unsatisfied_of_recorded hv hr hd hmissing))
  · rw [Ne, diagnostics_checkContexts_iff] at hreport
    push Not at hreport
    obtain ⟨⟨d, r⟩, hmem, hnone⟩ := hreport
    obtain ⟨v, hv, hr, ⟨head, args, hsum⟩, hd, hmissing⟩ := hc.mem_unsatisfied.1 hmem
    subst hr
    exact ⟨v, Store.meets_of_mem_reachable hv, head, args, hsum, d, hd, hmissing, hnone⟩

/-- `Num` is demanded of `a`, which is met behind `b`, and the index has the instance for `Int`. Nobody has
one for `Bool`. -/
theorem clean_check_implemented_by_index :
    let num : Symbol := .unqualified "Num"
    let int := Ty.sum (.unqualified "Int") []
    let bool := Ty.sum (.unqualified "Bool") []
    let a : TyVar := ⟨"a", {num}⟩
    let b := Ty.var (.ofName "b")
    let e := Ty.var ⟨"e", {num}⟩
    let i := Index.empty.defineInstance ⟨"m", num, [int], ⟨"m/Int", "instance", "()"⟩⟩
    let c := ((start (.new i .default)).perform (.unifyOrReport (.var a) b ⟨0, 1⟩)).perform
      (.unifyOrReport b int ⟨1, 2⟩)
    let c' := c.perform (.unifyOrReport e bool ⟨2, 3⟩)
    c.store.Acyclic ∧ (c.checkContexts (.fn b b) ⟨3, 4⟩).diagnostics = c.diagnostics ∧
      c.store.Meets (Ty.fn b b).vars a ∧ c.resolve (.var a) = int ∧ num ∈ c.store.demands.getD "a" ∅ ∧
      c.store.implements num int = false ∧
      (c.store.implements num (c.resolve (.var a)) = true ∨
        c.scopes.index.instancesAt num [c.resolve (.var a)] ≠ []) ∧
      c'.store.Acyclic ∧ (c'.checkContexts (.fn e b) ⟨4, 5⟩).diagnostics ≠ c'.diagnostics ∧
      ∃ v, c'.store.Meets (Ty.fn e b).vars v ∧ ∃ head args, c'.resolve (.var v) = .sum head args ∧
        ∃ d ∈ (c'.store.annotate v).context, c'.store.implements d (c'.resolve (.var v)) = false ∧
          c'.scopes.index.instancesAt d [c'.resolve (.var v)] = [] := by
  refine ⟨?hc, ?hclean, ?hmeets, ?ha, ?hnum, ?_,
    (clean_check_implemented ?hc _ _).1 ?hclean _ ?hmeets _ _ ?ha _ ?hnum, ?hc', ?hreport,
    (clean_check_implemented ?hc' _ ⟨4, 5⟩).2 ?hreport⟩
  case hc => exact acyclic_unifyOrReport (acyclic_unifyOrReport (acyclic_start _ _) _ _ _) _ _ _
  case hc' =>
    exact acyclic_unifyOrReport
      (acyclic_unifyOrReport (acyclic_unifyOrReport (acyclic_start _ _) _ _ _) _ _ _) _ _ _
  case hmeets =>
    exact .behind (u := .var ⟨"a", {.unqualified "Num"}⟩) (.here List.mem_cons_self) (by decide +kernel)
      (List.mem_singleton.2 rfl)
  all_goals decide +kernel

/-- `Num` is demanded of a variable that stands for `Int → Int`. No instance is known for this type, in the
unit or in the index, and the check reports nothing. -/
theorem clean_check_passes_function :
    let num : Symbol := .unqualified "Num"
    let int := Ty.sum (.unqualified "Int") []
    let a : TyVar := ⟨"a", {num}⟩
    let c := (start (.new .empty .default)).perform (.unifyOrReport (.var a) (.fn int int) ⟨0, 1⟩)
    Visits (fun _ => True) (start (.new .empty .default)) c ∧ c.store.Acyclic ∧
      (c.checkContexts (.var a) ⟨1, 2⟩).diagnostics = c.diagnostics ∧ c.store.Meets (Ty.var a).vars a ∧
      (c.resolve (.var a)).names = [] ∧ num ∈ c.store.demands.getD "a" ∅ ∧
      ¬ (c.store.implements num (c.resolve (.var a)) = true ∨
        c.scopes.index.instancesAt num [c.resolve (.var a)] ≠ []) := by
  refine ⟨.step (.unifyOrReport _ _ _) trivial (.here _),
    acyclic_unifyOrReport (acyclic_start _ _) _ _ _, ?_, .here (List.mem_singleton.2 rfl), ?_, ?_, ?_⟩ <;>
    decide +kernel

end Checker

end TypeEngine
