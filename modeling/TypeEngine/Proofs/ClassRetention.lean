import Mathlib.Data.Fintype.EquivFin
import TypeEngine.Proofs.Renaming
import TypeEngine.Proofs.StoreRuns

/-! # Which demanded classes survive unification

A class can be demanded of a variable in two places: in an occurrence of the variable inside a type,
and in the store's records. A binding between two variables hands on what is recorded for the
variable it binds, and what its occurrence at hand demands; what other occurrences of it demand, in
bindings made before, it does not see. -/

namespace TypeEngine

namespace Store

/-! ### The classes of a variable -/

theorem mem_classesOf_of_resolve {s : Store} {t : Ty} {x : TyVar} (h : s.resolve t = .var x)
    {c : Symbol} : c ∈ s.classesOf t ↔ c ∈ x.context := by
  rw [classesOf, h, Std.ExtTreeSet.mem_ofList]
  simp [Ty.freeVars, Ty.vars, TyVar.firstOfEachName]

/-- Every variable of a resolved type demands what is recorded for it. -/
theorem mem_context_of_recorded {s : Store} {t : Ty} {x : TyVar} (hx : x ∈ (s.resolve t).vars)
    {c : Symbol} (hc : c ∈ s.demands.getD x.name ∅) : c ∈ x.context := by
  have hall : ∀ w ∈ (s.resolve t).vars, c ∈ s.demands.getD w.name ∅ → c ∈ w.context := by
    refine s.resolve_induction (P := fun _ => True)
      (M := fun u => ∀ w ∈ u.vars, c ∈ s.demands.getD w.name ∅ → c ∈ w.context) ?_ ?_ ?_
      fun _ _ => trivial
    · intro v _ w hw hrec
      obtain rfl : w = s.annotate v := List.mem_singleton.1 hw
      exact TyVar.mem_context_demanding.2 (.inr hrec)
    · exact fun _ _ _ _ _ => trivial
    · intro f u hu w hw
      rw [Ty.vars_subst, List.mem_flatMap] at hw
      obtain ⟨v, hv, hwv⟩ := hw
      exact hu v hv w hwv
  exact hall x hx hc

/-! ### What a binding between variables records -/

theorem mem_demandsAfterBinding_iff {s : Store} {v w : TyVar} {y : String} {c : Symbol} :
    c ∈ (s.demandsAfterBinding v (.var w)).getD y ∅ ↔
      c ∈ s.demands.getD y ∅ ∨ (y = v.name ∨ y = w.name) ∧ c ∈ (s.annotate v).context := by
  simp only [demandsAfterBinding, Ty.asVar?]
  split
  · rename_i hempty
    have hnone : c ∉ (s.annotate v).context := by
      rw [Std.ExtTreeSet.isEmpty_iff.1 hempty]
      exact Std.ExtTreeSet.not_mem_empty
    simp [hnone]
  · rw [Demands.mem_getD_add, Demands.mem_getD_add]
    tauto

theorem demands_of_bind {s s₁ : Store} {e a : Ty} {v w : TyVar}
    (hread : Reading.of (s.resolve e) (s.resolve a) = .bind v (.var w))
    (hbind : s.bind v (.var w) = .ok s₁) : s₁.demands = s.demandsAfterBinding v (.var w) := by
  rw [bind_eq_ite s (Reading.of_eq_bind hread).2] at hbind
  split at hbind
  · cases hbind
  · cases hbind
    rfl

end Store

theorem Store.recorded_of_unbound {s : Store} {v y : TyVar} {c : Symbol}
    (hv : s.bindings[v.name]? = none) (hc : c ∈ s.demands.getD v.name ∅)
    (hy : s.resolve (.var v) = .var y) : c ∈ s.demands.getD y.name ∅ := by
  rw [resolve_var_of_unbound hv] at hy
  cases hy
  exact hc

/-! ### Recorded classes survive a run -/

/-- What is recorded for an unbound variable is, after a run, recorded for the variable it then stands
for. -/
theorem Solving.recorded {eqs : List Equation} {s s' : Store} {r : Except UnifyError Unit}
    (h : Solving eqs s r s') (hs : s.Acyclic) {v y : TyVar} {c : Symbol}
    (hv : s.bindings[v.name]? = none) (hc : c ∈ s.demands.getD v.name ∅)
    (hy : s'.resolve (.var v) = .var y) : c ∈ s'.demands.getD y.name ∅ := by
  induction h generalizing v with
  | done s => exact Store.recorded_of_unbound hv hc hy
  | agree hread hrest ih => exact ih hs hv hc hy
  | split hread hrest ih => exact ih hs hv hc hy
  | @bind e a t u eqs s s₁ s' r hread hbind hrest ih =>
    have hbinds := hs.binds hread hbind
    have hs₁ := hbinds.acyclic hs
    by_cases hvu : v.name = u.name
    · have hbound : s₁.bindings[v.name]? = some t := by
        rw [hbinds.lookup, if_pos hvu]
      obtain ⟨hs', hlearns⟩ := hrest.learns hs₁
      rw [hs'.resolve_var_of_bound (hlearns.kept hbound)] at hy
      obtain ⟨w, rfl⟩ : ∃ w, t = .var w := Ty.exists_var_of_subst_eq_var hy
      have hhanded : c ∈ s₁.demands.getD w.name ∅ := by
        rw [Store.demands_of_bind hread hbind, Store.mem_demandsAfterBinding_iff]
        exact .inr ⟨.inr rfl, TyVar.mem_context_demanding.2 (.inr (hvu ▸ hc))⟩
      exact ih hs₁ (hbinds.unbound_of_mem (by simp [Ty.names_var])) hhanded hy
    · have hfree : s₁.bindings[v.name]? = none := by
        rw [hbinds.lookup, if_neg hvu, hv]
      exact ih hs₁ hfree (hbinds.demands hc) hy
  | loop hread hbind => exact Store.recorded_of_unbound hv hc hy
  | clash hread => exact Store.recorded_of_unbound hv hc hy

namespace Store

theorem exists_unused (s : Store) (x : String) :
    ∃ z, z ≠ x ∧ s.bindings[z]? = none ∧ s.demands.getD z ∅ = ∅ := by
  obtain ⟨z, hz⟩ := Infinite.exists_notMem_finset
    (insert x (s.bindings.keys.toFinset ∪ s.demands.keys.toFinset))
  simp only [Finset.mem_insert, Finset.mem_union, List.mem_toFinset, Std.ExtTreeMap.mem_keys,
    not_or] at hz
  obtain ⟨hne, hbindings, hdemands⟩ := hz
  exact ⟨z, hne, Std.ExtTreeMap.getElem?_eq_none hbindings,
    Std.ExtTreeMap.getD_eq_fallback hdemands⟩

/-- Unifying an unused variable with an unbound one binds the latter and hands on what is recorded
for it, and nothing else. -/
theorem Acyclic.unify_unused {s : Store} (hs : s.Acyclic) {x z : String}
    (hx : s.bindings[x]? = none) (hz : s.bindings[z]? = none) (hne : z ≠ x)
    (hdemands : s.demands.getD z ∅ = ∅) :
    ∃ t s' y, s.unify (.var (.ofName z)) (.var (.ofName x)) = (.ok t, s') ∧
      (∀ v : TyVar, v.name = x → s'.resolve (.var v) = .var y) ∧
        ∀ c ∈ y.context, c ∈ s.demands.getD x ∅ := by
  have hresz := resolve_var_of_unbound (v := .ofName z) hz
  have hresx := resolve_var_of_unbound (v := .ofName x) hx
  have hread : Reading.of (s.resolve (.var (.ofName z))) (s.resolve (.var (.ofName x))) =
      .bind (s.annotate (.ofName x)) (.var (s.annotate (.ofName z))) := by
    rw [hresz, hresx]
    exact if_neg hne
  have habsent : x ∉ (Ty.var (s.annotate (.ofName z))).names := by
    rw [Ty.names_var, List.mem_singleton]
    exact Ne.symm hne
  obtain ⟨s', hbind⟩ := (hs.bind_eq_of_read hread).2 habsent
  have hbinds : s.Binds x (.var (s.annotate (.ofName z))) s' := hs.binds hread hbind
  obtain ⟨hanswer, hstore⟩ := (Unifies.bind hread hbind).unique (hs.unifies_unify _ _)
  refine ⟨_, s', s'.annotate (s.annotate (.ofName z)), Prod.ext hanswer.symm hstore.symm, ?_, ?_⟩
  · intro v hv
    have hbound : s'.bindings[v.name]? = some (.var (s.annotate (.ofName z))) := by
      rw [hbinds.lookup, if_pos hv]
    rw [(hbinds.acyclic hs).resolve_var_of_bound hbound]
    exact resolve_var_of_unbound (hbinds.unbound_of_mem (by simp [Ty.names_var]))
  · intro c hc
    have hrecorded : s'.demands = s.demandsAfterBinding _ _ := demands_of_bind hread hbind
    have hnone : c ∉ (∅ : SymbolSet) := Std.ExtTreeSet.not_mem_empty
    simp only [annotate, TyVar.mem_context_demanding, TyVar.name_demanding, TyVar.name_ofName,
      hrecorded, mem_demandsAfterBinding_iff, hdemands] at hc
    simp only [TyVar.ofName, hnone] at hc
    tauto

/-! ### Exactly the recorded classes survive -/

theorem Acyclic.resolve_resolve_unify {s s' : Store} (hs : s.Acyclic) {e a : Ty}
    {r : Except UnifyError Ty} (h : s.unify e a = (r, s')) (t : Ty) :
    s'.resolve (s.resolve t) = s'.resolve t := by
  have hs' := hs.acyclic_unify e a
  have hlearns := hs.learns_unify e a
  rw [h] at hs' hlearns
  exact hlearns.toExtends.resolve_resolve hs hs' t

/-- All classes of a variable survive every call of unification exactly when they are recorded for
the unbound variable that it stands for. -/
theorem Acyclic.classes_kept_iff {s : Store} (hs : s.Acyclic) {v x : TyVar}
    (hx : s.resolve (.var v) = .var x) :
    (∀ e a t s' y, s.unify e a = (.ok t, s') → s'.resolve (.var v) = .var y →
        ∀ c ∈ s.classesOf (.var v), c ∈ s'.classesOf (.var v)) ↔
      ∀ c ∈ s.classesOf (.var v), c ∈ s.demands.getD x.name ∅ := by
  have hfree : s.bindings[x.name]? = none := by
    apply hs.unbound_of_mem (u := .var v)
    rw [hx, Ty.names_var]
    exact List.mem_singleton_self _
  constructor
  · -- a call that binds the variable to an unused one shows what is recorded for it
    intro hkept c hc
    obtain ⟨z, hne, hz, hdemands⟩ := s.exists_unused x.name
    obtain ⟨t, s', y, hunify, hresolve, honly⟩ := hs.unify_unused hfree hz hne hdemands
    have hy : s'.resolve (.var v) = .var y := by
      rw [← hs.resolve_resolve_unify hunify, hx, hresolve x rfl]
    have hstill := hkept _ _ t s' y hunify hy c hc
    exact honly c ((mem_classesOf_of_resolve hy).1 hstill)
  · intro hrecorded e a t s' y hunify hy c hc
    have hrun := hs.solving_unify e a
    rw [hunify] at hrun
    have hxy : s'.resolve (.var x) = .var y := by
      rw [← hx, hs.resolve_resolve_unify hunify, hy]
    have hmoved := hrun.recorded hs hfree (hrecorded c hc) hxy
    have hmem : y ∈ (s'.resolve (.var v)).vars := by
      rw [hy]
      exact List.mem_singleton_self y
    exact (mem_classesOf_of_resolve hy).2 (mem_context_of_recorded hmem hmoved)

end Store

/-! ### Parts of an equation have no variables of their own -/

theorem Reading.mem_vars_of_split {e a : Ty} {parts : List Equation}
    (h : Reading.of e a = .split parts) {eq : Equation} (heq : eq ∈ parts) {v : TyVar}
    (hv : v ∈ eq.1.vars ∨ v ∈ eq.2.vars) : v ∈ e.vars ∨ v ∈ a.vars := by
  cases e <;> cases a <;> simp only [Reading.of] at h
  case fn.fn a r b q =>
    cases h
    simp only [List.mem_cons, List.not_mem_nil, or_false] at heq
    simp only [Ty.vars, List.mem_append]
    rcases heq with rfl | rfl <;> tauto
  case app.app g b k d =>
    cases h
    simp only [List.mem_cons, List.not_mem_nil, or_false] at heq
    simp only [Ty.vars, List.mem_append]
    rcases heq with rfl | rfl <;> tauto
  case sum.sum c ts c' us =>
    split at h
    · cases h
      obtain ⟨hleft, hright⟩ := List.of_mem_zip heq
      simp only [Ty.vars, Ty.varsAll_eq, List.mem_flatMap]
      exact hv.imp (fun hv => ⟨_, hleft, hv⟩) (fun hv => ⟨_, hright, hv⟩)
    · cases h
  case app.sum g b c ts =>
    split at h
    · rename_i parts' hparts
      cases h
      obtain ⟨hleft, hright⟩ := Ty.mem_vars_spread hparts heq
      exact hv.imp (hleft v) (hright v)
    · cases h
  case sum.app c ts g b =>
    split at h
    · rename_i parts' hparts
      cases h
      obtain ⟨eq', heq', rfl⟩ := List.mem_map.1 heq
      obtain ⟨hleft, hright⟩ := Ty.mem_vars_spread hparts heq'
      exact hv.imp (hright v) (hleft v)
    · cases h
  all_goals grind

/-! ### Runs that record classes first -/

/-- The type demands of its variables only what is recorded for them. -/
def Ty.RecordedIn (t : Ty) (s : Store) : Prop :=
  ∀ v ∈ t.vars, ∀ c ∈ v.context, c ∈ s.demands.getD v.name ∅

/-- What variables are bound to demands only what is recorded. -/
def Store.Recorded (s : Store) : Prop :=
  ∀ (x : String) (t : Ty), s.bindings[x]? = some t → t.RecordedIn s

theorem Ty.recordedIn_var {v : TyVar} {s : Store} :
    (Ty.var v).RecordedIn s ↔ ∀ c ∈ v.context, c ∈ s.demands.getD v.name ∅ := by
  simp [RecordedIn, vars]

theorem Ty.recordedIn_ofName (name : String) (s : Store) :
    (Ty.var (.ofName name)).RecordedIn s :=
  recordedIn_var.2 fun _ hc => absurd hc Std.ExtTreeSet.not_mem_empty

theorem Ty.recordedIn_subst {f : TyVar → Ty} {t : Ty} {s : Store}
    (h : ∀ v ∈ t.vars, (f v).RecordedIn s) : (t.subst f).RecordedIn s := by
  intro w hw
  rw [vars_subst, List.mem_flatMap] at hw
  obtain ⟨v, hv, hwv⟩ := hw
  exact h v hv w hwv

theorem Ty.RecordedIn.mono {t : Ty} {s s' : Store} (h : t.RecordedIn s)
    (hmore : ∀ {x : String} {c : Symbol}, c ∈ s.demands.getD x ∅ → c ∈ s'.demands.getD x ∅) :
    t.RecordedIn s' :=
  fun v hv c hc => hmore (h v hv c hc)

namespace Store

theorem Recorded.resolve {s : Store} (h : s.Recorded) {t : Ty} (ht : t.RecordedIn s) :
    (s.resolve t).RecordedIn s := by
  refine s.resolve_induction (P := fun v => (Ty.var v).RecordedIn s)
    (M := fun u => u.RecordedIn s) ?_ ?_ ?_ ?_
  · intro v hv
    rw [Ty.recordedIn_var] at hv ⊢
    intro c hc
    exact (TyVar.mem_context_demanding.1 hc).elim (hv c) id
  · exact fun x u hu v hv => Ty.recordedIn_var.2 (h x u hu v hv)
  · exact fun f u hu => Ty.recordedIn_subst hu
  · exact fun v hv => Ty.recordedIn_var.2 (ht v hv)

theorem Binds.recorded {s s' : Store} {x : String} {t : Ty} (h : s.Binds x t s') (hs : s.Recorded)
    (ht : t.RecordedIn s) : s'.Recorded := by
  intro y u hy
  rw [h.lookup] at hy
  split at hy
  · cases hy
    exact ht.mono h.demands
  · exact (hs y u hy).mono h.demands

end Store

theorem Solving.keeps_recorded {eqs : List Equation} {s s' : Store} {r : Except UnifyError Unit}
    (h : Solving eqs s r s') (hs : s.Acyclic) (hrec : s.Recorded)
    (heqs : ∀ eq ∈ eqs, eq.1.RecordedIn s ∧ eq.2.RecordedIn s) : s'.Recorded := by
  induction h with
  | done s => exact hrec
  | agree hread hrest ih => exact ih hs hrec (List.forall_mem_cons.1 heqs).2
  | @split e a eqs parts s s' r hread hrest ih =>
    obtain ⟨⟨he, ha⟩, htail⟩ := List.forall_mem_cons.1 heqs
    refine ih hs hrec (List.forall_mem_append.2 ⟨fun eq heq => ?_, htail⟩)
    have hpart : ∀ v, v ∈ eq.1.vars ∨ v ∈ eq.2.vars →
        ∀ c ∈ v.context, c ∈ s.demands.getD v.name ∅ := by
      intro v hv
      rcases Reading.mem_vars_of_split hread heq hv with hv | hv
      · exact hrec.resolve he v hv
      · exact hrec.resolve ha v hv
    exact ⟨fun v hv => hpart v (.inl hv), fun v hv => hpart v (.inr hv)⟩
  | @bind e a t v eqs s s₁ s' r hread hbind hrest ih =>
    obtain ⟨⟨he, ha⟩, htail⟩ := List.forall_mem_cons.1 heqs
    have hbinds := hs.binds hread hbind
    have ht : t.RecordedIn s := by
      rcases (Reading.of_eq_bind hread).1 with ⟨-, hat, -⟩ | ⟨-, het⟩
      · exact hat ▸ hrec.resolve ha
      · exact het ▸ hrec.resolve he
    refine ih (hbinds.acyclic hs) (hbinds.recorded hrec ht) fun eq heq => ?_
    exact ⟨(htail eq heq).1.mono hbinds.demands, (htail eq heq).2.mono hbinds.demands⟩
  | loop hread hbind => exact hrec
  | clash hread => exact hrec

namespace Store

/-- The types given to unification, or bound by hand, demand only what is recorded. -/
def CarriesRecorded (s : Store) : Call → Prop
  | .unify e a => e.RecordedIn s ∧ a.RecordedIn s
  | .bind _ t => t.RecordedIn s
  | _ => True

/-- Along the calls, classes are recorded before a type that demands them is unified. -/
def RecordsFirst : Store → List Call → Prop
  | _, [] => True
  | s, c :: calls => s.CarriesRecorded c ∧ (s.call c).2.RecordsFirst calls

theorem Recorded.bind {s s' : Store} (h : s.Recorded) {v : TyVar} {t : Ty} (ht : t.RecordedIn s)
    (hbind : s.bind v t = .ok s') : s'.Recorded := by
  unfold Store.bind at hbind
  split at hbind
  · cases hbind
    exact h
  · split at hbind
    · cases hbind
    · cases hbind
      intro x u hx
      simp only [Bindings.lookup_insert] at hx
      split at hx
      · cases hx
        exact ht.mono mem_demandsAfterBinding
      · exact (h x u hx).mono mem_demandsAfterBinding

theorem Recorded.call {s : Store} (h : s.Recorded) (hs : s.Acyclic) {c : Call}
    (hc : s.CarriesRecorded c) : (s.call c).2.Recorded := by
  cases c with
  | unify e a =>
    rw [snd_call_unify]
    apply (hs.solving_unify e a).keeps_recorded hs h
    intro eq heq
    obtain rfl : eq = (e, a) := List.mem_singleton.1 heq
    exact hc
  | bind v t =>
    simp only [Store.call]
    split
    · rename_i hbind
      exact h.bind hc hbind
    · exact h
  | demand t classes => exact fun x u hx => (h x u hx).mono (s.mem_demands_demand t classes)
  | _ => exact h

theorem recorded_empty (stem : String) : (empty stem).Recorded := by
  intro x t hx
  simp [empty] at hx

theorem Recorded.callAll {s : Store} (h : s.Recorded) (hs : s.Acyclic) {calls : List Call}
    (hbinds : s.BindsUnbound calls) (hfirst : s.RecordsFirst calls) : (s.callAll calls).Recorded := by
  induction calls generalizing s with
  | nil => exact h
  | cons c calls ih => exact ih (h.call hs hfirst.1) (hs.precedes_call hbinds.1).acyclic hbinds.2 hfirst.2

/-- In every store that can be reached, unification keeps all classes of a variable exactly when they
are recorded for the variable that it stands for. And if classes are always recorded before a type that
demands them is unified, then they are, and unification drops no class of any variable. -/
theorem unify_keeps_classes_iff_recorded (stem : String) (calls : List Call)
    (hbinds : (empty stem).BindsUnbound calls) :
    let s := (empty stem).callAll calls
    (∀ v x : TyVar, s.resolve (.var v) = .var x →
      ((∀ e a t s' y, s.unify e a = (.ok t, s') → s'.resolve (.var v) = .var y →
          ∀ c ∈ s.classesOf (.var v), c ∈ s'.classesOf (.var v)) ↔
        ∀ c ∈ s.classesOf (.var v), c ∈ s.demands.getD x.name ∅)) ∧
    ((empty stem).RecordsFirst calls →
      ∀ (name : String) (e a t : Ty) (s' : Store) (x y : TyVar), s.unify e a = (.ok t, s') →
        s.resolve (.var (.ofName name)) = .var x → s'.resolve (.var (.ofName name)) = .var y →
          ∀ c ∈ s.classesOf (.var (.ofName name)), c ∈ s'.classesOf (.var (.ofName name))) := by
  intro s
  have hs : s.Acyclic := (acyclic_empty stem).acyclic_callAll hbinds
  refine ⟨fun v x hx => hs.classes_kept_iff hx, ?_⟩
  intro hfirst name e a t s' x y hunify hx hy
  have hrec : s.Recorded := (recorded_empty stem).callAll (acyclic_empty stem) hbinds hfirst
  refine (hs.classes_kept_iff hx).2 (fun c hc => ?_) e a t s' y hunify hy
  have hres := hrec.resolve (Ty.recordedIn_ofName name s)
  rw [hx, Ty.recordedIn_var] at hres
  exact hres c ((mem_classesOf_of_resolve hx).1 hc)

/-- After `Num a` was recorded and `a` unified with `b`, binding `a` to `c` keeps `Num` for `b`. If
the class was only demanded by the occurrence of `a` that was unified, some call drops it. -/
theorem unify_keeps_classes_iff_recorded_num :
    let num : Symbol := .unqualified "Num"
    let a : Ty := .var (.ofName "a")
    let b : Ty := .var (.ofName "b")
    let c : Ty := .var (.ofName "c")
    let recorded := (empty "t").callAll [.demand a {num}, .unify a b]
    let carried := (empty "t").callAll [.unify (.var ⟨"a", {num}⟩) b]
    (empty "t").BindsUnbound [.demand a {num}, .unify a b] ∧
      (empty "t").RecordsFirst [.demand a {num}, .unify a b] ∧
      num ∈ (recorded.unify c a).2.classesOf b ∧
        ¬ ∀ e a t s' y, carried.unify e a = (.ok t, s') → s'.resolve b = .var y →
          ∀ c ∈ carried.classesOf b, c ∈ s'.classesOf b := by
  intro num a b c recorded carried
  have hbinds : (empty "t").BindsUnbound [.demand a {num}, .unify a b] := ⟨nofun, nofun, trivial⟩
  have hfirst : (empty "t").RecordsFirst [.demand a {num}, .unify a b] :=
    ⟨trivial, ⟨Ty.recordedIn_ofName "a" _, Ty.recordedIn_ofName "b" _⟩, trivial⟩
  have hcarried : (empty "t").BindsUnbound [.unify (.var ⟨"a", {num}⟩) b] := ⟨nofun, trivial⟩
  have hok : (recorded.unify c a).1 = .ok c := by decide +kernel
  have hb : recorded.resolve b = .var ⟨"a", {num}⟩ := by decide +kernel
  have hb' : (recorded.unify c a).2.resolve b = .var ⟨"c", {num}⟩ := by decide +kernel
  have hcarries : carried.resolve b = .var ⟨"a", {num}⟩ := by decide +kernel
  refine ⟨hbinds, hfirst, ?_, fun hkept => ?_⟩
  · rcases hunify : recorded.unify c a with ⟨r, s'⟩
    rw [hunify] at hok hb'
    cases hok
    exact (unify_keeps_classes_iff_recorded "t" _ hbinds).2 hfirst "b" c a c s' _ _ hunify hb hb' num
      (by decide +kernel)
  · have hrecorded := ((unify_keeps_classes_iff_recorded "t" _ hcarried).1 (.ofName "b") _ hcarries).1 hkept
    exact absurd (hrecorded num (by decide +kernel)) (by decide +kernel)

/-- `Num a` is unified with `b`, so that `b` stands for `a` and has the class `Num`. Then `a`, as it
is written without its class, is bound to `c`: `b` stands for `c` and has lost the class. -/
theorem class_dropped_by_second_binding :
    let num : Symbol := .unqualified "Num"
    let a : Ty := .var (.ofName "a")
    let b : Ty := .var (.ofName "b")
    let c : Ty := .var (.ofName "c")
    let s := (empty "t").callAll [.unify (.var ⟨"a", {num}⟩) b]
    let s' := (s.unify c a).2
    (s.unify c a).1 = .ok c ∧ s.resolve b = .var ⟨"a", {num}⟩ ∧ s'.resolve b = c ∧
      num ∈ s.classesOf b ∧ num ∉ s'.classesOf b :=
  ⟨rfl, rfl, rfl, by decide, by decide⟩

end Store

end TypeEngine
