import TypeEngine.Proofs.BindingGraph

/-! # Resolution over acyclic bindings

Resolution hides a variable while it expands that variable, which only matters on a cycle. Over
acyclic bindings a bound variable stands for its resolved binding outright
(`Acyclic.expandAll_of_bound`); the variables left in a resolved type are the unbound ones that can be
reached; and resolving in a store that knows less first changes nothing. An assignment respects a
store when it makes each bound variable equal to its binding. Such an assignment cannot tell a type
from its resolved form, and over acyclic bindings resolution itself is one. -/

namespace TypeEngine

open Relation

namespace Store

open Bindings

/-! ### Expansion -/

/-- Resolution only puts in what variables are bound to, over and over. So a property of types that
substitution keeps holds of a resolved type, if it holds of the variables that can be left in it; `P`
is what is known of the variables that are met on the way. The bindings may run in circles. -/
theorem resolve_induction (s : Store) {P : TyVar → Prop} {M : Ty → Prop}
    (hleft : ∀ v, P v → M (.var (s.annotate v)))
    (hbound : ∀ (x : String) (t : Ty), s.bindings[x]? = some t → ∀ v ∈ t.vars, P v)
    (hsubst : ∀ (f : TyVar → Ty) (t : Ty), (∀ v ∈ t.vars, M (f v)) → M (t.subst f)) {t : Ty}
    (ht : ∀ v ∈ t.vars, P v) : M (s.resolve t) := by
  have hexpand : ∀ (n : Nat) (b : Bindings),
      (∀ (x : String) (r : Ty), b[x]? = some r → s.bindings[x]? = some r) →
        ∀ v : TyVar, P v → M (s.expand n b v) := by
    intro n
    induction n with
    | zero => exact fun b _ v hv => hleft v hv
    | succ n ih =>
      intro b hb v hv
      rw [expand]
      cases hr : b[v.name]? with
      | none => exact hleft v hv
      | some r =>
        have herase : ∀ (x : String) (u : Ty),
            (b.erase v.name)[x]? = some u → s.bindings[x]? = some u := by
          intro x u hx
          rw [lookup_erase] at hx
          split at hx
          · cases hx
          · exact hb x u hx
        exact hsubst _ r fun w hw => ih _ herase w (hbound v.name r (hb _ _ hr) w hw)
  exact hsubst _ t fun v hv => hexpand _ _ (fun _ _ h => h) v (ht v hv)

theorem expand_congr {s s' : Store} (h : s'.demands = s.demands) (n : Nat) (b : Bindings)
    (v : TyVar) : s'.expand n b v = s.expand n b v := by
  have hvar : ∀ w, s'.annotate w = s.annotate w := fun w => by rw [annotate, annotate, h]
  induction n generalizing b v with
  | zero => simp only [expand, hvar]
  | succ n ih =>
    have hfun : ∀ b', s'.expand n b' = s.expand n b' := fun b' => funext (ih b')
    simp only [expand, hvar, hfun]

/-- Resolution reads bindings and recorded classes, and nothing else of a store. -/
theorem resolve_congr {s s' : Store} (hb : s'.bindings = s.bindings) (hd : s'.demands = s.demands)
    (t : Ty) : s'.resolve t = s.resolve t := by
  have hfun : s'.expandAll s'.bindings = s.expandAll s.bindings := by
    funext v
    rw [expandAll, expandAll, hb, expand_congr hd]
  rw [resolve, resolve, hfun]

/-- The expansion of a variable only looks at the variables it reaches. -/
theorem expandAll_eq_of_agree (s : Store) {b b' : Bindings} {v : TyVar}
    (h : ∀ y, Reaches b v.name y → b[y]? = b'[y]?) : s.expandAll b v = s.expandAll b' v := by
  induction hn : b.size using Nat.strongRecOn generalizing b b' v with
  | ind n ih =>
    have hv : b[v.name]? = b'[v.name]? := h v.name .refl
    cases hb : b[v.name]? with
    | none => rw [expandAll_of_unbound s hb, expandAll_of_unbound s (hv ▸ hb)]
    | some t =>
      rw [expandAll_of_bound s hb, expandAll_of_bound s (hv ▸ hb)]
      apply Ty.subst_congr
      intro w hw
      apply ih _ (hn ▸ size_erase_lt hb) _ rfl
      intro y hy
      have hmono : Reaches b w.name y := ReflTransGen.mono (fun _ _ => edge_of_edge_erase) _ _ hy
      have hvy : Reaches b v.name y := .head (edge_of_mem_vars hb hw) hmono
      rw [lookup_erase, lookup_erase, h y hvy]

theorem expandAll_of_bound_of_acyclic (s : Store) {b : Bindings} (hb : Bindings.Acyclic b)
    {v : TyVar} {t : Ty} (h : b[v.name]? = some t) :
    s.expandAll b v = t.subst (s.expandAll b) := by
  rw [expandAll_of_bound s h]
  apply Ty.subst_congr
  intro w hw
  refine (expandAll_eq_of_agree s fun y hy => ?_).symm
  -- `w` does not reach `v`, so the hidden binding is not missed
  have hne : y ≠ v.name := by
    intro hyv
    exact hb v.name (TransGen.head' (edge_of_mem_vars h hw) (hyv ▸ hy))
  rw [lookup_erase, if_neg hne]

namespace Acyclic

theorem expandAll_of_bound {s : Store} (hs : s.Acyclic) {v : TyVar} {t : Ty}
    (h : s.bindings[v.name]? = some t) : s.expandAll s.bindings v = s.resolve t :=
  expandAll_of_bound_of_acyclic s hs h

/-- The variables of a resolved type are the unbound ones reached from the type. -/
theorem mem_names_expandAll {s : Store} (hs : s.Acyclic) {v : TyVar} {x : String} :
    x ∈ (s.expandAll s.bindings v).names ↔
      s.bindings[x]? = none ∧ Reaches s.bindings v.name x := by
  induction hv : v.name using hs.induction generalizing v with
  | step y ih =>
    subst hv
    cases hb : s.bindings[v.name]? with
    | none =>
      rw [expandAll_of_unbound s hb, Ty.names_var, name_annotate, List.mem_singleton]
      constructor
      · intro hx
        rw [hx]
        exact ⟨hb, .refl⟩
      · intro hx
        rcases hx.2.cases_head with heq | ⟨c, ⟨t, ht, -⟩, -⟩
        · exact heq.symm
        · simp [hb] at ht
    | some t =>
      rw [expandAll_of_bound_of_acyclic s hs hb, Ty.mem_names_subst]
      constructor
      · intro hmem
        obtain ⟨w, hw, hx⟩ := hmem
        have hedge := edge_of_mem_vars hb hw
        have hih := (ih w.name hedge rfl).1 hx
        exact ⟨hih.1, .head hedge hih.2⟩
      · intro hfree
        obtain ⟨hx, hreach⟩ := hfree
        rcases hreach.cases_head with heq | ⟨c, hedge, hc⟩
        · rw [← heq, hb] at hx
          cases hx
        · obtain ⟨r, hr, hmem⟩ := id hedge
          obtain rfl : t = r := Option.some.inj (hb.symm.trans hr)
          obtain ⟨w, hw, rfl⟩ := Ty.mem_names.1 (Ty.mentions_iff.1 hmem)
          exact ⟨w, hw, (ih w.name hedge rfl).2 ⟨hx, hc⟩⟩

theorem resolve_var_of_bound {s : Store} (hs : s.Acyclic) {v : TyVar} {t : Ty}
    (h : s.bindings[v.name]? = some t) : s.resolve (.var v) = s.resolve t :=
  hs.expandAll_of_bound h

theorem mem_names_resolve {s : Store} (hs : s.Acyclic) {t : Ty} {x : String} :
    x ∈ (s.resolve t).names ↔
      s.bindings[x]? = none ∧ ∃ y ∈ t.names, Reaches s.bindings y x := by
  simp only [resolve, Ty.mem_names_subst, hs.mem_names_expandAll]
  constructor
  · intro hmem
    obtain ⟨v, hv, hx, hreach⟩ := hmem
    exact ⟨hx, v.name, Ty.mem_names.2 ⟨v, hv, rfl⟩, hreach⟩
  · intro hfree
    obtain ⟨hx, y, hy, hreach⟩ := hfree
    obtain ⟨v, hv, rfl⟩ := Ty.mem_names.1 hy
    exact ⟨v, hv, hx, hreach⟩

end Acyclic

theorem resolve_var_of_unbound {s : Store} {v : TyVar} (h : s.bindings[v.name]? = none) :
    s.resolve (.var v) = .var (s.annotate v) :=
  expandAll_of_unbound s h

theorem resolve_of_unbound (s : Store) {t : Ty} (h : ∀ x ∈ t.names, s.bindings[x]? = none) :
    s.resolve t = t.subst fun v => .var (s.annotate v) := by
  apply Ty.subst_congr
  intro v hv
  exact expandAll_of_unbound s (h v.name (Ty.mem_names.2 ⟨v, hv, rfl⟩))

/-! ### Stores that know more -/

/-- `s'` has the bindings of `s`, and records at least the demands that `s` records. -/
structure Extends (s s' : Store) : Prop where
  bindings : ∀ {x : String} {t : Ty}, s.bindings[x]? = some t → s'.bindings[x]? = some t
  demands : ∀ {x : String} {c : Symbol}, c ∈ s.demands.getD x ∅ → c ∈ s'.demands.getD x ∅

theorem Extends.annotate_annotate {s s' : Store} (h : s.Extends s') (v : TyVar) :
    s'.annotate (s.annotate v) = s'.annotate v := by
  have hctx : (s'.annotate (s.annotate v)).context = (s'.annotate v).context := by
    apply Std.ExtTreeSet.ext_mem
    intro c
    simp only [annotate, TyVar.mem_context_demanding, TyVar.name_demanding]
    constructor
    · intro hc
      rcases hc with (hc | hc) | hc
      · exact .inl hc
      · exact .inr (h.demands hc)
      · exact .inr hc
    · intro hc
      rcases hc with hc | hc
      · exact .inl (.inl hc)
      · exact .inr hc
  exact congrArg (TyVar.mk v.name) hctx

theorem expandAll_congr_name (s : Store) {b : Bindings} {v w : TyVar} {t : Ty}
    (hname : v.name = w.name) (h : b[v.name]? = some t) : s.expandAll b v = s.expandAll b w := by
  rw [Store.expandAll_of_bound s h, Store.expandAll_of_bound s (hname ▸ h), hname]

/-- Two occurrences of a name stand for one type, up to their own demands if the name is not bound. -/
theorem expandAll_ofName (s : Store) (v : TyVar) :
    s.expandAll s.bindings v = s.resolve (.var (.ofName v.name)) ∨
      s.expandAll s.bindings v = .var (s.annotate v) ∧
        s.resolve (.var (.ofName v.name)) = .var (s.annotate (.ofName v.name)) := by
  cases hv : s.bindings[v.name]? with
  | none => exact .inr ⟨expandAll_of_unbound s hv, expandAll_of_unbound s (by exact hv)⟩
  | some t => exact .inl (expandAll_congr_name s (TyVar.name_ofName v.name).symm hv)

/-- Resolving in a store that knows less first changes nothing. -/
theorem Extends.resolve_resolve {s s' : Store} (h : s.Extends s') (hs : s.Acyclic)
    (hs' : s'.Acyclic) (t : Ty) : s'.resolve (s.resolve t) = s'.resolve t := by
  have hvar : ∀ v : TyVar, s'.resolve (s.expandAll s.bindings v) = s'.expandAll s'.bindings v := by
    intro v
    induction hv : v.name using hs.induction generalizing v with
    | step y ih =>
      subst hv
      cases hb : s.bindings[v.name]? with
      | some r =>
        rw [hs.expandAll_of_bound hb, hs'.expandAll_of_bound (h.bindings hb)]
        simp only [resolve, Ty.subst_subst]
        apply Ty.subst_congr
        intro w hw
        exact ih w.name (edge_of_mem_vars hb hw) w rfl
      | none =>
        rw [expandAll_of_unbound s hb]
        show s'.expandAll s'.bindings (s.annotate v) = s'.expandAll s'.bindings v
        cases hb' : s'.bindings[v.name]? with
        | none =>
          rw [expandAll_of_unbound s' hb', expandAll_of_unbound s' (by exact hb'),
            h.annotate_annotate]
        | some r => exact (expandAll_congr_name s' (name_annotate s v).symm hb').symm
  simp only [resolve, Ty.subst_subst]
  exact Ty.subst_congr fun v _ => hvar v

end Store

/-! ### Assignments that respect a store -/

/-- The assignment makes every bound variable equal to what it is bound to. -/
def Assignment.Respects (θ : Assignment) (s : Store) : Prop :=
  ∀ x t, s.bindings[x]? = some t → (θ x).simplify = (θ.replace t).simplify

theorem Assignment.Respects.value_resolve {θ : Assignment} {s : Store} (hθ : θ.Respects s)
    (t : Ty) : θ.value (s.resolve t) = θ.value t := by
  have hvar : ∀ n (b : Bindings), (∀ (x : String) (r : Ty), b[x]? = some r → s.bindings[x]? = some r) →
      ∀ v : TyVar, θ.value (s.expand n b v) = (θ v.name).simplify := by
    intro n
    induction n with
    | zero => exact fun b _ v => rfl
    | succ n ih =>
      intro b hb v
      rw [Store.expand]
      cases hv : b[v.name]? with
      | none => rfl
      | some r =>
        have herase : ∀ (x : String) (u : Ty), (b.erase v.name)[x]? = some u → s.bindings[x]? = some u := by
          intro x u hx
          rw [Bindings.lookup_erase] at hx
          split at hx
          · cases hx
          · exact hb x u hx
        simp only [θ.value_subst, ih _ herase]
        rw [← θ.value_eq_subst]
        exact (hθ v.name r (hb _ _ hv)).symm
  rw [Store.resolve, θ.value_subst, θ.value_eq_subst]
  apply Ty.subst_congr
  intro v _
  exact hvar _ _ (fun _ _ h => h) v

/-- What every name stands for in the store. -/
def Store.assignment (s : Store) : Assignment := fun x => s.resolve (.var (.ofName x))

theorem Store.value_assignment (s : Store) (t : Ty) :
    s.assignment.value t = (s.resolve t).simplify := by
  rw [Assignment.value_eq_subst, Store.resolve, Ty.simplify_subst]
  apply Ty.subst_congr
  intro v _
  rcases s.expandAll_ofName v with hsame | ⟨hv, hname⟩
  · exact congrArg _ hsame.symm
  · rw [hv]
    exact (congrArg Ty.simplify hname).trans rfl

theorem Store.Acyclic.respects_assignment {s : Store} (hs : s.Acyclic) :
    s.assignment.Respects s := by
  intro x t hx
  show (s.expandAll s.bindings (.ofName x)).simplify = s.assignment.value t
  rw [hs.expandAll_of_bound (by exact hx), value_assignment]

end TypeEngine
