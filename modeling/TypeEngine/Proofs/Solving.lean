import TypeEngine.Proofs.Equations
import TypeEngine.Proofs.Resolution

/-! # Runs of unification

`Solving eqs s r s'` says that working through the equations from the left, in the store `s`, ends
with the outcome `r` in the store `s'`; no number of steps is given. What one binding does is said
once, in `Store.Binds`, and everything a run keeps follows by induction on the run: the bindings stay
acyclic, the store only learns about variables that occur in the resolved equations, and the
assignments that respect the final store are those that respected the first one and solve all
equations. -/

namespace TypeEngine

/-- Working through the equations `eqs` in a store ends with an outcome in another store. -/
inductive Solving : List Equation → Store → Except UnifyError Unit → Store → Prop
  | done (s : Store) : Solving [] s (.ok ()) s
  | agree {e a : Ty} {eqs : List Equation} {s s' : Store} {r : Except UnifyError Unit}
      (hread : Reading.of (s.resolve e) (s.resolve a) = .agree)
      (hrest : Solving eqs s r s') : Solving ((e, a) :: eqs) s r s'
  | split {e a : Ty} {eqs parts : List Equation} {s s' : Store} {r : Except UnifyError Unit}
      (hread : Reading.of (s.resolve e) (s.resolve a) = .split parts)
      (hrest : Solving (parts ++ eqs) s r s') : Solving ((e, a) :: eqs) s r s'
  | bind {e a t : Ty} {v : TyVar} {eqs : List Equation} {s s₁ s' : Store}
      {r : Except UnifyError Unit}
      (hread : Reading.of (s.resolve e) (s.resolve a) = .bind v t) (hbind : s.bind v t = .ok s₁)
      (hrest : Solving eqs s₁ r s') : Solving ((e, a) :: eqs) s r s'
  | loop {e a t : Ty} {v : TyVar} {eqs : List Equation} {s : Store} {err : UnifyError}
      (hread : Reading.of (s.resolve e) (s.resolve a) = .bind v t)
      (hbind : s.bind v t = .error err) : Solving ((e, a) :: eqs) s (.error err) s
  | clash {e a : Ty} {eqs : List Equation} {s : Store}
      (hread : Reading.of (s.resolve e) (s.resolve a) = .clash) :
      Solving ((e, a) :: eqs) s (.error (.mismatch (s.resolve e) (s.resolve a))) s

/-! ### Recorded demands -/

theorem Demands.mem_getD_add {d : Demands} {name x : String} {classes : SymbolSet} {c : Symbol} :
    c ∈ (d.add name classes).getD x ∅ ↔ c ∈ d.getD x ∅ ∨ x = name ∧ c ∈ classes := by
  rw [Demands.add, Std.ExtTreeMap.getD_insert]
  by_cases hx : x = name
  · simp [hx, Std.ExtTreeSet.mem_union_iff]
  · simp [hx, Ne.symm hx]

namespace Store

theorem mem_demandsAfterBinding {s : Store} {v : TyVar} {t : Ty} {x : String} {c : Symbol}
    (h : c ∈ s.demands.getD x ∅) : c ∈ (s.demandsAfterBinding v t).getD x ∅ := by
  simp only [demandsAfterBinding]
  split
  · exact h
  · split
    · exact Demands.mem_getD_add.2 (.inl (Demands.mem_getD_add.2 (.inl h)))
    · exact Demands.mem_getD_add.2 (.inl h)

/-! ### One binding -/

/-- `s'` is `s` with the unbound variable `x` bound to `t`. No variable of `t` is bound, `x` is not
among them, and demands are at most added. -/
structure Binds (s : Store) (x : String) (t : Ty) (s' : Store) : Prop where
  unbound : s.bindings[x]? = none
  absent : x ∉ t.names
  resolved : ∀ y ∈ t.names, s.bindings[y]? = none
  bindings : s'.bindings = s.bindings.insert x t
  demands : ∀ {y : String} {c : Symbol}, c ∈ s.demands.getD y ∅ → c ∈ s'.demands.getD y ∅
  pins : s'.pins = s.pins
  heads : s'.heads = s.heads
  counter : s'.counter = s.counter
  stem : s'.stem = s.stem

namespace Binds

variable {s s' : Store} {x : String} {t : Ty}

theorem lookup (h : s.Binds x t s') (y : String) :
    s'.bindings[y]? = if y = x then some t else s.bindings[y]? := by
  rw [h.bindings, Bindings.lookup_insert]

theorem toExtends (h : s.Binds x t s') : s.Extends s' where
  bindings := by
    intro y u hy
    have hne : y ≠ x := by
      intro hyx
      rw [hyx, h.unbound] at hy
      cases hy
    rw [h.lookup, if_neg hne, hy]
  demands := h.demands

theorem acyclic (h : s.Binds x t s') (hs : s.Acyclic) : s'.Acyclic := by
  rw [Store.Acyclic, h.bindings]
  apply Bindings.Acyclic.insert hs
  intro y hy hreach
  rcases hreach.cases_head with heq | ⟨z, ⟨u, hu, -⟩, -⟩
  · exact h.absent (heq ▸ hy)
  · rw [h.resolved y hy] at hu
    cases hu

theorem unbound_of_mem (h : s.Binds x t s') {y : String} (hy : y ∈ t.names) :
    s'.bindings[y]? = none := by
  have hne : y ≠ x := by
    intro hyx
    exact h.absent (hyx ▸ hy)
  rw [h.lookup, if_neg hne, h.resolved y hy]

theorem expandAll_eq (h : s.Binds x t s') (hs : s.Acyclic) {w : TyVar}
    (hw : s.bindings[w.name]? = none) :
    s'.expandAll s'.bindings w =
      if w.name = x then t.subst (fun v => .var (s'.annotate v)) else .var (s'.annotate w) := by
  split
  · rename_i hwx
    rw [(h.acyclic hs).expandAll_of_bound (by rw [h.lookup, if_pos hwx]),
      resolve_of_unbound s' fun y hy => h.unbound_of_mem hy]
  · rename_i hwx
    rw [expandAll_of_unbound s' (by rw [h.lookup, if_neg hwx, hw])]

/-- The resolved form after the binding is the resolved form before it with `x` replaced. -/
theorem resolve_eq (h : s.Binds x t s') (hs : s.Acyclic) (u : Ty) :
    s'.resolve u = (s.resolve u).subst fun w =>
      if w.name = x then t.subst (fun v => .var (s'.annotate v)) else .var (s'.annotate w) := by
  rw [← h.toExtends.resolve_resolve hs (h.acyclic hs) u]
  apply Ty.subst_congr
  intro w hw
  exact h.expandAll_eq hs (hs.mem_names_resolve.1 (Ty.mem_names.2 ⟨w, hw, rfl⟩)).1

theorem mem_names_resolve (h : s.Binds x t s') (hs : s.Acyclic) {u : Ty} {y : String}
    (hy : y ∈ (s'.resolve u).names) :
    y ≠ x ∧ (y ∈ (s.resolve u).names ∨ y ∈ t.names) := by
  have hne : y ≠ x := by
    intro hyx
    have hnone := ((h.acyclic hs).mem_names_resolve.1 hy).1
    rw [h.lookup, if_pos hyx] at hnone
    cases hnone
  refine ⟨hne, ?_⟩
  rw [h.resolve_eq hs u, Ty.mem_names_subst] at hy
  obtain ⟨w, hw, hyw⟩ := hy
  split at hyw
  · obtain ⟨v, hv, hyv⟩ := Ty.mem_names_subst.1 hyw
    rw [Ty.names_var, List.mem_singleton] at hyv
    exact .inr (Ty.mem_names.2 ⟨v, hv, hyv.symm⟩)
  · rw [Ty.names_var, List.mem_singleton] at hyw
    exact .inl (Ty.mem_names.2 ⟨w, hw, hyw.symm⟩)

theorem respects_iff (h : s.Binds x t s') {θ : Assignment} :
    θ.Respects s' ↔ θ.Respects s ∧ (θ x).simplify = θ.value t := by
  constructor
  · intro hθ
    refine ⟨fun y u hy => hθ y u (h.toExtends.bindings hy), hθ x t ?_⟩
    rw [h.lookup, if_pos rfl]
  · intro hboth y u hy
    obtain ⟨hθ, hx⟩ := hboth
    rw [h.lookup] at hy
    split at hy
    · rename_i hyx
      cases hy
      rw [hyx]
      exact hx
    · exact hθ y u hy

end Binds

/-! ### Equations in a store -/

/-- A variable named `x` is left in the resolved equations. -/
def Mentions (s : Store) (eqs : List Equation) (x : String) : Prop :=
  ∃ eq ∈ eqs, x ∈ (s.resolve eq.1).names ∨ x ∈ (s.resolve eq.2).names

theorem mentions_cons {s : Store} {e a : Ty} {eqs : List Equation} {x : String} :
    s.Mentions ((e, a) :: eqs) x ↔
      (x ∈ (s.resolve e).names ∨ x ∈ (s.resolve a).names) ∨ s.Mentions eqs x := by
  simp only [Mentions, List.mem_cons, exists_eq_or_imp]

theorem mentions_append {s : Store} {front back : List Equation} {x : String} :
    s.Mentions (front ++ back) x ↔ s.Mentions front x ∨ s.Mentions back x := by
  simp only [Mentions, List.mem_append, or_and_right, exists_or]

theorem mem_names_resolve_of_unbound {s : Store} {t : Ty}
    (h : ∀ x ∈ t.names, s.bindings[x]? = none) {x : String} :
    x ∈ (s.resolve t).names ↔ x ∈ t.names := by
  rw [resolve_of_unbound s h, Ty.mem_names_subst, Ty.mem_names]
  simp only [Ty.names_var, name_annotate, List.mem_singleton, eq_comm]

namespace Acyclic

variable {s s' : Store} {e a t : Ty} {v : TyVar} {eqs parts : List Equation}

theorem unbound_of_mem (hs : s.Acyclic) {u : Ty} {x : String} (h : x ∈ (s.resolve u).names) :
    s.bindings[x]? = none :=
  (hs.mem_names_resolve.1 h).1

theorem unbound_of_split (hs : s.Acyclic)
    (hread : Reading.of (s.resolve e) (s.resolve a) = .split parts) {eq : Equation}
    (heq : eq ∈ parts) {x : String} (hx : x ∈ eq.1.names ∨ x ∈ eq.2.names) :
    s.bindings[x]? = none := by
  rcases (Reading.splits_of hread).names eq heq x hx with hx | hx
  · exact hs.unbound_of_mem hx
  · exact hs.unbound_of_mem hx

theorem mentions_split (hs : s.Acyclic)
    (hread : Reading.of (s.resolve e) (s.resolve a) = .split parts) {x : String}
    (h : s.Mentions (parts ++ eqs) x) : s.Mentions ((e, a) :: eqs) x := by
  rw [mentions_cons]
  rcases mentions_append.1 h with ⟨eq, heq, hx⟩ | h
  · rw [mem_names_resolve_of_unbound fun y hy => hs.unbound_of_split hread heq (.inl hy),
      mem_names_resolve_of_unbound fun y hy => hs.unbound_of_split hread heq (.inr hy)] at hx
    exact .inl ((Reading.splits_of hread).names eq heq x hx)
  · exact .inr h

theorem mentions_bind (hread : Reading.of (s.resolve e) (s.resolve a) = .bind v t) {x : String}
    (hx : x = v.name ∨ x ∈ t.names) : x ∈ (s.resolve e).names ∨ x ∈ (s.resolve a).names := by
  rcases (Reading.of_eq_bind hread).1 with ⟨he, ha, -⟩ | ⟨ha, he⟩ <;>
    simpa [he, ha, Ty.names_var, or_comm] using hx

theorem unbound_of_bind (hs : s.Acyclic)
    (hread : Reading.of (s.resolve e) (s.resolve a) = .bind v t) {x : String}
    (hx : x = v.name ∨ x ∈ t.names) : s.bindings[x]? = none :=
  (mentions_bind hread hx).elim hs.unbound_of_mem hs.unbound_of_mem

theorem wouldLoop_iff (hs : s.Acyclic)
    (hread : Reading.of (s.resolve e) (s.resolve a) = .bind v t) :
    s.wouldLoop v t = true ↔ v.name ∈ t.names := by
  have hres : v.name ∈ (s.resolve t).names ↔ v.name ∈ t.names :=
    mem_names_resolve_of_unbound fun y hy => hs.unbound_of_bind hread (.inr hy)
  rw [wouldLoop, Bool.or_eq_true, Ty.mentions_iff, Ty.mentions_iff, hres, or_self]

end Acyclic

theorem bind_eq_ite (s : Store) {v : TyVar} {t : Ty} (hne : ∀ w, t = .var w → w.name ≠ v.name) :
    s.bind v t =
      if s.wouldLoop v t then .error (.circular v t)
      else .ok { s with
        bindings := s.bindings.insert v.name t
        demands := s.demandsAfterBinding v t } := by
  have hself : t.asVar?.any (·.name == v.name) = false := by
    cases t with
    | var w => simpa [Ty.asVar?] using hne w rfl
    | fn a r => rfl
    | sum c ts => rfl
    | app h a => rfl
  simp [bind, hself]

namespace Acyclic

variable {s s' : Store} {e a t : Ty} {v : TyVar}

theorem binds (hs : s.Acyclic) (hread : Reading.of (s.resolve e) (s.resolve a) = .bind v t)
    (hbind : s.bind v t = .ok s') : s.Binds v.name t s' := by
  rw [bind_eq_ite s (Reading.of_eq_bind hread).2] at hbind
  split at hbind
  · cases hbind
  · rename_i hloop
    cases hbind
    exact {
      unbound := hs.unbound_of_bind hread (.inl rfl)
      absent := fun h => hloop ((hs.wouldLoop_iff hread).2 h)
      resolved := fun y hy => hs.unbound_of_bind hread (.inr hy)
      bindings := rfl
      demands := mem_demandsAfterBinding
      pins := rfl
      heads := rfl
      counter := rfl
      stem := rfl }

theorem occurs_of_loop (hs : s.Acyclic)
    (hread : Reading.of (s.resolve e) (s.resolve a) = .bind v t) {err : UnifyError}
    (hbind : s.bind v t = .error err) :
    err = .circular v t ∧ v.name ∈ t.names ∧ t.isVar = false := by
  have hne := (Reading.of_eq_bind hread).2
  rw [bind_eq_ite s hne] at hbind
  split at hbind
  · rename_i hloop
    have hmem := (hs.wouldLoop_iff hread).1 hloop
    cases hbind
    refine ⟨rfl, hmem, ?_⟩
    cases t with
    | var w =>
      rw [Ty.names_var, List.mem_singleton] at hmem
      exact absurd hmem.symm (hne w rfl)
    | fn a r => rfl
    | sum c ts => rfl
    | app h a => rfl
  · cases hbind

end Acyclic

theorem Acyclic.bind_eq_of_read {s : Store} {e a t : Ty} {v : TyVar} (hs : s.Acyclic)
    (hread : Reading.of (s.resolve e) (s.resolve a) = .bind v t) :
    (v.name ∈ t.names → s.bind v t = .error (.circular v t)) ∧
      (v.name ∉ t.names → ∃ s₁, s.bind v t = .ok s₁) := by
  rw [bind_eq_ite s (Reading.of_eq_bind hread).2]
  constructor
  · intro hmem
    exact if_pos ((hs.wouldLoop_iff hread).2 hmem)
  · intro hmem
    exact ⟨_, if_neg fun hloop => hmem ((hs.wouldLoop_iff hread).1 hloop)⟩

/-! ### What a run keeps -/

/-- `s'` knows what `s` knows and perhaps more: bindings stay as they are, a new one is of an unbound
variable among the names `p`, demands are at most added, and the rest of the store is the same. -/
structure Learns (s : Store) (p : String → Prop) (s' : Store) : Prop where
  kept : ∀ {x : String} {t : Ty}, s.bindings[x]? = some t → s'.bindings[x]? = some t
  added : ∀ {x : String} {t : Ty}, s'.bindings[x]? = some t →
    s.bindings[x]? = some t ∨ s.bindings[x]? = none ∧ p x
  demands : ∀ {x : String} {c : Symbol}, c ∈ s.demands.getD x ∅ → c ∈ s'.demands.getD x ∅
  pins : s'.pins = s.pins
  heads : s'.heads = s.heads
  counter : s'.counter = s.counter
  stem : s'.stem = s.stem

namespace Learns

theorem refl (s : Store) (p : String → Prop) : s.Learns p s :=
  ⟨id, .inl, id, rfl, rfl, rfl, rfl⟩

theorem mono {s s' : Store} {p q : String → Prop} (h : s.Learns p s') (hpq : ∀ x, p x → q x) :
    s.Learns q s' :=
  { h with added := fun hx => (h.added hx).imp_right fun hp => ⟨hp.1, hpq _ hp.2⟩ }

theorem trans {s s₁ s' : Store} {p : String → Prop} (h : s.Learns p s₁) (h' : s₁.Learns p s') :
    s.Learns p s' where
  kept hx := h'.kept (h.kept hx)
  added {x t} hx := by
    rcases h'.added hx with hx | ⟨hx, hp⟩
    · exact h.added hx
    · cases hs : s.bindings[x]? with
      | none => exact .inr ⟨rfl, hp⟩
      | some u =>
        rw [h.kept hs] at hx
        cases hx
  demands hc := h'.demands (h.demands hc)
  pins := h'.pins.trans h.pins
  heads := h'.heads.trans h.heads
  counter := h'.counter.trans h.counter
  stem := h'.stem.trans h.stem

end Learns

theorem Binds.learns {s s' : Store} {x : String} {t : Ty} (h : s.Binds x t s') :
    s.Learns (· = x) s' where
  kept := h.toExtends.bindings
  added {y u} hy := by
    rw [h.lookup] at hy
    split at hy
    · rename_i hyx
      exact .inr ⟨hyx ▸ h.unbound, hyx⟩
    · exact .inl hy
  demands := h.demands
  pins := h.pins
  heads := h.heads
  counter := h.counter
  stem := h.stem

theorem Binds.mentions {s s' : Store} {x y : String} {t : Ty} {eqs : List Equation}
    (h : s.Binds x t s') (hs : s.Acyclic) (hy : s'.Mentions eqs y) :
    y ≠ x ∧ (s.Mentions eqs y ∨ y ∈ t.names) := by
  obtain ⟨eq, heq, hy | hy⟩ := hy
  · obtain ⟨hne, hy⟩ := h.mem_names_resolve hs hy
    exact ⟨hne, hy.imp_left fun hy => ⟨eq, heq, .inl hy⟩⟩
  · obtain ⟨hne, hy⟩ := h.mem_names_resolve hs hy
    exact ⟨hne, hy.imp_left fun hy => ⟨eq, heq, .inr hy⟩⟩

end Store

theorem Assignment.Respects.solves_cons {θ : Assignment} {s : Store} (hθ : θ.Respects s) {e a : Ty}
    {eqs : List Equation} :
    θ.Solves ((e, a) :: eqs) ↔ θ.value (s.resolve e) = θ.value (s.resolve a) ∧ θ.Solves eqs := by
  rw [hθ.value_resolve, hθ.value_resolve, Assignment.solves_cons]

namespace Solving

variable {eqs : List Equation} {s s' : Store} {r : Except UnifyError Unit}

/-- However a run ends, the bindings are acyclic if they were, and all that the store has learned is
about variables left in the resolved equations. -/
theorem learns (h : Solving eqs s r s') (hs : s.Acyclic) :
    s'.Acyclic ∧ s.Learns (s.Mentions eqs) s' := by
  induction h with
  | done s => exact ⟨hs, .refl s _⟩
  | agree hread hrest ih =>
    obtain ⟨hs', hlearns⟩ := ih hs
    exact ⟨hs', hlearns.mono fun x hx => Store.mentions_cons.2 (.inr hx)⟩
  | split hread hrest ih =>
    obtain ⟨hs', hlearns⟩ := ih hs
    exact ⟨hs', hlearns.mono fun x hx => hs.mentions_split hread hx⟩
  | bind hread hbind hrest ih =>
    have hbinds := hs.binds hread hbind
    obtain ⟨hs', hlearns⟩ := ih (hbinds.acyclic hs)
    refine ⟨hs', .trans (hbinds.learns.mono ?_) (hlearns.mono ?_)⟩
    · intro x hx
      exact Store.mentions_cons.2 (.inl (Store.Acyclic.mentions_bind hread (.inl hx)))
    · intro x hx
      rcases (hbinds.mentions hs hx).2 with hx | hx
      · exact Store.mentions_cons.2 (.inr hx)
      · exact Store.mentions_cons.2 (.inl (Store.Acyclic.mentions_bind hread (.inr hx)))
  | loop hread hbind => exact ⟨hs, .refl _ _⟩
  | clash hread => exact ⟨hs, .refl _ _⟩

/-- A run that ends well keeps exactly the assignments that solve the equations. -/
theorem respects_iff {θ : Assignment} (h : Solving eqs s r s') (hs : s.Acyclic) (hr : r = .ok ()) :
    θ.Respects s' ↔ θ.Respects s ∧ θ.Solves eqs := by
  induction h with
  | done s => simp only [θ.solves_nil, and_true]
  | agree hread hrest ih =>
    rw [ih hs hr]
    refine and_congr_right fun hθ => ?_
    rw [hθ.solves_cons]
    exact (and_iff_right (Reading.value_eq_of_agree θ hread)).symm
  | split hread hrest ih =>
    rw [ih hs hr, Assignment.solves_append]
    refine and_congr_right fun hθ => ?_
    rw [hθ.solves_cons, (Reading.splits_of hread).solves θ]
  | bind hread hbind hrest ih =>
    have hbinds := hs.binds hread hbind
    rw [ih (hbinds.acyclic hs) hr, hbinds.respects_iff, and_assoc]
    refine and_congr_right fun hθ => ?_
    rw [hθ.solves_cons, Reading.value_eq_iff_of_bind θ hread]
  | loop hread hbind => cases hr
  | clash hread => cases hr

/-- A run fails only when no assignment that respects the store solves the equations. -/
theorem not_solves {θ : Assignment} {err : UnifyError} (h : Solving eqs s r s') (hs : s.Acyclic)
    (hr : r = .error err) (hθ : θ.Respects s) : ¬ θ.Solves eqs := by
  induction h with
  | done s => cases hr
  | agree hread hrest ih =>
    intro hsolves
    exact ih hs hr hθ (hθ.solves_cons.1 hsolves).2
  | split hread hrest ih =>
    intro hsolves
    obtain ⟨heq, htail⟩ := hθ.solves_cons.1 hsolves
    have hparts := ((Reading.splits_of hread).solves θ).1 heq
    exact ih hs hr hθ (Assignment.solves_append.2 ⟨hparts, htail⟩)
  | bind hread hbind hrest ih =>
    intro hsolves
    have hbinds := hs.binds hread hbind
    obtain ⟨heq, htail⟩ := hθ.solves_cons.1 hsolves
    have hvar := (Reading.value_eq_iff_of_bind θ hread).1 heq
    exact ih (hbinds.acyclic hs) hr (hbinds.respects_iff.2 ⟨hθ, hvar⟩) htail
  | loop hread hbind =>
    intro hsolves
    obtain ⟨-, hoccurs, hlarge⟩ := hs.occurs_of_loop hread hbind
    have hvar := (Reading.value_eq_iff_of_bind θ hread).1 (hθ.solves_cons.1 hsolves).1
    exact θ.simplify_ne_value_of_occurs hoccurs hlarge hvar
  | clash hread =>
    intro hsolves
    exact Reading.value_ne_of_clash θ hread (hθ.solves_cons.1 hsolves).1

end Solving

end TypeEngine
