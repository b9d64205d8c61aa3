import Mathlib.Data.List.Forall2
import Mathlib.Data.List.Zip
import TypeEngine.Proofs.Renaming
import TypeEngine.Proofs.Termination

/-! # Unification is symmetric

Exchanging the two sides of an equation turns a binding between two variables around, and nothing
else. So the two runs keep in step: at every point their stores agree, and their equations are, for
every assignment that respects the stores, the same ones with the sides exchanged. Equations that are
so related are read alike, up to a renaming of variables (`Reading.of_mirrors`), and one step of both
runs keeps the relation (`Solving.exchange`). -/

namespace TypeEngine

theorem map_eq_map_iff_forall₂ {α β γ : Type} {f : α → γ} {g : β → γ} {xs : List α} {ys : List β} :
    xs.map f = ys.map g ↔ List.Forall₂ (fun x y => f x = g y) xs ys := by
  rw [← List.forall₂_eq_eq_eq, List.forall₂_map_left_iff, List.forall₂_map_right_iff]

/-! ### Collapsed types -/

namespace Ty

/-- No application in the type has a named type as its head. -/
def Collapsed (t : Ty) : Prop := t.flatten = t

/-- The type with variables put for its variables. -/
def mapVars (f : TyVar → TyVar) (t : Ty) : Ty := t.subst fun v => .var (f v)

theorem mapVars_var (f : TyVar → TyVar) (v : TyVar) : (Ty.var v).mapVars f = .var (f v) := rfl

theorem mapVars_fn (f : TyVar → TyVar) (a r : Ty) :
    (Ty.fn a r).mapVars f = .fn (a.mapVars f) (r.mapVars f) := rfl

theorem mapVars_sum (f : TyVar → TyVar) (c : Symbol) (ts : List Ty) :
    (Ty.sum c ts).mapVars f = .sum c (ts.map (mapVars f)) := by
  simp only [mapVars, subst, substAll_eq]
  rfl

theorem flatten_sum (c : Symbol) (ts : List Ty) : (Ty.sum c ts).flatten = .sum c (ts.map flatten) :=
  mapVars_sum id c ts

theorem simplify_sum (c : Symbol) (ts : List Ty) : (Ty.sum c ts).simplify = .sum c (ts.map simplify) :=
  mapVars_sum TyVar.bare c ts

theorem names_mapVars (f : TyVar → TyVar) (t : Ty) :
    (t.mapVars f).names = t.vars.map fun v => (f v).name := by
  rw [names, mapVars, vars_subst, List.map_flatMap]
  exact List.map_eq_flatMap.symm

theorem collapsed_subst {f : TyVar → Ty} {t : Ty} (h : ∀ v ∈ t.vars, (f v).Collapsed) :
    (t.subst f).Collapsed := by
  rw [Collapsed, flatten, subst_subst]
  exact subst_congr h

theorem apply_of_ne_sum {h : Ty} (hne : ∀ c ts, h ≠ .sum c ts) (a : Ty) :
    h.apply a = .app h a := by
  cases h with
  | sum c ts => exact absurd rfl (hne c ts)
  | var v => rfl
  | fn b r => rfl
  | app g b => rfl

/-- Whether a type becomes a named type does not depend on which variables are put in. -/
theorem flatten_eq_sum_of_mapVars {f : TyVar → TyVar} {t : Ty} {c : Symbol} {ts : List Ty}
    (h : t.mapVars f = .sum c ts) : ∃ us, t.flatten = .sum c us := by
  induction t generalizing ts with
  | var v => cases h
  | fn a r _ _ => cases h
  | sum c' us _ =>
    injection h with hc _
    subst hc
    exact ⟨_, rfl⟩
  | app g a ihg _ =>
    obtain ⟨ps, hps, -⟩ := apply_eq_sum_iff.1 h
    obtain ⟨us, hus⟩ := ihg hps
    exact ⟨us ++ [a.flatten], apply_eq_sum_iff.2 ⟨us, hus, rfl⟩⟩

theorem Collapsed.app {g a : Ty} (h : (Ty.app g a).Collapsed) :
    g.Collapsed ∧ ∀ f, (Ty.app g a).mapVars f = .app (g.mapVars f) (a.mapVars f) := by
  have hflat : g.flatten.apply a.flatten = .app g a := h
  have hne : ∀ c ts, g.flatten ≠ .sum c ts := by
    intro c ts hsum
    rw [hsum] at hflat
    cases hflat
  have hg : g.flatten = g := by
    rw [apply_of_ne_sum hne] at hflat
    injection hflat
  refine ⟨hg, fun f => ?_⟩
  have hmap : ∀ c ts, g.mapVars f ≠ .sum c ts := by
    intro c ts hsum
    obtain ⟨us, hus⟩ := flatten_eq_sum_of_mapVars hsum
    exact hne c us hus
  exact apply_of_ne_sum hmap _

theorem spine_mapVars (f : TyVar → TyVar) {t : Ty} (ht : t.Collapsed) :
    (t.mapVars f).spine = (t.spine.1.mapVars f, t.spine.2.map (mapVars f)) := by
  induction t with
  | var v => rfl
  | fn a r _ _ => rfl
  | sum c ts _ => rfl
  | app g a ihg _ =>
    obtain ⟨hg, happ⟩ := ht.app
    rw [happ, spine, spine, ihg hg]
    simp only [List.map_append, List.map_cons, List.map_nil]

theorem spread_mapVars (f : TyVar → TyVar) {t : Ty} (ht : t.Collapsed) (c : Symbol) (ts : List Ty) :
    (t.mapVars f).spread c (ts.map (mapVars f)) =
      (t.spread c ts).map (List.map (Prod.map (mapVars f) (mapVars f))) := by
  simp only [spread, spine_mapVars f ht, List.length_map]
  split
  · simp only [Option.map_some, List.map_cons, Prod.map_apply, ← List.map_take, ← List.map_drop,
      List.zip_map, mapVars_sum]
  · rfl

end Ty

/-! ### Readings of renamed and of exchanged equations -/

namespace Reading

/-- What an equation asks for, with other variables put in. -/
def mapVars (f : TyVar → TyVar) : Reading → Reading
  | .agree => .agree
  | .bind v t => .bind (f v) (t.mapVars f)
  | .split parts => .split (parts.map (Prod.map (Ty.mapVars f) (Ty.mapVars f)))
  | .clash => .clash

/-- Putting other variables in, different ones for different ones, does not change what an equation
between collapsed types asks for. -/
theorem of_mapVars {f : TyVar → TyVar} (hf : ∀ v w, (f v).name = (f w).name ↔ v.name = w.name)
    {e a : Ty} (he : e.Collapsed) (ha : a.Collapsed) :
    Reading.of (e.mapVars f) (a.mapVars f) = (Reading.of e a).mapVars f := by
  cases e <;> cases a
  case var.var v w =>
    simp only [Ty.mapVars_var, Reading.of, hf]
    split <;> rfl
  case sum.sum c ts c' us =>
    simp only [Ty.mapVars_sum, Reading.of, List.length_map, List.zip_map]
    split <;> rfl
  case app.app g b k d =>
    simp only [he.app.2, ha.app.2, Reading.of, mapVars, List.map_cons, List.map_nil, Prod.map_apply]
  case app.sum g b c ts =>
    have hspread := Ty.spread_mapVars f he c ts
    rw [he.app.2] at hspread
    simp only [he.app.2, Ty.mapVars_sum, Reading.of, hspread]
    cases (Ty.app g b).spread c ts <;> rfl
  case sum.app c ts g b =>
    have hspread := Ty.spread_mapVars f ha c ts
    rw [ha.app.2] at hspread
    simp only [ha.app.2, Ty.mapVars_sum, Reading.of, hspread]
    cases (Ty.app g b).spread c ts with
    | none => rfl
    | some parts => simp [mapVars]
  case var.app v g b => simp only [ha.app.2, Ty.mapVars_var, Reading.of, mapVars]
  case app.var g b v => simp only [he.app.2, Ty.mapVars_var, Reading.of, mapVars]
  case fn.app b r g d => simp only [ha.app.2, Ty.mapVars_fn, Reading.of, mapVars]
  case app.fn g d b r => simp only [he.app.2, Ty.mapVars_fn, Reading.of, mapVars]
  all_goals rfl

/-- What an equation asks for, with the sides of the parts exchanged. -/
def swap : Reading → Reading
  | .split parts => .split (parts.map Prod.swap)
  | r => r

/-- Exchanging the sides of an equation exchanges those of its parts, unless it is an equation between
two variables, of which then the other one is bound. -/
theorem of_swap (e a : Ty) :
    Reading.of a e = (Reading.of e a).swap ∨
      ∃ v w, e = .var v ∧ a = .var w ∧ Reading.of e a = .bind w (.var v) ∧
        Reading.of a e = .bind v (.var w) := by
  cases e <;> cases a
  case var.var v w =>
    by_cases hname : v.name = w.name
    · left
      simp only [Reading.of, if_pos hname, if_pos hname.symm, swap]
    · right
      refine ⟨v, w, rfl, rfl, ?_, ?_⟩
      · simp only [Reading.of, if_neg hname]
      · simp only [Reading.of, if_neg (Ne.symm hname)]
  case sum.sum c ts c' us =>
    left
    by_cases hsame : c = c' ∧ ts.length = us.length
    · have hsame' : c' = c ∧ us.length = ts.length := ⟨hsame.1.symm, hsame.2.symm⟩
      simp only [Reading.of, if_pos hsame, if_pos hsame', swap, List.zip_swap]
    · have hsame' : ¬ (c' = c ∧ us.length = ts.length) := by
        intro h
        exact hsame ⟨h.1.symm, h.2.symm⟩
      simp only [Reading.of, if_neg hsame, if_neg hsame', swap]
  case app.sum g b c ts =>
    left
    simp only [Reading.of]
    cases (Ty.app g b).spread c ts <;> rfl
  case sum.app c ts g b =>
    left
    simp only [Reading.of]
    cases (Ty.app g b).spread c ts with
    | none => rfl
    | some parts => simp [swap]
  all_goals exact .inl rfl

end Reading

/-- The second equation is the first one with its sides exchanged and its variables renamed. -/
def Equation.Mirrors (ρ : String → String) (eq eq' : Equation) : Prop :=
  eq'.1.simplify = eq.2.simplify.rename ρ ∧ eq'.2.simplify = eq.1.simplify.rename ρ

/-- The two readings ask for the same, up to the side that comes first and the names of variables. -/
inductive Reading.Mirrors (ρ : String → String) : Reading → Reading → Prop
  | agree : Mirrors ρ .agree .agree
  | clash : Mirrors ρ .clash .clash
  | split {parts parts' : List Equation} (h : List.Forall₂ (Equation.Mirrors ρ) parts parts') :
      Mirrors ρ (.split parts) (.split parts')
  | bind {v v' : TyVar} {t t' : Ty} (h : v'.name ∈ t'.names ↔ v.name ∈ t.names) :
      Mirrors ρ (.bind v t) (.bind v' t')

namespace Reading.Mirrors

variable {ρ : String → String} {r : Reading}

theorem eq_agree (h : Reading.Mirrors ρ .agree r) : r = .agree := by
  cases h
  rfl

theorem eq_clash (h : Reading.Mirrors ρ .clash r) : r = .clash := by
  cases h
  rfl

theorem eq_split {parts : List Equation} (h : Reading.Mirrors ρ (.split parts) r) :
    ∃ parts', r = .split parts' ∧ List.Forall₂ (Equation.Mirrors ρ) parts parts' := by
  cases h with
  | split hparts => exact ⟨_, rfl, hparts⟩

theorem eq_bind {v : TyVar} {t : Ty} (h : Reading.Mirrors ρ (.bind v t) r) :
    ∃ v' t', r = .bind v' t' ∧ (v'.name ∈ t'.names ↔ v.name ∈ t.names) := by
  cases h with
  | bind hoccurs => exact ⟨_, _, rfl, hoccurs⟩

end Reading.Mirrors

/-- Of two variables that are to become equal, neither occurs in the other. -/
theorem Reading.not_mem_names_of_bind {e a : Ty} {v w : TyVar}
    (h : Reading.of e a = .bind v (.var w)) : v.name ∉ (Ty.var w).names := by
  have hne := (of_eq_bind h).2 w rfl
  rw [Ty.names_var, List.mem_singleton]
  exact Ne.symm hne

theorem Reading.mirrors_of_mapVars_eq {ρ : String → String} (hρ : Function.Injective ρ)
    {r r' : Reading} (h : r'.mapVars TyVar.bare = r.swap.mapVars fun v => .ofName (ρ v.name)) :
    Reading.Mirrors ρ r r' := by
  cases r <;> cases r' <;> injection h
  case agree.agree => exact .agree
  case clash.clash => exact .clash
  case split.split parts parts' hparts =>
    rw [List.map_map, map_eq_map_iff_forall₂] at hparts
    refine .split (hparts.flip.imp ?_)
    intro eq eq' heq
    rw [Equation.Mirrors, Ty.rename_simplify, Ty.rename_simplify]
    exact ⟨congrArg Prod.fst heq, congrArg Prod.snd heq⟩
  case bind.bind v t v' t' hv ht =>
    have hname : v'.name = ρ v.name := congrArg TyVar.name hv
    have hnames : t'.names = t.names.map ρ := by
      have hmapped := congrArg Ty.names ht
      rw [Ty.names_mapVars, Ty.names_mapVars] at hmapped
      rw [Ty.names, Ty.names, List.map_map]
      exact hmapped
    refine .bind ?_
    rw [hnames, hname, List.mem_map_of_injective hρ]

theorem Reading.of_mirrors {ρ : String → String} (hρ : Function.Injective ρ) {e a e' a' : Ty}
    (he : e.Collapsed) (ha : a.Collapsed) (he' : e'.Collapsed) (ha' : a'.Collapsed)
    (h : Equation.Mirrors ρ (e, a) (e', a')) :
    Reading.Mirrors ρ (Reading.of e a) (Reading.of e' a') := by
  obtain ⟨hleft, hright⟩ := h
  rw [Ty.rename_simplify] at hleft hright
  have hbare : ∀ v w : TyVar, v.bare.name = w.bare.name ↔ v.name = w.name := fun _ _ => Iff.rfl
  have hrenamed : ∀ v w : TyVar, (TyVar.ofName (ρ v.name)).name = (TyVar.ofName (ρ w.name)).name ↔
      v.name = w.name := fun _ _ => hρ.eq_iff
  have hmap : (Reading.of e' a').mapVars TyVar.bare =
      (Reading.of a e).mapVars fun v => .ofName (ρ v.name) := by
    rw [← of_mapVars hbare he' ha', ← of_mapVars hrenamed ha he]
    exact congrArg₂ Reading.of hleft hright
  rcases of_swap e a with hswap | ⟨v, w, rfl, rfl, hread, hread'⟩
  · rw [hswap] at hmap
    exact mirrors_of_mapVars_eq hρ hmap
  · rw [hread'] at hmap
    rw [hread]
    cases hr : Reading.of e' a' <;> rw [hr] at hmap <;> injection hmap
    case bind v' t' hv' ht' =>
      obtain ⟨w', rfl⟩ := Ty.exists_var_of_subst_eq_var ht'
      exact .bind (iff_of_false (not_mem_names_of_bind hr) (not_mem_names_of_bind hread))

/-! ### Exchanged equations in stores that agree -/

/-- Every assignment that respects the store makes the second equation the first one with its sides
exchanged. -/
def Equation.Exchanged (s : Store) (eq eq' : Equation) : Prop :=
  ∀ θ : Assignment, θ.Respects s → θ.value eq'.1 = θ.value eq.2 ∧ θ.value eq'.2 = θ.value eq.1

namespace Store

theorem collapsed_resolve (s : Store) (t : Ty) : (s.resolve t).Collapsed := by
  refine s.resolve_induction (P := fun _ => True) ?_ ?_ ?_ fun _ _ => trivial
  · exact fun v _ => rfl
  · exact fun _ _ _ _ _ => trivial
  · exact fun f u hu => Ty.collapsed_subst hu

namespace Agrees

variable {s s' : Store}

theorem simplify_perm (h : s.Agrees s') (hs : s.Acyclic) (hs' : s'.Acyclic) {θ : Assignment}
    (hθ : θ.Respects s) {x : String} (hx : s.bindings[x]? = none) :
    (θ (h.perm hs hs' x)).simplify = (θ x).simplify := by
  have hvalue := ((h θ).1 hθ).value_resolve (.var (.ofName x))
  rw [← θ.value_simplify, h.resolve_var_of_unbound hs hs' hx] at hvalue
  exact hvalue

theorem value_of_rename (h : s.Agrees s') (hs : s.Acyclic) (hs' : s'.Acyclic) {θ : Assignment}
    (hθ : θ.Respects s) {t u : Ty} (ht : ∀ x ∈ t.names, s.bindings[x]? = none)
    (hu : u.simplify = t.simplify.rename (h.perm hs hs')) : θ.value u = θ.value t := by
  rw [← θ.value_simplify u, hu, Ty.rename_simplify, θ.value_subst, θ.value_eq_subst]
  apply Ty.subst_congr
  intro v hv
  exact h.simplify_perm hs hs' hθ (ht v.name (Ty.mem_names.2 ⟨v, hv, rfl⟩))

theorem reading_mirrors (h : s.Agrees s') (hs : s.Acyclic) (hs' : s'.Acyclic) {e a e' a' : Ty}
    (heq : Equation.Exchanged s (e, a) (e', a')) {r : Reading}
    (hread : Reading.of (s.resolve e) (s.resolve a) = r) :
    Reading.Mirrors (h.perm hs hs') r (Reading.of (s'.resolve e') (s'.resolve a')) := by
  have hsame := heq s.assignment hs.respects_assignment
  simp only [value_assignment] at hsame
  have hmirrors : Equation.Mirrors (h.perm hs hs') (s.resolve e, s.resolve a)
      (s'.resolve e', s'.resolve a') := by
    rw [Equation.Mirrors, h.resolve_eq_rename hs hs', h.resolve_eq_rename hs hs', hsame.1, hsame.2]
    exact ⟨rfl, rfl⟩
  rw [← hread]
  exact Reading.of_mirrors (h.perm hs hs').injective (s.collapsed_resolve e) (s.collapsed_resolve a)
    (s'.collapsed_resolve e') (s'.collapsed_resolve a') hmirrors

end Agrees

/-! ### One step of the exchanged run -/

namespace Acyclic

variable {s s₁ : Store} {e a t : Ty} {v : TyVar}

theorem respects_bind_iff (hs : s.Acyclic)
    (hread : Reading.of (s.resolve e) (s.resolve a) = .bind v t) (hbind : s.bind v t = .ok s₁)
    {θ : Assignment} : θ.Respects s₁ ↔ θ.Respects s ∧ θ.value e = θ.value a := by
  rw [(hs.binds hread hbind).respects_iff]
  refine and_congr_right fun hθ => ?_
  rw [← Reading.value_eq_iff_of_bind θ hread, hθ.value_resolve, hθ.value_resolve]

end Acyclic

theorem Agrees.exchanged_of_split {s s' : Store} (h : s.Agrees s') (hs : s.Acyclic)
    (hs' : s'.Acyclic) {e a : Ty} {parts parts' : List Equation}
    (hread : Reading.of (s.resolve e) (s.resolve a) = .split parts)
    (hparts : List.Forall₂ (Equation.Mirrors (h.perm hs hs')) parts parts') :
    List.Forall₂ (Equation.Exchanged s) parts parts' := by
  have hfree : ∀ eq ∈ parts, ∀ x, x ∈ eq.1.names ∨ x ∈ eq.2.names → s.bindings[x]? = none :=
    fun eq heq x hx => hs.unbound_of_split hread heq hx
  refine ((List.forall₂_and_left _ _).2 ⟨hfree, hparts⟩).imp ?_
  intro eq eq' hboth θ hθ
  obtain ⟨hunbound, hleft, hright⟩ := hboth
  exact ⟨h.value_of_rename hs hs' hθ (fun x hx => hunbound x (.inr hx)) hleft,
    h.value_of_rename hs hs' hθ (fun x hx => hunbound x (.inl hx)) hright⟩

theorem Agrees.bind {s s' s₁ s₁' : Store} (h : s.Agrees s') (hs : s.Acyclic) (hs' : s'.Acyclic)
    {e a e' a' t t' : Ty} {v v' : TyVar} (heq : Equation.Exchanged s (e, a) (e', a'))
    (hread : Reading.of (s.resolve e) (s.resolve a) = .bind v t) (hbind : s.bind v t = .ok s₁)
    (hread' : Reading.of (s'.resolve e') (s'.resolve a') = .bind v' t')
    (hbind' : s'.bind v' t' = .ok s₁') : s₁.Agrees s₁' := by
  intro θ
  rw [hs.respects_bind_iff hread hbind, hs'.respects_bind_iff hread' hbind', ← h θ]
  refine and_congr_right fun hθ => ?_
  obtain ⟨hleft, hright⟩ := heq θ hθ
  dsimp only at hleft hright
  rw [hleft, hright, eq_comm]

end Store

/-! ### The exchanged run -/

/-- Both outcomes are answers, or both are mismatches, or both are circles. -/
inductive SameClass {α : Type} : Except UnifyError α → Except UnifyError α → Prop
  | answer (x y : α) : SameClass (.ok x) (.ok y)
  | mismatch (e a e' a' : Ty) : SameClass (.error (.mismatch e a)) (.error (.mismatch e' a'))
  | circular (v v' : TyVar) (t t' : Ty) :
      SameClass (.error (.circular v t)) (.error (.circular v' t'))

/-- A run on equations with their sides exchanged goes through the same steps, in a store with the
same solutions, and so it ends in the same way. -/
theorem Solving.exchange {eqs : List Equation} {s s₁ : Store} {r : Except UnifyError Unit}
    (hrun : Solving eqs s r s₁) (hs : s.Acyclic) {eqs' : List Equation} {s' : Store}
    (hs' : s'.Acyclic) (h : s.Agrees s') (heqs : List.Forall₂ (Equation.Exchanged s) eqs eqs') :
    ∃ r' s₁', Solving eqs' s' r' s₁' ∧ SameClass r r' ∧ s₁.Agrees s₁' := by
  induction hrun generalizing eqs' s' with
  | done s =>
    cases heqs
    exact ⟨_, s', .done s', .answer () (), h⟩
  | agree hread hrest ih =>
    obtain ⟨⟨e', a'⟩, eqs'', heq, hrests, rfl⟩ := List.forall₂_cons_left_iff.1 heqs
    have hread' := (h.reading_mirrors hs hs' heq hread).eq_agree
    obtain ⟨r', s₁', hrun', hclass, hagree⟩ := ih hs hs' h hrests
    exact ⟨r', s₁', .agree hread' hrun', hclass, hagree⟩
  | split hread hrest ih =>
    obtain ⟨⟨e', a'⟩, eqs'', heq, hrests, rfl⟩ := List.forall₂_cons_left_iff.1 heqs
    obtain ⟨parts', hread', hparts⟩ := (h.reading_mirrors hs hs' heq hread).eq_split
    have hexchanged := h.exchanged_of_split hs hs' hread hparts
    obtain ⟨r', s₁', hrun', hclass, hagree⟩ := ih hs hs' h (List.rel_append hexchanged hrests)
    exact ⟨r', s₁', .split hread' hrun', hclass, hagree⟩
  | bind hread hbind hrest ih =>
    obtain ⟨⟨e', a'⟩, eqs'', heq, hrests, rfl⟩ := List.forall₂_cons_left_iff.1 heqs
    obtain ⟨v', t', hread', hoccurs⟩ := (h.reading_mirrors hs hs' heq hread).eq_bind
    have hbinds := hs.binds hread hbind
    have habsent : v'.name ∉ t'.names := fun hmem => hbinds.absent (hoccurs.1 hmem)
    obtain ⟨s₂', hbind'⟩ := (hs'.bind_eq_of_read hread').2 habsent
    have hs₂' := (hs'.binds hread' hbind').acyclic hs'
    have hagree₂ := h.bind hs hs' heq hread hbind hread' hbind'
    -- fewer assignments respect the store now, so what was exchanged stays exchanged
    have hrests₂ := hrests.imp fun eq eq' hex θ hθ => hex θ (hbinds.respects_iff.1 hθ).1
    obtain ⟨r', s₁', hrun', hclass, hagree⟩ := ih (hbinds.acyclic hs) hs₂' hagree₂ hrests₂
    exact ⟨r', s₁', .bind hread' hbind' hrun', hclass, hagree⟩
  | loop hread hbind =>
    obtain ⟨⟨e', a'⟩, eqs'', heq, -, rfl⟩ := List.forall₂_cons_left_iff.1 heqs
    obtain ⟨v', t', hread', hoccurs⟩ := (h.reading_mirrors hs hs' heq hread).eq_bind
    obtain ⟨rfl, hmem, -⟩ := hs.occurs_of_loop hread hbind
    have hbind' := (hs'.bind_eq_of_read hread').1 (hoccurs.2 hmem)
    exact ⟨_, s', .loop hread' hbind', .circular _ v' _ t', h⟩
  | clash hread =>
    obtain ⟨⟨e', a'⟩, eqs'', heq, -, rfl⟩ := List.forall₂_cons_left_iff.1 heqs
    have hread' := (h.reading_mirrors hs hs' heq hread).eq_clash
    exact ⟨_, s', .clash hread', .mismatch _ _ _ _, h⟩

theorem Solving.unique {eqs : List Equation} {s s₁ s₂ : Store} {r₁ r₂ : Except UnifyError Unit}
    (h₁ : Solving eqs s r₁ s₁) (h₂ : Solving eqs s r₂ s₂) : r₁ = r₂ ∧ s₁ = s₂ :=
  h₁.unifiesAll.unique h₂.unifiesAll

theorem SameClass.of_map {r r' : Except UnifyError Ty}
    (h : SameClass (r.map fun _ => ()) (r'.map fun _ => ())) : SameClass r r' := by
  cases r <;> cases r' <;> cases h
  · exact .mismatch _ _ _ _
  · exact .circular _ _ _ _
  · exact .answer _ _

namespace Store

/-- Unifying two types one way round or the other ends in the same way, and the two stores it leaves
are the same up to the names of variables: one bijection of names turns what any type stands for in
one of them into what it stands for in the other. -/
theorem unify_symmetric {s : Store} (hs : s.Acyclic) (a b : Ty) :
    SameClass (s.unify a b).1 (s.unify b a).1 ∧
      ∃ ρ : Equiv.Perm String, ∀ t : Ty, ((s.unify b a).2.resolve t).simplify =
        ((s.unify a b).2.resolve t).simplify.rename ρ := by
  have hforth := hs.solving_unify a b
  have hback := hs.solving_unify b a
  have hexchanged : List.Forall₂ (Equation.Exchanged s) [(a, b)] [(b, a)] :=
    .cons (fun θ _ => ⟨rfl, rfl⟩) .nil
  obtain ⟨r', s', hrun', hclass, hagree⟩ :=
    hforth.exchange hs hs (fun θ => Iff.rfl) hexchanged
  obtain ⟨rfl, rfl⟩ := hrun'.unique hback
  have hforth' := hs.acyclic_unify a b
  have hback' := hs.acyclic_unify b a
  exact ⟨hclass.of_map, hagree.perm hforth' hback', hagree.resolve_eq_rename hforth' hback'⟩

/-- With `f` bound to `Maybe`, unifying `x -> f x` and `y -> Maybe z` leaves `x` one way round and
`z` the other way round. -/
theorem unify_symmetric_application :
    let s := ((empty "t").unify (.var (.ofName "f")) (.sum (.unqualified "Maybe") [])).2
    let x : Ty := .var (.ofName "x")
    let z : Ty := .var (.ofName "z")
    let a : Ty := .fn x (.app (.var (.ofName "f")) x)
    let b : Ty := .fn (.var (.ofName "y")) (.sum (.unqualified "Maybe") [z])
    s.Acyclic ∧ (s.unify a b).2.resolve x = x ∧ (s.unify b a).2.resolve x = z ∧
      SameClass (s.unify a b).1 (s.unify b a).1 ∧
        ∃ ρ : Equiv.Perm String, ∀ t : Ty, ((s.unify b a).2.resolve t).simplify =
          ((s.unify a b).2.resolve t).simplify.rename ρ := by
  have hs := (acyclic_empty "t").acyclic_unify (.var (.ofName "f"))
    (.sum (.unqualified "Maybe") [])
  exact ⟨hs, rfl, rfl, unify_symmetric hs _ _⟩

end Store

end TypeEngine
