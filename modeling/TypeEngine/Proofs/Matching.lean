import Mathlib.Data.List.Nodup
import Std.Data.String.ToNat
import TypeEngine.Proofs.ConstraintOrder
import TypeEngine.Proofs.InstanceAgreement

/-! # Alignment as matching

An alignment takes two types apart at the same places (`Ty.Aligned`). An assignment makes the two types equal
exactly if it solves the pairs (`Ty.Aligned.solves_iff`). If every variable of the formal type occurs in it once,
some assignment makes it the actual one, and is free on all other names (`Ty.Aligned.exists_matching`). So types
line up exactly if the formal one, with its occurrences renamed apart, can be made the actual one; and if the
variables of both are apart to begin with, unification solves the pairs and nothing else. -/

namespace TypeEngine

namespace Assignment

theorem value_congr {θ σ : Assignment} {t : Ty} (h : ∀ x ∈ t.names, σ x = θ x) : σ.value t = θ.value t := by
  rw [value_eq_subst, value_eq_subst]
  refine Ty.subst_congr fun v hv => ?_
  rw [h v.name (Ty.mem_names.2 ⟨v, hv, rfl⟩)]

theorem value_flatten (θ : Assignment) (t : Ty) : θ.value t.flatten = θ.value t := by
  rw [value_eq_subst, value_eq_subst, Ty.subst_flatten]

end Assignment

namespace Ty

/-! ### Taking two types apart -/

/-- The type applies `head` to `argument`, which is the last parameter if the head is a named type. -/
inductive Applies : (t head argument : Ty) → Prop
  | app (h a : Ty) : Applies (.app h a) h a
  | sum (c : Symbol) (ts : List Ty) (a : Ty) : Applies (.sum c (ts ++ [a])) (.sum c ts) a

namespace Applies

variable {t h a : Ty}

theorem subst_eq (happ : t.Applies h a) (f : TyVar → Ty) : t.subst f = (h.subst f).apply (a.subst f) := by
  cases happ with
  | app => rfl
  | sum c ts => exact subst_apply f (.sum c ts) a

theorem names_eq (happ : t.Applies h a) : t.names = h.names ++ a.names := by
  cases happ with
  | app => exact names_app h a
  | sum c ts => simp [names_sum]

theorem value_eq (happ : t.Applies h a) (θ : Assignment) : θ.value t = (θ.value h).apply (θ.value a) := by
  simp only [θ.value_eq_subst, happ.subst_eq]

end Applies

/-- The pairs are what two types have at the same places. A place is not looked into if the formal type has a
variable there, or if both types have the same type there, up to demands. -/
inductive Aligned : (formal actual : Ty) → List Equation → Prop
  | pair (v : TyVar) (u : Ty) : Aligned (.var v) u [(.var v, u)]
  | same {t u : Ty} (h : t.simplify = u.simplify) : Aligned t u [(t, u)]
  | empty (c : Symbol) : Aligned (.sum c []) (.sum c []) []
  | fn {a r b q : Ty} {front back : List Equation} (hargument : Aligned a b front)
      (hresult : Aligned r q back) : Aligned (.fn a r) (.fn b q) (front ++ back)
  | applied {t h a u g b : Ty} {front back : List Equation} (ht : t.Applies h a) (hu : u.Applies g b)
      (hhead : Aligned h g front) (hargument : Aligned a b back) : Aligned t u (front ++ back)

theorem aligned_of_alignAll {c : Symbol} {ps qs ps₀ qs₀ : List Ty} {front pairs : List Equation}
    (hparts : ∀ p ∈ ps, ∀ {q : Ty} {back : List Equation}, p.align q = some back → Aligned p q back)
    (hfront : Aligned (.sum c ps₀) (.sum c qs₀) front) (h : alignAll ps qs = some pairs) :
    Aligned (.sum c (ps₀ ++ ps)) (.sum c (qs₀ ++ qs)) (front ++ pairs) := by
  induction ps generalizing qs ps₀ qs₀ front pairs with
  | nil =>
    cases qs with
    | nil =>
      rw [alignAll] at h
      cases h
      simpa only [List.append_nil] using hfront
    | cons q qs => simp [alignAll] at h
  | cons p ps ih =>
    cases qs with
    | nil => simp [alignAll] at h
    | cons q qs =>
      rw [alignAll] at h
      split at h
      · rename_i back rest hp hrest
        cases h
        have hstep := Aligned.applied (.sum c ps₀ p) (.sum c qs₀ q) hfront (hparts p List.mem_cons_self hp)
        have hall := ih (fun p' hp' => hparts p' (List.mem_cons_of_mem p hp')) hstep hrest
        simpa only [List.append_assoc, List.singleton_append] using hall
      · cases h

theorem aligned_of_align {t u : Ty} {pairs : List Equation} (h : t.align u = some pairs) :
    Aligned t u pairs := by
  induction t generalizing u pairs with
  | var v =>
    rw [align] at h
    cases h
    exact .pair v u
  | fn a r iha ihr =>
    cases u with
    | fn b q =>
      rw [align] at h
      split at h
      · rename_i front back ha hr
        cases h
        exact .fn (iha ha) (ihr hr)
      · cases h
    | _ => simp [align] at h
  | sum c ps ih =>
    cases u with
    | sum d qs =>
      rw [align] at h
      split at h
      · rename_i hsame
        cases h
        exact .same hsame
      · split at h
        · rename_i hcd
          subst hcd
          exact aligned_of_alignAll ih (.empty c) h
        · cases h
    | _ => simp [align] at h
  | app g a ihg iha =>
    cases u with
    | sum d qs =>
      rw [align] at h
      split at h
      · cases h
      · rename_i q hq
        split at h
        · rename_i front back hhead hargument
          cases h
          have hlast := Applies.sum d qs.dropLast q
          rw [List.dropLast_append_getLast? q hq] at hlast
          exact .applied (.app g a) hlast (ihg hhead) (iha hargument)
        · cases h
    | app k b =>
      rw [align] at h
      split at h
      · rename_i front back hhead hargument
        cases h
        exact .applied (.app g a) (.app k b) (ihg hhead) (iha hargument)
      · cases h
    | _ => simp [align] at h

theorem Aligned.solves_iff {t u : Ty} {pairs : List Equation} (h : Aligned t u pairs) (θ : Assignment) :
    θ.value t = θ.value u ↔ θ.Solves pairs := by
  induction h with
  | pair v u => exact Assignment.solves_singleton.symm
  | same _ => exact Assignment.solves_singleton.symm
  | empty c => exact iff_of_true rfl θ.solves_nil
  | fn _ _ iha ihr =>
    rw [θ.value_fn, θ.value_fn, Ty.fn.injEq, Assignment.solves_append]
    exact and_congr iha ihr
  | applied ht hu _ _ ihh iha =>
    rw [ht.value_eq, hu.value_eq, apply_inj, Assignment.solves_append]
    exact and_congr ihh iha

/-! ### One-way matching -/

/-- Whatever is assigned to other names, the type can be made `u`, up to demands. -/
def Matches (t u : Ty) : Prop :=
  ∀ θ : Assignment, ∃ σ : Assignment, σ.value t = u.simplify ∧ ∀ x ∉ t.names, σ x = θ x

/-- A type with two parts is matched if both parts are: its variables occur once, so the second part does not
undo what is assigned for the first. -/
theorem Matches.of_parts {t a r u b q : Ty} (hlinear : t.names.Nodup) (hnames : t.names = a.names ++ r.names)
    (ha : a.names.Nodup → a.Matches b) (hr : r.names.Nodup → r.Matches q)
    (hvalue : ∀ σ : Assignment, σ.value a = b.simplify → σ.value r = q.simplify → σ.value t = u.simplify) :
    t.Matches u := by
  rw [hnames, List.nodup_append'] at hlinear
  obtain ⟨hlinear₁, hlinear₂, hapart⟩ := hlinear
  intro θ
  obtain ⟨σ, hσ, hoff⟩ := ha hlinear₁ θ
  obtain ⟨τ, hτ, hoff'⟩ := hr hlinear₂ σ
  have hkept : τ.value a = σ.value a := Assignment.value_congr fun x hx => hoff' x (hapart hx)
  refine ⟨τ, hvalue τ (hkept.trans hσ) hτ, fun x hx => ?_⟩
  rw [hnames, List.mem_append, not_or] at hx
  rw [hoff' x hx.2, hoff x hx.1]

theorem Aligned.exists_matching {t u : Ty} {pairs : List Equation} (h : Aligned t u pairs)
    (hlinear : t.names.Nodup) : t.Matches u := by
  induction h with
  | pair v u =>
    intro θ
    refine ⟨Function.update θ v.name u, ?_, fun x hx => ?_⟩
    · rw [Assignment.value_var, Function.update_self]
    · exact Function.update_of_ne (fun hxv => hx (List.mem_singleton.2 hxv)) u θ
  | @same t u hsame =>
    intro θ
    let σ : Assignment := fun x => if x ∈ t.names then .var (.ofName x) else θ x
    have hself : ∀ v ∈ t.vars, (σ v.name).simplify = .var v.bare := by
      intro v hv
      simp only [σ, if_pos (mem_names.2 ⟨v, hv, rfl⟩)]
      rfl
    refine ⟨σ, ?_, fun x hx => if_neg hx⟩
    rw [σ.value_eq_subst, ← hsame]
    exact subst_congr hself
  | empty c =>
    intro θ
    exact ⟨θ, rfl, fun _ _ => rfl⟩
  | fn _ _ iha ihr =>
    refine .of_parts hlinear (names_fn _ _) iha ihr fun σ hσa hσr => ?_
    rw [σ.value_fn, hσa, hσr]
    rfl
  | applied ht hu _ _ ihh iha =>
    refine .of_parts hlinear ht.names_eq ihh iha fun σ hσh hσa => ?_
    rw [ht.value_eq, hσh, hσa]
    exact (hu.subst_eq _).symm

theorem Fits.exists_matching {t u : Ty} (h : t.Fits u) (hlinear : t.names.Nodup) : t.Matches u := by
  obtain ⟨pairs, hpairs⟩ := Option.isSome_iff_exists.1 h
  exact (aligned_of_align hpairs).exists_matching hlinear

theorem fits_of_value_eq {t u : Ty} {θ : Assignment} (h : θ.value t = u.simplify) (hu : u.Collapsed) :
    t.flatten.Fits u := by
  have ht := collapsed_flatten t
  have hfits := ht.fits_self.subst ht ht fun v => (θ v.name).simplify
  rw [← θ.value_eq_subst, θ.value_flatten, h] at hfits
  exact (fits_mapVars ht hu TyVar.bare).1 hfits

theorem flatten_fits_iff {t u : Ty} (hlinear : t.names.Nodup) (hu : u.Collapsed) :
    t.flatten.Fits u ↔ ∃ θ : Assignment, θ.value t = u.simplify := by
  constructor
  · intro h
    rw [← names_flatten] at hlinear
    obtain ⟨θ, hθ, -⟩ := h.exists_matching hlinear fun x => .var (.ofName x)
    exact ⟨θ, (θ.value_flatten t).symm.trans hθ⟩
  · intro h
    obtain ⟨θ, hθ⟩ := h
    exact fits_of_value_eq hθ hu

/-! ### Occurrences renamed apart -/

/-- The collapsed type with one variable in place of all its variables. -/
def shape (t : Ty) : Ty := t.mapVars fun _ => .ofName "_"

/-- The type `t'` is `t`, up to collapsing, with a variable of its own for every occurrence of a variable. -/
structure Separates (t' t : Ty) : Prop where
  shape : t'.shape = t.shape
  distinct : t'.names.Nodup

theorem fits_iff_of_shape_eq {t t' u : Ty} (h : t'.shape = t.shape) (ht : t.Collapsed) (hu : u.Collapsed) :
    t'.flatten.Fits u ↔ t.Fits u := by
  have hshape : ∀ w : Ty, w.shape.Fits u ↔ w.flatten.Fits u := by
    intro w
    rw [shape, mapVars, ← subst_flatten]
    exact fits_mapVars_left (collapsed_flatten w) hu _
  rw [← hshape t', h, hshape t, ht]

mutual

/-- The type with the numbers from `n` on for its occurrences of variables, from left to right. -/
def numberFrom : Nat → Ty → Ty
  | n, .var v => .var ⟨toString n, v.context⟩
  | n, .fn a r => .fn (a.numberFrom n) (r.numberFrom (n + a.vars.length))
  | n, .sum c ts => .sum c (numberAllFrom n ts)
  | n, .app h a => .app (h.numberFrom n) (a.numberFrom (n + h.vars.length))

/-- The parameter list with the numbers from `n` on for its occurrences of variables. -/
def numberAllFrom : Nat → List Ty → List Ty
  | _, [] => []
  | n, t :: ts => t.numberFrom n :: numberAllFrom (n + t.vars.length) ts

end

theorem names_numberFrom (n : Nat) (t : Ty) :
    (t.numberFrom n).names = (List.range' n t.vars.length).map toString := by
  induction t generalizing n with
  | var v => rfl
  | fn a r iha ihr =>
    rw [numberFrom, names_fn, iha, ihr, vars, List.length_append, ← List.range'_append_1, List.map_append]
  | sum c ts ih =>
    have hall : ∀ n, (numberAllFrom n ts).flatMap names =
        (List.range' n (ts.flatMap vars).length).map toString := by
      induction ts with
      | nil => exact fun n => rfl
      | cons t ts ihts =>
        intro n
        have hts := ihts fun u hu => ih u (List.mem_cons_of_mem t hu)
        rw [numberAllFrom, List.flatMap_cons, List.flatMap_cons, ih t List.mem_cons_self, hts,
          List.length_append, ← List.range'_append_1, List.map_append]
    rw [numberFrom, names_sum, hall, vars, varsAll_eq]
  | app h a ihh iha =>
    rw [numberFrom, names_app, ihh, iha, vars, List.length_append, ← List.range'_append_1, List.map_append]

theorem shape_numberFrom (n : Nat) (t : Ty) : (t.numberFrom n).shape = t.shape := by
  induction t generalizing n with
  | var v => rfl
  | fn a r iha ihr => exact congrArg₂ Ty.fn (iha n) (ihr _)
  | sum c ts ih =>
    have hall : ∀ n, (numberAllFrom n ts).map shape = ts.map shape := by
      induction ts with
      | nil => exact fun n => rfl
      | cons t ts ihts =>
        intro n
        have hts := ihts fun u hu => ih u (List.mem_cons_of_mem t hu)
        rw [numberAllFrom, List.map_cons, List.map_cons, ih t List.mem_cons_self, hts]
    rw [numberFrom, shape, shape, mapVars_sum, mapVars_sum]
    exact congrArg (Ty.sum c) (hall n)
  | app h a ihh iha => exact congrArg₂ apply (ihh n) (iha _)

theorem separates_numberFrom (n : Nat) (t : Ty) : (t.numberFrom n).Separates t where
  shape := shape_numberFrom n t
  distinct := by
    rw [names_numberFrom]
    exact (List.nodup_range' 1).map fun m k h => Nat.repr_inj.1 h

end Ty

namespace Store

/-- Types line up exactly if the formal one, with a variable of its own for every occurrence of a variable, can
be made the actual one by a substitution. So every type lines up with itself. -/
theorem align_iff_matches_separated (s : Store) (formal actual : Ty) :
    (∀ t' : Ty, t'.Separates (s.resolve formal) →
      ((s.align formal actual).isSome = true ↔
        ∃ θ : Assignment, (θ.replace t').simplify = (s.resolve actual).simplify)) ∧
    ((s.resolve formal).numberFrom 0).Separates (s.resolve formal) ∧
    (s.align formal formal).isSome = true := by
  have hformal := s.collapsed_resolve formal
  have hactual := s.collapsed_resolve actual
  refine ⟨fun t' ht' => ?_, Ty.separates_numberFrom 0 _, (s.isSome_align _ _).2 hformal.fits_self⟩
  rw [s.isSome_align, ← Ty.fits_iff_of_shape_eq ht'.shape hformal hactual]
  exact Ty.flatten_fits_iff ht'.distinct hactual

/-- With `f` bound to `Maybe`, `f a → a` lines up with `Maybe Int → Maybe`, since the two occurrences of `a` are
on their own, and not with `Int → Int`. -/
theorem align_iff_matches_separated_maybe :
    let s := ((empty "t").unify (.var (.ofName "f")) (.sum (.unqualified "Maybe") [])).2
    let a := Ty.var (.ofName "a")
    let int := Ty.sum (.unqualified "Int") []
    let maybe := Ty.sum (.unqualified "Maybe")
    let formal := Ty.fn (.app (.var (.ofName "f")) a) a
    let actual := Ty.fn (maybe [int]) (maybe [])
    let t' := Ty.fn (maybe [.var (.ofName "x")]) (.var (.ofName "y"))
    t'.Separates (s.resolve formal) ∧ (s.align formal actual).isSome = true ∧
      (∃ θ : Assignment, (θ.replace t').simplify = (s.resolve actual).simplify) ∧
      ¬ (s.align formal (.fn int int)).isSome = true ∧
      ¬ ∃ θ : Assignment, (θ.replace t').simplify = (s.resolve (.fn int int)).simplify := by
  refine ⟨?ht', ?hsome, ((align_iff_matches_separated _ _ _).1 _ ?ht').1 ?hsome, ?hnone,
    mt ((align_iff_matches_separated _ _ _).1 _ ?ht').2 ?hnone⟩
  case ht' => exact ⟨by decide +kernel, by decide +kernel⟩
  all_goals decide +kernel

/-! ### Matching and unification -/

/-- What every name stands for in the store, with `θ` put in for the variables that are left. -/
def assignmentOver (s : Store) (θ : Assignment) : Assignment := fun x => θ.replace (s.assignment x)

theorem value_assignmentOver (s : Store) (θ : Assignment) (t : Ty) :
    (s.assignmentOver θ).value t = θ.value (s.resolve t) := by
  rw [Assignment.value_eq_subst, resolve, θ.value_subst]
  refine Ty.subst_congr fun v _ => ?_
  rcases s.expandAll_ofName v with hsame | ⟨hv, hname⟩
  · rw [hsame]
    rfl
  · rw [hv, assignmentOver, assignment, hname]
    rfl

theorem Acyclic.respects_assignmentOver {s : Store} (hs : s.Acyclic) (θ : Assignment) :
    (s.assignmentOver θ).Respects s := by
  intro x t hx
  have hbound := hs.resolve_var_of_bound (v := .ofName x) hx
  calc ((s.assignmentOver θ) x).simplify
      = θ.value (s.resolve (.var (.ofName x))) := rfl
    _ = (s.assignmentOver θ).value t := by rw [hbound, value_assignmentOver]

theorem solves_align_iff {s : Store} {formal actual : Ty} {pairs : List Equation}
    (h : s.align formal actual = some pairs) {θ : Assignment} (hθ : θ.Respects s) :
    θ.value formal = θ.value actual ↔ θ.Solves pairs := by
  obtain ⟨pairs₀, hpairs₀, rfl⟩ := Option.map_eq_some_iff.1 h
  rw [← hθ.value_resolve formal, ← hθ.value_resolve actual, (Ty.aligned_of_align hpairs₀).solves_iff]
  simp only [Assignment.Solves, List.forall_mem_map, Assignment.value_simplify]

theorem Acyclic.exists_unifier {s : Store} (hs : s.Acyclic) {formal actual : Ty}
    (hlinear : (s.resolve formal).names.Nodup)
    (hapart : ∀ x ∈ (s.resolve formal).names, x ∉ (s.resolve actual).names)
    (hfits : (s.resolve formal).Fits (s.resolve actual)) :
    ∃ θ : Assignment, θ.Respects s ∧ θ.value formal = θ.value actual := by
  obtain ⟨σ, hσ, hoff⟩ := hfits.exists_matching hlinear fun x => .var (.ofName x)
  have hactual : σ.value (s.resolve actual) = (s.resolve actual).simplify := by
    rw [σ.value_eq_subst]
    refine Ty.subst_congr fun v hv => ?_
    have hv' : v.name ∉ (s.resolve formal).names := fun hmem =>
      hapart v.name hmem (Ty.mem_names.2 ⟨v, hv, rfl⟩)
    rw [hoff v.name hv']
    rfl
  refine ⟨s.assignmentOver σ, hs.respects_assignmentOver σ, ?_⟩
  rw [value_assignmentOver, value_assignmentOver, hσ, hactual]

/-- If a formal type whose variables occur once, and not in the actual type, lines up with the actual one, then
the two can be unified. Both sides of every pair are then the same type, up to demands, and unification has
solved the pairs and nothing else. -/
theorem unify_solves_aligned_pairs {s : Store} (hs : s.Acyclic) {formal actual : Ty}
    (hlinear : (s.resolve formal).names.Nodup)
    (hapart : ∀ x ∈ (s.resolve formal).names, x ∉ (s.resolve actual).names) {pairs : List (Ty × Ty)}
    (h : s.align formal actual = some pairs) :
    ∃ t s', s.unify formal actual = (.ok t, s') ∧
      (∀ k x, (k, x) ∈ pairs → (s'.resolve k).simplify = (s'.resolve x).simplify) ∧
      ∀ θ : Assignment, θ.Respects s' ↔ θ.Respects s ∧ θ.Solves pairs := by
  have hfits := (s.isSome_align formal actual).1 (Option.isSome_iff_exists.2 ⟨pairs, h⟩)
  rcases hs.unify_solves formal actual with ⟨t, s', hunify, hs', hrespects⟩ | ⟨err, s', -, hnone⟩
  · have hpairs : ∀ θ : Assignment, θ.Respects s' ↔ θ.Respects s ∧ θ.Solves pairs := by
      intro θ
      rw [hrespects]
      exact and_congr_right (solves_align_iff h)
    refine ⟨t, s', hunify, fun k x hkx => ?_, hpairs⟩
    have hself := ((hpairs s'.assignment).1 hs'.respects_assignment).2 (k, x) hkx
    rwa [value_assignment, value_assignment] at hself
  · obtain ⟨θ, hθ, heq⟩ := hs.exists_unifier hlinear hapart hfits
    exact absurd heq (hnone θ hθ)

/-- With `g` bound to `Maybe`, `Pair (f a) b` is aligned with `Pair (g x) x`. Unification binds `x` at the first
of its places, and at the second one meets what it is bound to. -/
theorem unify_solves_aligned_pairs_shared :
    let maybe := Ty.sum (.unqualified "Maybe") []
    let s := ((empty "t").unify (.var (.ofName "g")) maybe).2
    let a := Ty.var (.ofName "a")
    let b := Ty.var (.ofName "b")
    let f := Ty.var (.ofName "f")
    let x := Ty.var (.ofName "x")
    let formal := Ty.sum (.unqualified "Pair") [.app f a, b]
    let actual := Ty.sum (.unqualified "Pair") [.app (.var (.ofName "g")) x, x]
    let pairs := [(f, maybe), (a, x), (b, x)]
    s.Acyclic ∧ (s.resolve formal).names.Nodup ∧
      (∀ y ∈ (s.resolve formal).names, y ∉ (s.resolve actual).names) ∧
      s.align formal actual = some pairs ∧
      ∃ t s', s.unify formal actual = (.ok t, s') ∧
        (∀ k y, (k, y) ∈ pairs → (s'.resolve k).simplify = (s'.resolve y).simplify) ∧
        ∀ θ : Assignment, θ.Respects s' ↔ θ.Respects s ∧ θ.Solves pairs := by
  refine ⟨?hs, ?hlinear, ?hapart, ?halign, unify_solves_aligned_pairs ?hs ?hlinear ?hapart ?halign⟩
  case hs => exact (acyclic_empty "t").acyclic_unify _ _
  all_goals decide +kernel

end Store

end TypeEngine
