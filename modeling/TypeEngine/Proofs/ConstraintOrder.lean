import TypeEngine.Proofs.Renaming
import TypeEngine.Proofs.Termination

/-! # The order of equations does not matter

Unifying pairs of types one after the other leaves, if it never fails, the store whose solutions are
those of the first store that solve all the pairs. Which assignments these are does not depend on the
order of the pairs, and neither does whether there are any; so two orders succeed together and leave
stores that agree. -/

namespace TypeEngine

theorem Assignment.solves_perm {θ : Assignment} {eqs eqs' : List Equation} (h : eqs.Perm eqs') :
    θ.Solves eqs ↔ θ.Solves eqs' :=
  forall_congr' fun _ => imp_congr_left h.mem_iff

namespace Store

/-- The store after the pairs were unified one after the other, if none of them failed. -/
def unifyAll : Store → List Equation → Option Store
  | s, [] => some s
  | s, (e, a) :: eqs =>
    match s.unify e a with
    | (.ok _, s') => s'.unifyAll eqs
    | (.error _, _) => none

namespace Acyclic

variable {s : Store}

/-- One pair: it is solved by exactly the assignments that stay, or by none at all. -/
theorem unify_solves (hs : s.Acyclic) (e a : Ty) :
    (∃ t s', s.unify e a = (.ok t, s') ∧ s'.Acyclic ∧
      ∀ θ : Assignment, θ.Respects s' ↔ θ.Respects s ∧ θ.value e = θ.value a) ∨
    ∃ err s', s.unify e a = (.error err, s') ∧
      ∀ θ : Assignment, θ.Respects s → θ.value e ≠ θ.value a := by
  have hrun := hs.solving_unify e a
  have hs' := hs.acyclic_unify e a
  generalize s.unify e a = result at hrun hs' ⊢
  obtain ⟨r, s'⟩ := result
  cases r with
  | ok t =>
    refine .inl ⟨t, s', rfl, hs', fun θ => ?_⟩
    rw [hrun.respects_iff hs rfl, Assignment.solves_singleton]
  | error err =>
    refine .inr ⟨err, s', rfl, fun θ hθ heq => ?_⟩
    exact hrun.not_solves hs rfl hθ (Assignment.solves_singleton.2 heq)

theorem respects_unifyAll (hs : s.Acyclic) {eqs : List Equation} {s' : Store}
    (h : s.unifyAll eqs = some s') :
    s'.Acyclic ∧ ∀ θ : Assignment, θ.Respects s' ↔ θ.Respects s ∧ θ.Solves eqs := by
  induction eqs generalizing s with
  | nil =>
    cases h
    exact ⟨hs, fun θ => (and_iff_left θ.solves_nil).symm⟩
  | cons eq eqs ih =>
    obtain ⟨e, a⟩ := eq
    rcases hs.unify_solves e a with ⟨t, s₁, hunify, hs₁, hfirst⟩ | ⟨err, s₁, hunify, -⟩
    · simp only [unifyAll, hunify] at h
      obtain ⟨hs', hrest⟩ := ih hs₁ h
      refine ⟨hs', fun θ => ?_⟩
      rw [hrest, hfirst, Assignment.solves_cons, and_assoc]
    · simp only [unifyAll, hunify] at h
      cases h

theorem unifyAll_of_solves (hs : s.Acyclic) {eqs : List Equation} {θ : Assignment}
    (hθ : θ.Respects s) (h : θ.Solves eqs) : ∃ s', s.unifyAll eqs = some s' := by
  induction eqs generalizing s with
  | nil => exact ⟨s, rfl⟩
  | cons eq eqs ih =>
    obtain ⟨e, a⟩ := eq
    obtain ⟨heq, hrest⟩ := Assignment.solves_cons.1 h
    rcases hs.unify_solves e a with ⟨t, s₁, hunify, hs₁, hfirst⟩ | ⟨err, s₁, -, hnone⟩
    · obtain ⟨s', hs'⟩ := ih hs₁ ((hfirst θ).2 ⟨hθ, heq⟩) hrest
      exact ⟨s', by simp only [unifyAll, hunify, hs']⟩
    · exact absurd heq (hnone θ hθ)

end Acyclic

/-- Pairs that can be unified one after the other can be unified in every order, and the stores that
two orders leave are the same up to the names of variables. -/
theorem unifyAll_perm {s s₁ : Store} {eqs eqs' : List Equation} (hs : s.Acyclic)
    (hperm : eqs.Perm eqs') (h : s.unifyAll eqs = some s₁) :
    ∃ s₂, s.unifyAll eqs' = some s₂ ∧ ∃ ρ : Equiv.Perm String, ∀ t : Ty,
      (s₂.resolve t).simplify = (s₁.resolve t).simplify.rename ρ := by
  obtain ⟨hs₁, hfirst⟩ := hs.respects_unifyAll h
  obtain ⟨hθ, hsolves⟩ := (hfirst s₁.assignment).1 hs₁.respects_assignment
  obtain ⟨s₂, h₂⟩ := hs.unifyAll_of_solves hθ ((Assignment.solves_perm hperm).1 hsolves)
  obtain ⟨hs₂, hsecond⟩ := hs.respects_unifyAll h₂
  have hagree : s₁.Agrees s₂ := by
    intro θ
    rw [hfirst, hsecond, Assignment.solves_perm hperm]
  exact ⟨s₂, h₂, hagree.perm hs₁ hs₂, hagree.resolve_eq_rename hs₁ hs₂⟩

/-- Whether `x` and `y` are unified before `f z` and `Maybe y` or after them, the three variables
become one: `z` in the first order, `x` in the second. -/
theorem unifyAll_perm_application :
    let x : Ty := .var (.ofName "x")
    let y : Ty := .var (.ofName "y")
    let z : Ty := .var (.ofName "z")
    let fz : Ty := .app (.var (.ofName "f")) z
    let maybe : Ty := .sum (.unqualified "Maybe") [y]
    let s := empty "t"
    s.Acyclic ∧ [(x, y), (fz, maybe)].Perm [(fz, maybe), (x, y)] ∧
      (s.unifyAll [(fz, maybe), (x, y)]).map (·.resolve y) = some x ∧
        ∃ s₁, s.unifyAll [(x, y), (fz, maybe)] = some s₁ ∧ s₁.resolve y = z ∧
          ∃ s₂, s.unifyAll [(fz, maybe), (x, y)] = some s₂ ∧
            ∃ ρ : Equiv.Perm String, ∀ t : Ty,
              (s₂.resolve t).simplify = (s₁.resolve t).simplify.rename ρ :=
  ⟨acyclic_empty "t", .swap _ _ [], rfl, _, rfl, rfl,
    unifyAll_perm (acyclic_empty "t") (.swap _ _ []) rfl⟩

end Store

end TypeEngine
