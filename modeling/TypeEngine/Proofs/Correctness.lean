import TypeEngine.Proofs.Termination

/-! # Unification is sound, complete and most general

After unification has answered a type, both sides and the answer stand for one type in the store that
is left. And nothing is lost on the way: an assignment that respects the store and makes both sides
equal still respects the store after unification, which then does not fail. -/

namespace TypeEngine

namespace Store

/-! ### The answer -/

theorem answerSide_eq_or (e a : Ty) : answerSide e a = e ∨ answerSide e a = a := by
  cases e <;> cases a <;> simp [answerSide]

theorem Acyclic.unbound_of_mem_answer {s s' : Store} (hs : s.Acyclic) (hs' : s'.Acyclic)
    {e a t : Ty} (h : Unifies s e a (.ok t) s') {x : String} (hx : x ∈ t.names) :
    s'.bindings[x]? = none := by
  cases h with
  | agree hread => exact hs.unbound_of_mem hx
  | bind hread hbind => exact (hs.binds hread hbind).unbound_of_mem hx
  | split hread hparts => exact hs'.unbound_of_mem hx

theorem simplify_resolve_of_unbound {s : Store} {t : Ty}
    (h : ∀ x ∈ t.names, s.bindings[x]? = none) : (s.resolve t).simplify = t.simplify := by
  rw [resolve_of_unbound s h, Ty.simplify_subst]
  rfl

theorem value_answer {s s' : Store} {θ : Assignment} (hθ : θ.Respects s) (hθ' : θ.Respects s')
    {e a t : Ty} (heq : θ.value e = θ.value a) (h : Unifies s e a (.ok t) s') :
    θ.value t = θ.value e := by
  have he := hθ.value_resolve e
  have ha := (hθ.value_resolve a).trans heq.symm
  cases h with
  | agree hread => exact he
  | bind hread hbind =>
    rcases (Reading.of_eq_bind hread).1 with ⟨-, hat, -⟩ | ⟨-, het⟩
    · rw [← hat, ha]
    · rw [← het, he]
  | split hread hparts =>
    rw [hθ'.value_resolve]
    rcases answerSide_eq_or (s.resolve e) (s.resolve a) with hside | hside
    · rw [hside, he]
    · rw [hside, ha]

/-! ### Soundness -/

/-- When unification answers a type, both sides and the answer stand for the same type in the store
it leaves, and that type is the answer itself, up to demands. -/
theorem unify_sound {s s' : Store} {e a t : Ty} (hs : s.Acyclic)
    (h : s.unify e a = (.ok t, s')) :
    (s'.resolve e).simplify = t.simplify ∧ (s'.resolve a).simplify = t.simplify ∧
      (s'.resolve t).simplify = t.simplify := by
  have hrun : Solving [(e, a)] s (.ok ()) s' := by
    have hsolving := hs.solving_unify e a
    rw [h] at hsolving
    exact hsolving
  have hunifies : Unifies s e a (.ok t) s' := by
    have hunify := hs.unifies_unify e a
    rw [h] at hunify
    exact hunify
  have hs' : s'.Acyclic := (hrun.learns hs).1
  -- the assignment that the final store itself is respects both stores and solves the equation
  have hθ' := hs'.respects_assignment
  obtain ⟨hθ, hsolves⟩ := (hrun.respects_iff hs rfl).1 hθ'
  have heq := (Assignment.solves_cons.1 hsolves).1
  have hanswer := value_answer hθ hθ' heq hunifies
  have hself : (s'.resolve t).simplify = t.simplify :=
    simplify_resolve_of_unbound fun x hx => hs.unbound_of_mem_answer hs' hunifies hx
  simp only [value_assignment] at heq hanswer
  exact ⟨hanswer.symm.trans hself, heq.symm.trans (hanswer.symm.trans hself), hself⟩

/-- With `f` bound to `Maybe`, unifying `f a` with `Maybe b` makes both, and the answer, `Maybe a`. -/
theorem unify_sound_application :
    let s := ((empty "t").unify (.var (.ofName "f")) (.sum (.unqualified "Maybe") [])).2
    let e : Ty := .app (.var (.ofName "f")) (.var (.ofName "a"))
    let a : Ty := .sum (.unqualified "Maybe") [.var (.ofName "b")]
    let t : Ty := .sum (.unqualified "Maybe") [.var (.ofName "a")]
    let s' := (s.unify e a).2
    s.Acyclic ∧ s.unify e a = (.ok t, s') ∧
      (s'.resolve e).simplify = t.simplify ∧ (s'.resolve a).simplify = t.simplify ∧
        (s'.resolve t).simplify = t.simplify := by
  have hs := (acyclic_empty "t").acyclic_unify (.var (.ofName "f"))
    (.sum (.unqualified "Maybe") [])
  exact ⟨hs, Prod.ext rfl rfl, unify_sound hs (Prod.ext rfl rfl)⟩

/-! ### Completeness -/

/-- An assignment that respects the store and makes both sides equal is not lost: unification
answers, and the assignment respects the store it leaves. -/
theorem unify_mostGeneral {s : Store} {e a : Ty} {θ : Assignment} (hs : s.Acyclic)
    (hθ : θ.Respects s) (heq : (θ.replace e).simplify = (θ.replace a).simplify) :
    ∃ t s', s.unify e a = (.ok t, s') ∧ θ.Respects s' := by
  have hsolves : θ.Solves [(e, a)] := Assignment.solves_cons.2 ⟨heq, θ.solves_nil⟩
  have hrun := hs.solving_unify e a
  generalize s.unify e a = result at hrun ⊢
  obtain ⟨r, s'⟩ := result
  cases r with
  | ok t => exact ⟨t, s', rfl, (hrun.respects_iff hs rfl).2 ⟨hθ, hsolves⟩⟩
  | error err => exact absurd hsolves (hrun.not_solves hs rfl hθ)

/-- With `f` bound to `Maybe`, the assignment of `Maybe` to `f` and `Int` to all other names makes
`f a` and `Maybe b` equal, and respects the store after these are unified. -/
theorem unify_mostGeneral_application :
    let s := ((empty "t").unify (.var (.ofName "f")) (.sum (.unqualified "Maybe") [])).2
    let e : Ty := .app (.var (.ofName "f")) (.var (.ofName "a"))
    let a : Ty := .sum (.unqualified "Maybe") [.var (.ofName "b")]
    let θ : Assignment := fun x =>
      if x = "f" then .sum (.unqualified "Maybe") [] else .sum (.unqualified "Int") []
    s.Acyclic ∧ θ.Respects s ∧ (θ.replace e).simplify = (θ.replace a).simplify ∧
      ∃ t s', s.unify e a = (.ok t, s') ∧ θ.Respects s' := by
  intro s e a θ
  have hs : s.Acyclic := (acyclic_empty "t").acyclic_unify _ _
  have hθ : θ.Respects s := by
    intro x t hx
    have hb : s.bindings = (∅ : Bindings).insert "f" (.sum (.unqualified "Maybe") []) := rfl
    rw [hb, Bindings.lookup_insert] at hx
    split at hx
    · rename_i hxf
      cases hx
      rw [hxf]
      rfl
    · simp at hx
  have heq : (θ.replace e).simplify = (θ.replace a).simplify := rfl
  exact ⟨hs, hθ, heq, unify_mostGeneral hs hθ heq⟩

end Store

end TypeEngine
