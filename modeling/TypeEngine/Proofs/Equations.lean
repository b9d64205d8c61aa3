import TypeEngine.Proofs.Assignment

/-! # Reading equations

One equation between types asks for nothing, for a binding, for equations between parts, or cannot
hold. Each reading is right for every assignment: it solves the equation exactly when it solves what
the equation asks for. A split makes equations smaller and brings in no new variables. The only
delicate split is an application against a named type, where the parameters that the arguments take
are cut off at the end. -/

namespace TypeEngine

/-- The assignment makes both sides of every equation equal. -/
def Assignment.Solves (θ : Assignment) (eqs : List Equation) : Prop :=
  ∀ eq ∈ eqs, θ.value eq.1 = θ.value eq.2

/-- The number of nodes on both sides of the equations. -/
def Equation.totalSize : List Equation → Nat
  | [] => 0
  | (e, a) :: eqs => e.size + a.size + totalSize eqs

namespace Assignment

theorem solves_nil (θ : Assignment) : θ.Solves [] := by
  intro eq h
  cases h

theorem solves_cons {θ : Assignment} {e a : Ty} {eqs : List Equation} :
    θ.Solves ((e, a) :: eqs) ↔ θ.value e = θ.value a ∧ θ.Solves eqs :=
  List.forall_mem_cons

theorem solves_singleton {θ : Assignment} {e a : Ty} : θ.Solves [(e, a)] ↔ θ.value e = θ.value a :=
  List.forall_mem_singleton

theorem solves_append {θ : Assignment} {front back : List Equation} :
    θ.Solves (front ++ back) ↔ θ.Solves front ∧ θ.Solves back :=
  List.forall_mem_append

theorem solves_swap {θ : Assignment} {eqs : List Equation} :
    θ.Solves (eqs.map Prod.swap) ↔ θ.Solves eqs := by
  simp only [Solves, List.forall_mem_map, Prod.fst_swap, Prod.snd_swap]
  exact forall₂_congr fun _ _ => eq_comm

theorem solves_zip {θ : Assignment} {ts us : List Ty} (h : ts.length = us.length) :
    θ.Solves (ts.zip us) ↔ ts.map θ.value = us.map θ.value := by
  induction ts generalizing us with
  | nil =>
    cases us with
    | nil => simp [Solves]
    | cons u us => simp at h
  | cons t ts ih =>
    cases us with
    | nil => simp at h
    | cons u us =>
      simp only [List.length_cons, Nat.add_right_cancel_iff] at h
      simp only [List.zip_cons_cons, solves_cons, ih h, List.map_cons, List.cons.injEq]

end Assignment

namespace Equation

theorem totalSize_swap (eqs : List Equation) : totalSize (eqs.map Prod.swap) = totalSize eqs := by
  induction eqs with
  | nil => rfl
  | cons eq eqs ih =>
    obtain ⟨e, a⟩ := eq
    simp only [List.map_cons, Prod.swap_prod_mk, totalSize, ih, Nat.add_comm e.size]

theorem totalSize_zip {ts us : List Ty} (h : ts.length = us.length) :
    totalSize (ts.zip us) = Ty.sizeAll ts + Ty.sizeAll us := by
  induction ts generalizing us with
  | nil =>
    cases us with
    | nil => rfl
    | cons u us => simp at h
  | cons t ts ih =>
    cases us with
    | nil => simp at h
    | cons u us =>
      simp only [List.length_cons, Nat.add_right_cancel_iff] at h
      simp only [List.zip_cons_cons, totalSize, ih h, Ty.sizeAll]
      omega

end Equation

/-! ### An application against a named type -/

namespace Ty

theorem spread_eq_some {t : Ty} {s : Symbol} {ts : List Ty} {parts : List Equation}
    (h : t.spread s ts = some parts) :
    ∃ kept taken, ts = kept ++ taken ∧ taken.length = t.spine.2.length ∧
      parts = (t.spine.1, .sum s kept) :: t.spine.2.zip taken := by
  simp only [spread] at h
  split at h
  · rename_i hle
    refine ⟨_, _, (List.take_append_drop _ ts).symm, ?_, (Option.some.inj h).symm⟩
    rw [List.length_drop]
    omega
  · cases h

theorem spread_eq_none {t : Ty} {s : Symbol} {ts : List Ty} (h : t.spread s ts = none) :
    ts.length < t.spine.2.length := by
  simp only [spread] at h
  split at h
  · cases h
  · omega

theorem solves_spread {θ : Assignment} {t : Ty} {s : Symbol} {ts : List Ty}
    {parts : List Equation} (h : t.spread s ts = some parts) :
    θ.value t = θ.value (.sum s ts) ↔ θ.Solves parts := by
  obtain ⟨kept, taken, rfl, hlen, rfl⟩ := spread_eq_some h
  rw [Assignment.solves_cons, Assignment.solves_zip hlen.symm, θ.value_eq_applyAll_spine t,
    θ.value_sum, θ.value_sum, applyAll_eq_sum_iff, List.map_append]
  constructor
  · intro hsum
    obtain ⟨ps, hroot, hargs⟩ := hsum
    have hlen' : (kept.map θ.value).length = ps.length := by
      have := congrArg List.length hargs
      simp only [List.length_append, List.length_map] at this ⊢
      omega
    obtain ⟨hkept, htaken⟩ := List.append_inj hargs hlen'
    exact ⟨hkept ▸ hroot, htaken.symm⟩
  · intro hparts
    obtain ⟨hroot, htaken⟩ := hparts
    exact ⟨kept.map θ.value, hroot, by rw [htaken]⟩

theorem value_ne_of_spread_eq_none (θ : Assignment) {t : Ty} {s : Symbol} {ts : List Ty}
    (h : t.spread s ts = none) : θ.value t ≠ θ.value (.sum s ts) := by
  intro heq
  rw [θ.value_eq_applyAll_spine t, θ.value_sum, applyAll_eq_sum_iff] at heq
  obtain ⟨ps, -, hargs⟩ := heq
  have hlen := congrArg List.length hargs
  have hlt := spread_eq_none h
  simp only [List.length_append, List.length_map] at hlen
  omega

theorem totalSize_spread {h a : Ty} {s : Symbol} {ts : List Ty} {parts : List Equation}
    (hparts : (Ty.app h a).spread s ts = some parts) :
    Equation.totalSize parts < (Ty.app h a).size + (Ty.sum s ts).size := by
  obtain ⟨kept, taken, rfl, hlen, rfl⟩ := spread_eq_some hparts
  have hspine := size_eq_spine (.app h a)
  have hpos : 0 < (Ty.app h a).spine.2.length := by simp [spine]
  rw [Equation.totalSize, Equation.totalSize_zip hlen.symm]
  simp only [size, sizeAll_append] at hspine ⊢
  omega

theorem mem_vars_spread {t : Ty} {s : Symbol} {ts : List Ty} {parts : List Equation}
    (h : t.spread s ts = some parts) {eq : Equation} (heq : eq ∈ parts) :
    (∀ v ∈ eq.1.vars, v ∈ t.vars) ∧ ∀ v ∈ eq.2.vars, v ∈ (Ty.sum s ts).vars := by
  obtain ⟨kept, taken, rfl, -, rfl⟩ := spread_eq_some h
  simp only [vars, varsAll_eq, List.mem_flatMap]
  rcases List.mem_cons.1 heq with rfl | heq
  · refine ⟨fun v hv => mem_vars_spine.2 (.inl hv), fun v hv => ?_⟩
    simp only [vars, varsAll_eq, List.mem_flatMap] at hv
    obtain ⟨u, hu, hvu⟩ := hv
    exact ⟨u, List.mem_append_left _ hu, hvu⟩
  · obtain ⟨hoperand, htaken⟩ := List.of_mem_zip heq
    exact ⟨fun v hv => mem_vars_spine.2 (.inr ⟨_, hoperand, hv⟩),
      fun v hv => ⟨_, List.mem_append_right _ htaken, hv⟩⟩

end Ty

/-! ### Splits -/

/-- The equation between `e` and `a` comes down to `parts`: the same assignments solve them, they are
smaller, and all their variables occur in the equation. -/
structure Equation.Splits (e a : Ty) (parts : List Equation) : Prop where
  solves : ∀ θ : Assignment, θ.value e = θ.value a ↔ θ.Solves parts
  smaller : totalSize parts < e.size + a.size
  names : ∀ eq ∈ parts, ∀ x, x ∈ eq.1.names ∨ x ∈ eq.2.names → x ∈ e.names ∨ x ∈ a.names

namespace Equation

theorem Splits.swap {e a : Ty} {parts : List Equation} (h : Splits e a parts) :
    Splits a e (parts.map Prod.swap) where
  solves θ := by rw [Assignment.solves_swap, ← h.solves θ, eq_comm]
  smaller := by
    have := h.smaller
    rw [totalSize_swap]
    omega
  names eq heq x hx := by
    obtain ⟨eq', heq', rfl⟩ := List.mem_map.1 heq
    exact (h.names eq' heq' x hx.symm).symm

theorem splits_fn (a r b q : Ty) : Splits (.fn a r) (.fn b q) [(a, b), (r, q)] where
  solves θ := by
    simp only [θ.value_fn, Ty.fn.injEq, Assignment.solves_cons, θ.solves_nil, and_true]
  smaller := by
    simp only [totalSize, Ty.size]
    omega
  names eq heq x hx := by
    simp only [Ty.names_fn, List.mem_append]
    simp only [List.mem_cons, List.not_mem_nil, or_false] at heq
    rcases heq with rfl | rfl <;> rcases hx with hx | hx <;> simp [hx]

theorem splits_app (h a g b : Ty) : Splits (.app h a) (.app g b) [(h, g), (a, b)] where
  solves θ := by
    simp only [θ.value_app, Ty.apply_inj, Assignment.solves_cons, θ.solves_nil, and_true]
  smaller := by
    simp only [totalSize, Ty.size]
    omega
  names eq heq x hx := by
    simp only [Ty.names_app, List.mem_append]
    simp only [List.mem_cons, List.not_mem_nil, or_false] at heq
    rcases heq with rfl | rfl <;> rcases hx with hx | hx <;> simp [hx]

theorem splits_sum (s : Symbol) {ts us : List Ty} (hlen : ts.length = us.length) :
    Splits (.sum s ts) (.sum s us) (ts.zip us) where
  solves θ := by
    simp only [θ.value_sum, Ty.sum.injEq, true_and, Assignment.solves_zip hlen]
  smaller := by
    simp only [totalSize_zip hlen, Ty.size]
    omega
  names eq heq x hx := by
    obtain ⟨hleft, hright⟩ := List.of_mem_zip heq
    simp only [Ty.mem_names_sum]
    exact hx.imp (fun hx => ⟨_, hleft, hx⟩) (fun hx => ⟨_, hright, hx⟩)

theorem splits_spread {h a : Ty} {s : Symbol} {ts : List Ty} {parts : List Equation}
    (hparts : (Ty.app h a).spread s ts = some parts) : Splits (.app h a) (.sum s ts) parts where
  solves _ := Ty.solves_spread hparts
  smaller := Ty.totalSize_spread hparts
  names eq heq x hx := by
    obtain ⟨hleft, hright⟩ := Ty.mem_vars_spread hparts heq
    simp only [Ty.mem_names] at hx ⊢
    exact hx.imp (fun ⟨v, hv, hname⟩ => ⟨v, hleft v hv, hname⟩)
      (fun ⟨v, hv, hname⟩ => ⟨v, hright v hv, hname⟩)

end Equation

/-! ### Readings -/

namespace Reading

theorem of_eq_agree {e a : Ty} (h : Reading.of e a = .agree) :
    ∃ v w : TyVar, e = .var v ∧ a = .var w ∧ v.name = w.name := by
  cases e <;> cases a <;> simp only [Reading.of] at h
  case var.var v w =>
    split at h
    · exact ⟨v, w, rfl, rfl, ‹_›⟩
    · cases h
  all_goals grind

/-- A binding is asked for a side that is a variable, the actual side if both are, and the other side
is not that variable. -/
theorem of_eq_bind {e a : Ty} {v : TyVar} {t : Ty} (h : Reading.of e a = .bind v t) :
    (e = .var v ∧ a = t ∧ t.isVar = false ∨ a = .var v ∧ e = t) ∧
      ∀ w, t = .var w → w.name ≠ v.name := by
  cases e <;> cases a <;> simp only [Reading.of] at h <;> grind [Ty.isVar, Ty.asVar?]

theorem isVar_of_split {e a : Ty} {parts : List Equation} (h : Reading.of e a = .split parts) :
    e.isVar = false ∧ a.isVar = false := by
  cases e <;> cases a <;> simp only [Reading.of] at h <;> grind [Ty.isVar, Ty.asVar?]

theorem splits_of {e a : Ty} {parts : List Equation} (h : Reading.of e a = .split parts) :
    Equation.Splits e a parts := by
  cases e <;> cases a <;> simp only [Reading.of] at h
  case fn.fn a r b q =>
    cases h
    exact Equation.splits_fn a r b q
  case app.app h' a g b =>
    cases h
    exact Equation.splits_app h' a g b
  case sum.sum s ts s' us =>
    split at h
    · rename_i hsame
      cases h
      obtain ⟨rfl, hlen⟩ := hsame
      exact Equation.splits_sum s hlen
    · cases h
  case app.sum g b s ts =>
    split at h
    · rename_i parts' hparts
      cases h
      exact Equation.splits_spread hparts
    · cases h
  case sum.app s ts g b =>
    split at h
    · rename_i parts' hparts
      cases h
      exact (Equation.splits_spread hparts).swap
    · cases h
  all_goals grind

theorem value_ne_of_clash (θ : Assignment) {e a : Ty} (h : Reading.of e a = .clash) :
    θ.value e ≠ θ.value a := by
  cases e <;> cases a <;> simp only [Reading.of, reduceCtorEq] at h
  case var.var => grind
  case fn.sum => simp [θ.value_fn, θ.value_sum]
  case sum.fn => simp [θ.value_fn, θ.value_sum]
  case fn.app a r g b =>
    rw [θ.value_fn, θ.value_app]
    exact (Ty.apply_ne_fn _ _ _ _).symm
  case app.fn g b a r =>
    rw [θ.value_fn, θ.value_app]
    exact Ty.apply_ne_fn _ _ _ _
  case sum.sum s ts s' us =>
    split at h
    · cases h
    · rename_i hne
      intro heq
      rw [θ.value_sum, θ.value_sum, Ty.sum.injEq] at heq
      exact hne ⟨heq.1, by simpa using congrArg List.length heq.2⟩
  case app.sum g b s ts =>
    split at h
    · cases h
    · rename_i hnone
      exact Ty.value_ne_of_spread_eq_none θ hnone
  case sum.app s ts g b =>
    split at h
    · cases h
    · rename_i hnone
      exact (Ty.value_ne_of_spread_eq_none θ hnone).symm

theorem value_eq_of_agree (θ : Assignment) {e a : Ty} (h : Reading.of e a = .agree) :
    θ.value e = θ.value a := by
  obtain ⟨v, w, rfl, rfl, hname⟩ := of_eq_agree h
  rw [θ.value_var, θ.value_var, hname]

theorem value_eq_iff_of_bind (θ : Assignment) {e a : Ty} {v : TyVar} {t : Ty}
    (h : Reading.of e a = .bind v t) :
    θ.value e = θ.value a ↔ (θ v.name).simplify = θ.value t := by
  rcases (of_eq_bind h).1 with ⟨rfl, rfl, -⟩ | ⟨rfl, rfl⟩
  · rw [θ.value_var]
  · rw [θ.value_var, eq_comm]

end Reading

end TypeEngine
