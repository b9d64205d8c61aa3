import TypeEngine.Unification

/-! # Assignments

An assignment gives a type for every variable name. Its value at a type is the type with all
variables replaced, collapsed and without demands, so two types have the same value exactly when the
assignment makes them the same type. The file holds the algebra behind that: applications can be
taken apart again, a chain of applications is its head applied to its arguments, and replacing
variables by larger types never makes a type smaller. -/

namespace TypeEngine

namespace Ty

/-! ### Names -/

/-- The names of the variables of a type, from left to right. -/
def names (t : Ty) : List String := t.vars.map (·.name)

theorem mem_names {t : Ty} {x : String} : x ∈ t.names ↔ ∃ v ∈ t.vars, v.name = x := by
  simp [names]

theorem mentions_iff {t : Ty} {x : String} : t.mentions x = true ↔ x ∈ t.names := by
  rw [mentions_eq_true_iff, mem_names]

theorem names_var (v : TyVar) : (Ty.var v).names = [v.name] := rfl

theorem mem_names_subst {f : TyVar → Ty} {t : Ty} {x : String} :
    x ∈ (t.subst f).names ↔ ∃ v ∈ t.vars, x ∈ (f v).names := by
  simp only [names, vars_subst, List.map_flatMap, List.mem_flatMap]

theorem names_fn (a r : Ty) : (Ty.fn a r).names = a.names ++ r.names := by
  simp [names, vars]

theorem names_app (h a : Ty) : (Ty.app h a).names = h.names ++ a.names := by
  simp [names, vars]

theorem names_sum (s : Symbol) (ts : List Ty) : (Ty.sum s ts).names = ts.flatMap names := by
  rw [names, vars, varsAll_eq, List.map_flatMap]
  rfl

theorem mem_names_sum {s : Symbol} {ts : List Ty} {x : String} :
    x ∈ (Ty.sum s ts).names ↔ ∃ t ∈ ts, x ∈ t.names := by
  rw [names_sum, List.mem_flatMap]

/-! ### Size -/

theorem sizeAll_append (ts us : List Ty) : sizeAll (ts ++ us) = sizeAll ts + sizeAll us := by
  induction ts with
  | nil => simp [sizeAll]
  | cons t ts ih => simp [sizeAll, ih, Nat.add_assoc]

theorem size_pos (t : Ty) : 0 < t.size := by
  cases t <;> simp only [size] <;> omega

theorem size_le_sizeAll {t : Ty} {ts : List Ty} (h : t ∈ ts) : t.size ≤ sizeAll ts := by
  induction ts with
  | nil => cases h
  | cons u ts ih =>
    simp only [sizeAll]
    rcases List.mem_cons.1 h with rfl | h
    · omega
    · have := ih h
      omega

theorem sizeAll_map_le {f : Ty → Ty} {ts : List Ty} (h : ∀ t ∈ ts, (f t).size ≤ t.size) :
    sizeAll (ts.map f) ≤ sizeAll ts := by
  induction ts with
  | nil => exact Nat.le_refl _
  | cons t ts ih =>
    have ht := h t List.mem_cons_self
    have hts := ih fun u hu => h u (List.mem_cons_of_mem t hu)
    simp only [List.map_cons, sizeAll]
    omega

theorem size_apply_le (h a : Ty) : (h.apply a).size ≤ 1 + h.size + a.size := by
  cases h <;> simp only [apply, size, sizeAll_append, sizeAll] <;> omega

theorem size_le_apply (h a : Ty) : h.size + a.size ≤ (h.apply a).size := by
  cases h <;> simp only [apply, size, sizeAll_append, sizeAll] <;> omega

/-- Replacing variables by variables does not make a type larger. It can make it smaller, since an
application may collapse. -/
theorem size_subst_le {f : TyVar → Ty} {t : Ty} (h : ∀ v ∈ t.vars, (f v).size ≤ 1) :
    (t.subst f).size ≤ t.size := by
  induction t with
  | var v => simpa [subst, vars, size] using h
  | fn a r iha ihr =>
    simp only [vars, List.mem_append] at h
    have ha := iha fun v hv => h v (.inl hv)
    have hr := ihr fun v hv => h v (.inr hv)
    simp only [subst, size]
    omega
  | sum s ts ih =>
    simp only [vars, varsAll_eq, List.mem_flatMap] at h
    have hts : ∀ t ∈ ts, (t.subst f).size ≤ t.size :=
      fun t ht => ih t ht fun v hv => h v ⟨t, ht, hv⟩
    have hsum := sizeAll_map_le hts
    simp only [subst, substAll_eq, size]
    omega
  | app g a ihg iha =>
    simp only [vars, List.mem_append] at h
    have hg := ihg fun v hv => h v (.inl hv)
    have ha := iha fun v hv => h v (.inr hv)
    have happ := size_apply_le (g.subst f) (a.subst f)
    simp only [subst, size]
    omega

theorem size_le_size_subst (f : TyVar → Ty) {t : Ty} {v : TyVar} (h : v ∈ t.vars) :
    (f v).size ≤ (t.subst f).size := by
  induction t with
  | var w =>
    have hw : v = w := by simpa [vars] using h
    rw [hw]
    exact Nat.le_refl _
  | fn a r iha ihr =>
    simp only [vars, List.mem_append] at h
    simp only [subst, size]
    rcases h with h | h
    · have := iha h
      omega
    · have := ihr h
      omega
  | sum s ts ih =>
    simp only [vars, varsAll_eq, List.mem_flatMap] at h
    obtain ⟨t, ht, hv⟩ := h
    have hsum : (t.subst f).size ≤ sizeAll (ts.map (subst f)) :=
      size_le_sizeAll (List.mem_map_of_mem ht)
    have hle := ih t ht hv
    simp only [subst, substAll_eq, size]
    omega
  | app g a ihg iha =>
    simp only [vars, List.mem_append] at h
    have happ := size_le_apply (g.subst f) (a.subst f)
    simp only [subst]
    rcases h with h | h
    · have := ihg h
      omega
    · have := iha h
      omega

theorem size_lt_size_subst (f : TyVar → Ty) {t : Ty} {v : TyVar} (h : v ∈ t.vars)
    (ht : t.isVar = false) : (f v).size < (t.subst f).size := by
  cases t with
  | var w => simp [isVar, asVar?] at ht
  | fn a r =>
    simp only [vars, List.mem_append] at h
    simp only [subst, size]
    rcases h with h | h
    · have := size_le_size_subst f h
      omega
    · have := size_le_size_subst f h
      omega
  | sum s ts =>
    simp only [vars, varsAll_eq, List.mem_flatMap] at h
    obtain ⟨t, ht, hv⟩ := h
    have hsum : (t.subst f).size ≤ sizeAll (ts.map (subst f)) :=
      size_le_sizeAll (List.mem_map_of_mem ht)
    have hle := size_le_size_subst f hv
    simp only [subst, substAll_eq, size]
    omega
  | app g a =>
    simp only [vars, List.mem_append] at h
    have happ := size_le_apply (g.subst f) (a.subst f)
    have hg := size_pos (g.subst f)
    have ha := size_pos (a.subst f)
    simp only [subst]
    rcases h with h | h
    · have := size_le_size_subst f h
      omega
    · have := size_le_size_subst f h
      omega

/-! ### Applications -/

theorem apply_inj {h g a b : Ty} : h.apply a = g.apply b ↔ h = g ∧ a = b := by
  cases h <;> cases g <;> simp [apply, and_assoc]

theorem apply_ne_fn (h a b r : Ty) : h.apply a ≠ .fn b r := by
  cases h <;> simp [apply]

/-- The application of `h` to several arguments, one after the other. -/
def applyAll (h : Ty) (as : List Ty) : Ty := as.foldl apply h

theorem applyAll_concat (h : Ty) (as : List Ty) (a : Ty) :
    h.applyAll (as ++ [a]) = (h.applyAll as).apply a := by
  simp [applyAll]

theorem applyAll_sum (s : Symbol) (ts as : List Ty) :
    (Ty.sum s ts).applyAll as = .sum s (ts ++ as) := by
  induction as generalizing ts with
  | nil => simp [applyAll]
  | cons a as ih =>
    have hstep : (Ty.sum s ts).applyAll (a :: as) = (Ty.sum s (ts ++ [a])).applyAll as := rfl
    rw [hstep, ih, List.append_assoc, List.singleton_append]

theorem apply_eq_sum_iff {h a : Ty} {s : Symbol} {ts : List Ty} :
    h.apply a = .sum s ts ↔ ∃ ps, h = .sum s ps ∧ ts = ps ++ [a] := by
  cases h with
  | sum s' us =>
    simp only [apply, Ty.sum.injEq]
    constructor
    · intro hsame
      obtain ⟨hs, hts⟩ := hsame
      exact ⟨us, ⟨hs, rfl⟩, hts.symm⟩
    · intro hsplit
      obtain ⟨ps, ⟨hs, hps⟩, hts⟩ := hsplit
      exact ⟨hs, by rw [hts, hps]⟩
  | var v => simp [apply]
  | fn b r => simp [apply]
  | app g b => simp [apply]

/-- Only a named type makes a named type when it is applied, and the arguments then stand at the end
of its parameters. -/
theorem applyAll_eq_sum_iff {h : Ty} {as ts : List Ty} {s : Symbol} :
    h.applyAll as = .sum s ts ↔ ∃ ps, h = .sum s ps ∧ ts = ps ++ as := by
  constructor
  · intro heq
    induction as generalizing h with
    | nil => exact ⟨ts, heq, by simp⟩
    | cons a as ih =>
      obtain ⟨qs, happ, hts⟩ := ih (h := h.apply a) heq
      obtain ⟨ps, hh, hqs⟩ := apply_eq_sum_iff.1 happ
      exact ⟨ps, hh, by rw [hts, hqs, List.append_assoc, List.singleton_append]⟩
  · intro hsplit
    obtain ⟨ps, hh, hts⟩ := hsplit
    rw [hh, hts]
    exact applyAll_sum s ps as

theorem subst_eq_applyAll_spine (f : TyVar → Ty) (t : Ty) :
    t.subst f = (t.spine.1.subst f).applyAll (t.spine.2.map (subst f)) := by
  induction t with
  | var v => rfl
  | fn a r _ _ => rfl
  | sum s ts _ => rfl
  | app h a ihh _ =>
    simp only [spine, List.map_append, List.map_cons, List.map_nil]
    rw [applyAll_concat, ← ihh]
    rfl

theorem size_eq_spine (t : Ty) :
    t.size = t.spine.1.size + sizeAll t.spine.2 + t.spine.2.length := by
  induction t with
  | var v => simp [spine, sizeAll]
  | fn a r _ _ => simp [spine, sizeAll]
  | sum s ts _ => simp [spine, sizeAll]
  | app h a ihh _ =>
    simp only [spine, size, sizeAll_append, sizeAll, List.length_append, List.length_cons,
      List.length_nil]
    omega

theorem mem_vars_spine {t : Ty} {v : TyVar} :
    v ∈ t.vars ↔ v ∈ t.spine.1.vars ∨ ∃ a ∈ t.spine.2, v ∈ a.vars := by
  induction t with
  | var w => simp [spine]
  | fn a r _ _ => simp [spine]
  | sum s ts _ => simp [spine]
  | app h a ihh _ => simp [spine, vars, ihh, or_and_right, exists_or, or_assoc]

/-! ### Simplified types -/

theorem simplify_subst (f : TyVar → Ty) (t : Ty) :
    (t.subst f).simplify = t.subst fun v => (f v).simplify :=
  subst_subst f _ t

end Ty

/-! ### Values -/

/-- A type for every variable name. -/
abbrev Assignment := String → Ty

namespace Assignment

/-- The type with every variable replaced by what is assigned to its name. -/
def replace (θ : Assignment) (t : Ty) : Ty := t.subst fun v => θ v.name

/-- What the assignment makes of a type, up to collapsing and demands. -/
def value (θ : Assignment) (t : Ty) : Ty := (θ.replace t).simplify

theorem value_eq_subst (θ : Assignment) (t : Ty) :
    θ.value t = t.subst fun v => (θ v.name).simplify :=
  Ty.simplify_subst _ t

theorem value_var (θ : Assignment) (v : TyVar) : θ.value (.var v) = (θ v.name).simplify := rfl

theorem value_fn (θ : Assignment) (a r : Ty) : θ.value (.fn a r) = .fn (θ.value a) (θ.value r) := by
  simp only [value_eq_subst, Ty.subst]

theorem value_sum (θ : Assignment) (s : Symbol) (ts : List Ty) :
    θ.value (.sum s ts) = .sum s (ts.map θ.value) := by
  simp only [value_eq_subst, Ty.subst, Ty.substAll_eq]
  congr 2
  funext t
  exact (value_eq_subst θ t).symm

theorem value_app (θ : Assignment) (h a : Ty) :
    θ.value (.app h a) = (θ.value h).apply (θ.value a) := by
  simp only [value_eq_subst, Ty.subst]

theorem value_subst (θ : Assignment) (f : TyVar → Ty) (t : Ty) :
    θ.value (t.subst f) = t.subst fun v => θ.value (f v) := by
  rw [value_eq_subst, Ty.subst_subst]
  congr 1
  funext v
  exact (value_eq_subst θ (f v)).symm

theorem value_eq_applyAll_spine (θ : Assignment) (t : Ty) :
    θ.value t = (θ.value t.spine.1).applyAll (t.spine.2.map θ.value) := by
  rw [value_eq_subst, Ty.subst_eq_applyAll_spine, ← value_eq_subst]
  congr 2
  funext a
  exact (value_eq_subst θ a).symm

/-- No assignment makes a variable equal to a larger type in which it occurs. -/
theorem simplify_ne_value_of_occurs (θ : Assignment) {x : String} {t : Ty} (hx : x ∈ t.names)
    (ht : t.isVar = false) : (θ x).simplify ≠ θ.value t := by
  obtain ⟨v, hv, rfl⟩ := Ty.mem_names.1 hx
  have hlt := Ty.size_lt_size_subst (fun v => (θ v.name).simplify) hv ht
  rw [← value_eq_subst] at hlt
  intro heq
  rw [heq] at hlt
  exact Nat.lt_irrefl _ hlt

end Assignment

end TypeEngine
