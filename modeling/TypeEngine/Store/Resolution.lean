import TypeEngine.Store.Basic
import TypeEngine.Ty.Subst

/-! # Resolution

To resolve a type is to replace each bound variable by what it is bound to, over and over, and to
add the recorded classes to the variables that remain. A variable under expansion counts as unbound
until its expansion is done, so resolution ends for every store, also for one whose bindings run in
a circle: each expansion has one binding less to use. -/

namespace TypeEngine

namespace Store

/-- What a variable stands for under the bindings `b`, using at most `n` of them on a path. -/
def expand (s : Store) : Nat → Bindings → TyVar → Ty
  | 0, _, v => .var (s.annotate v)
  | n + 1, b, v =>
    match b[v.name]? with
    | none => .var (s.annotate v)
    | some t => t.subst (s.expand n (b.erase v.name))

/-- What a variable stands for under the bindings `b`. -/
def expandAll (s : Store) (b : Bindings) (v : TyVar) : Ty := s.expand b.size b v

/-- The type with everything known about its variables put in. -/
def resolve (s : Store) (t : Ty) : Ty := t.subst (s.expandAll s.bindings)

/-! ### Laws -/

/-- More steps than there are bindings change nothing. -/
theorem expand_eq_expandAll (s : Store) {n : Nat} {b : Bindings} (h : b.size ≤ n) (v : TyVar) :
    s.expand n b v = s.expandAll b v := by
  induction n generalizing b v with
  | zero => simp [expandAll, Nat.le_zero.1 h]
  | succ n ih =>
    rw [expandAll]
    cases hv : b[v.name]? with
    | none => cases hb : b.size <;> simp [expand, hv]
    | some t =>
      have hm : v.name ∈ b := Std.ExtTreeMap.mem_iff_isSome_getElem?.2 (by simp [hv])
      have hsize : (b.erase v.name).size = b.size - 1 := by
        simp [Std.ExtTreeMap.size_erase, hm]
      have hpos : b.size ≠ 0 := fun h0 => by
        rw [Std.ExtTreeMap.eq_empty_iff_size_eq_zero.2 h0] at hm
        exact Std.ExtTreeMap.not_mem_empty hm
      obtain ⟨m, hb⟩ := Nat.exists_eq_succ_of_ne_zero hpos
      have hfun : s.expand n (b.erase v.name) = s.expandAll (b.erase v.name) :=
        funext fun w => ih (by omega) w
      have hfun' : s.expand m (b.erase v.name) = s.expandAll (b.erase v.name) := by
        rw [show m = (b.erase v.name).size by omega]
        rfl
      simp [expand, hv, hb, hfun, hfun']

/-- A variable that is not bound stands for itself, with its recorded classes. -/
theorem expandAll_of_unbound (s : Store) {b : Bindings} {v : TyVar} (h : b[v.name]? = none) :
    s.expandAll b v = .var (s.annotate v) := by
  rw [← expand_eq_expandAll s (Nat.le_succ b.size), expand, h]

/-- A bound variable stands for its binding, expanded without it. -/
theorem expandAll_of_bound (s : Store) {b : Bindings} {v : TyVar} {t : Ty}
    (h : b[v.name]? = some t) :
    s.expandAll b v = t.subst (s.expandAll (b.erase v.name)) := by
  have hfun : s.expand b.size (b.erase v.name) = s.expandAll (b.erase v.name) :=
    funext fun w => expand_eq_expandAll s Std.ExtTreeMap.size_erase_le w
  rw [← expand_eq_expandAll s (Nat.le_succ b.size), expand, h, ← hfun]

end Store

end TypeEngine
