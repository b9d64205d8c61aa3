import TypeEngine.Proofs.StoreRuns

/-! # Cycles that a binding closes

To bind `v` to `t` closes a cycle exactly if a variable of `t` reaches `v`
(`Bindings.Acyclic.acyclic_insert_iff`). The check before a binding looks for `v` in `t` as written and
in `t` resolved. A resolved type holds unbound variables only, so as long as `v` is unbound the check sees
every cycle; once `v` is bound, it sees those alone in which `v` is written in `t`. -/

namespace TypeEngine

open Relation

namespace Bindings

theorem reaches_insert_of_reaches {b : Bindings} {x y : String} (h : Reaches b y x) (t : Ty) :
    Reaches (b.insert x t) y x := by
  induction h using ReflTransGen.head_induction_on with
  | refl => exact .refl
  | @head u w hedge _ ih =>
    by_cases hux : u = x
    · rw [hux]
      exact .refl
    · obtain ⟨r, hr, hw⟩ := hedge
      exact .head ⟨r, by rw [lookup_insert, if_neg hux, hr], hw⟩ ih

theorem Acyclic.acyclic_insert_iff {b : Bindings} (hb : Acyclic b) {x : String} {t : Ty} :
    Acyclic (b.insert x t) ↔ ∀ y ∈ t.names, ¬ Reaches b y x := by
  refine ⟨fun hinsert y hy hyx => ?_, hb.insert⟩
  have hedge : Edge (b.insert x t) x y :=
    ⟨t, by rw [lookup_insert, if_pos rfl], Ty.mentions_iff.2 hy⟩
  exact hinsert x (.head' hedge (reaches_insert_of_reaches hyx t))

end Bindings

namespace Store

variable {s : Store} {v : TyVar} {t : Ty}

/-- Recording `v := t` closes a cycle. -/
def ClosesCycle (s : Store) (v : TyVar) (t : Ty) : Prop :=
  ¬ Bindings.Acyclic (s.bindings.insert v.name t)

/-- The variable is not bound yet, or it is written in the type. -/
def InSight (s : Store) (v : TyVar) (t : Ty) : Prop := s.isBound v.name = false ∨ v.name ∈ t.names

theorem isBound_eq_false_iff {x : String} : s.isBound x = false ↔ s.bindings[x]? = none := by
  rw [isBound, Std.ExtTreeMap.contains_eq_isSome_getElem?, Option.isSome_eq_false_iff,
    Option.isNone_iff_eq_none]

theorem Acyclic.closesCycle_iff (hs : s.Acyclic) :
    s.ClosesCycle v t ↔ ∃ y ∈ t.names, Bindings.Reaches s.bindings y v.name := by
  rw [ClosesCycle, Bindings.Acyclic.acyclic_insert_iff hs]
  push Not
  rfl

theorem Acyclic.wouldLoop_iff_closesCycle (hs : s.Acyclic) :
    s.wouldLoop v t = true ↔ s.ClosesCycle v t ∧ s.InSight v t := by
  rw [wouldLoop, Bool.or_eq_true, Ty.mentions_iff, Ty.mentions_iff, hs.mem_names_resolve,
    hs.closesCycle_iff, InSight, isBound_eq_false_iff]
  -- the resolved type shows `v` only while `v` is unbound, the type as written shows it in any case
  constructor
  · rintro (hwritten | ⟨hunbound, hreached⟩)
    · exact ⟨⟨v.name, hwritten, .refl⟩, .inr hwritten⟩
    · exact ⟨hreached, .inl hunbound⟩
  · rintro ⟨hreached, hunbound | hwritten⟩
    · exact .inr ⟨hunbound, hreached⟩
    · exact .inl hwritten

/-- The store with `v := t` recorded, and with the classes demanded of `v`. -/
def recording (s : Store) (v : TyVar) (t : Ty) : Store :=
  { s with bindings := s.bindings.insert v.name t, demands := s.demandsAfterBinding v t }

theorem acyclic_recording : (s.recording v t).Acyclic ↔ ¬ s.ClosesCycle v t := not_not.symm

theorem Acyclic.call_bind_refused (hs : s.Acyclic) (hne : ∀ w, t = .var w → w.name ≠ v.name)
    (h : s.ClosesCycle v t ∧ s.InSight v t) :
    s.call (.bind v t) = (.failure (.circular v t), s) := by
  rw [call, bind_eq_ite s hne, if_pos (hs.wouldLoop_iff_closesCycle.2 h)]

theorem Acyclic.call_bind_recorded (hs : s.Acyclic) (hne : ∀ w, t = .var w → w.name ≠ v.name)
    (h : ¬ (s.ClosesCycle v t ∧ s.InSight v t)) :
    s.call (.bind v t) = (.done, s.recording v t) := by
  rw [call, bind_eq_ite s hne, if_neg (mt hs.wouldLoop_iff_closesCycle.1 h)]
  rfl

/-- Binding a variable to another type is refused exactly if it closes a cycle that is in sight, and
then the store is as it was. Otherwise the binding is recorded, and the store is acyclic afterwards unless
the binding closes a cycle out of sight. A cycle is closed exactly if a variable of the type reaches the
bound one. -/
theorem bind_refuses_cycles_in_sight (hs : s.Acyclic) (hne : ∀ w, t = .var w → w.name ≠ v.name) :
    (s.ClosesCycle v t ↔ ∃ y ∈ t.names, Bindings.Reaches s.bindings y v.name) ∧
      (s.call (.bind v t) = (.failure (.circular v t), s) ↔ s.ClosesCycle v t ∧ s.InSight v t) ∧
      (s.call (.bind v t) = (.done, s.recording v t) ↔ ¬ (s.ClosesCycle v t ∧ s.InSight v t)) ∧
      ((s.call (.bind v t)).2.Acyclic ↔ (s.ClosesCycle v t → s.InSight v t)) := by
  refine ⟨hs.closesCycle_iff, ?_⟩
  by_cases h : s.ClosesCycle v t ∧ s.InSight v t
  · rw [hs.call_bind_refused hne h]
    exact ⟨iff_of_true rfl h, iff_of_false nofun (not_not_intro h), iff_of_true hs fun _ => h.2⟩
  · rw [hs.call_bind_recorded hne h]
    refine ⟨iff_of_false nofun h, iff_of_true rfl h, acyclic_recording.trans ?_⟩
    exact ⟨fun hno hcycle => absurd hcycle hno, fun hsight hcycle => h ⟨hcycle, hsight hcycle⟩⟩

/-- With `w` bound to `Maybe v`, the unbound `v` is not bound to `Int -> w`, in which it is not written.
Once `v` is bound to `Int`, it is still not bound to `Maybe v`, and it may be bound to `Int -> Int`. -/
theorem bind_refuses_cycles_in_sight_chain :
    let int := Ty.sum (.unqualified "Int") []
    let maybe := fun u => Ty.sum (.unqualified "Maybe") [u]
    let v := TyVar.ofName "v"
    let w := Ty.var (.ofName "w")
    let s := (empty "t").callAll [.unify w (maybe (.var v))]
    let s' := (empty "t").callAll [.unify w (maybe (.var v)), .unify (.var v) int]
    s.call (.bind v (.fn int w)) = (.failure (.circular v (.fn int w)), s) ∧
      s'.isBound "v" = true ∧
      s'.call (.bind v (maybe (.var v))) = (.failure (.circular v (maybe (.var v))), s') ∧
      (s'.call (.bind v (.fn int int))).2.Acyclic := by
  intro int maybe v w s s'
  have hs : s.Acyclic := (acyclic_empty "t").acyclic_callAll ⟨nofun, trivial⟩
  have hs' : s'.Acyclic := (acyclic_empty "t").acyclic_callAll ⟨nofun, nofun, trivial⟩
  have hcycle : s.ClosesCycle v (.fn int w) :=
    hs.closesCycle_iff.2 ⟨"w", by decide, .single ⟨maybe (.var v), by decide +kernel, by decide⟩⟩
  have hcycle' : s'.ClosesCycle v (maybe (.var v)) := hs'.closesCycle_iff.2 ⟨"v", by decide, .refl⟩
  have hground : ¬ s'.ClosesCycle v (.fn int int) := by
    intro h
    obtain ⟨y, hy, -⟩ := hs'.closesCycle_iff.1 h
    cases hy
  refine ⟨((bind_refuses_cycles_in_sight hs ?hfn).2.1).2 ⟨hcycle, .inl ?_⟩, ?_,
    ((bind_refuses_cycles_in_sight hs' ?hsum).2.1).2 ⟨hcycle', .inr ?_⟩,
    ((bind_refuses_cycles_in_sight hs' ?hfn').2.2.2).2 fun h => absurd h hground⟩
  case hfn => exact fun _ h => by cases h
  case hfn' => exact fun _ h => by cases h
  case hsum => exact fun _ h => by cases h
  all_goals decide +kernel

/-- `w` stands for `v`, and `v` is `Int`. Binding `v` again, to `w`, is not refused, though the two
variables are then bound to each other. -/
theorem rebinding_closes_cycle :
    let int := Ty.sum (.unqualified "Int") []
    let v := TyVar.ofName "v"
    let w := Ty.var (.ofName "w")
    let s := (empty "t").callAll [.unify (.var v) w, .unify (.var v) int]
    s.Acyclic ∧ s.ClosesCycle v w ∧ (s.call (.bind v w)).1 = .done ∧
      ¬ (s.call (.bind v w)).2.Acyclic := by
  intro int v w s
  have hs : s.Acyclic := (acyclic_empty "t").acyclic_callAll ⟨nofun, nofun, trivial⟩
  have hcycle : s.ClosesCycle v w :=
    hs.closesCycle_iff.2 ⟨"w", by decide, .single ⟨.var v, by decide +kernel, by decide⟩⟩
  have hunseen : ¬ s.InSight v w := by
    rintro (h | h)
    · exact absurd h (by decide +kernel)
    · exact absurd h (by decide)
  have hne : ∀ x, w = .var x → x.name ≠ v.name := by
    intro x h
    rw [← Ty.var.inj h]
    decide
  have hcall := hs.call_bind_recorded hne fun h => hunseen h.2
  refine ⟨hs, hcycle, ?_, ?_⟩ <;> rw [hcall]
  exact fun h => acyclic_recording.1 h hcycle

end Store

end TypeEngine
