import Mathlib.Data.Finset.Card
import Mathlib.Logic.Relation
import TypeEngine.Proofs.Assignment

/-! # The graph of bindings

A bound variable has an edge to every variable that occurs in what it is bound to. Bindings are
acyclic when no variable reaches itself. Then every variable has a rank, the number of bound
variables it reaches, which falls along every edge; all proofs about what variables stand for go by
induction on it. -/

namespace TypeEngine

open Relation

namespace Bindings

/-- `x` is bound to a type in which `y` occurs. -/
def Edge (b : Bindings) (x y : String) : Prop := ∃ t, b[x]? = some t ∧ t.mentions y = true

/-- `y` is met from `x` by following bindings, any number of them. -/
def Reaches (b : Bindings) (x y : String) : Prop := ReflTransGen (Edge b) x y

/-- No variable is met again by following bindings from it. -/
def Acyclic (b : Bindings) : Prop := ∀ x, ¬ TransGen (Edge b) x x

theorem lookup_insert (b : Bindings) (x y : String) (t : Ty) :
    (b.insert x t)[y]? = if y = x then some t else b[y]? := by
  rw [Std.ExtTreeMap.getElem?_insert]
  simp [@eq_comm _ x y]

theorem lookup_erase (b : Bindings) (x y : String) :
    (b.erase x)[y]? = if y = x then none else b[y]? := by
  rw [Std.ExtTreeMap.getElem?_erase]
  simp [@eq_comm _ x y]

theorem size_erase_lt {b : Bindings} {x : String} {t : Ty} (h : b[x]? = some t) :
    (b.erase x).size < b.size := by
  have hm : x ∈ b := Std.ExtTreeMap.mem_iff_isSome_getElem?.2 (by simp [h])
  have hpos : b.size ≠ 0 := by
    intro h0
    rw [Std.ExtTreeMap.eq_empty_iff_size_eq_zero.2 h0] at hm
    exact Std.ExtTreeMap.not_mem_empty hm
  have hsize : (b.erase x).size = b.size - 1 := by simp [Std.ExtTreeMap.size_erase, hm]
  omega

theorem edge_of_mem_vars {b : Bindings} {x : String} {t : Ty} (h : b[x]? = some t) {v : TyVar}
    (hv : v ∈ t.vars) : Edge b x v.name :=
  ⟨t, h, Ty.mentions_iff.2 (Ty.mem_names.2 ⟨v, hv, rfl⟩)⟩

theorem acyclic_empty : Acyclic (∅ : Bindings) := by
  intro x h
  obtain ⟨y, ⟨t, ht, -⟩, -⟩ := TransGen.head'_iff.1 h
  simp at ht

/-! ### Ranks -/

open Classical in
/-- The number of bound variables that `x` reaches. -/
noncomputable def rank (b : Bindings) (x : String) : Nat :=
  (b.keys.toFinset.filter (Reaches b x)).card

theorem rank_lt_of_edge {b : Bindings} (hb : Acyclic b) {x y : String} (h : Edge b x y) :
    rank b y < rank b x := by
  classical
  obtain ⟨t, ht, -⟩ := id h
  have hx : x ∈ b.keys := by
    rw [Std.ExtTreeMap.mem_keys, Std.ExtTreeMap.mem_iff_isSome_getElem?, ht]
    rfl
  apply Finset.card_lt_card
  rw [Finset.ssubset_iff_of_subset]
  · refine ⟨x, ?_, ?_⟩
    · simp only [Finset.mem_filter, List.mem_toFinset]
      exact ⟨hx, .refl⟩
    · intro hmem
      exact hb x (TransGen.head' h (Finset.mem_filter.1 hmem).2)
  · intro k hk
    rw [Finset.mem_filter] at hk ⊢
    exact ⟨hk.1, .head h hk.2⟩

/-- Induction along bindings: a property holds of every variable if it holds of a variable as soon as
it holds of all that occur in its binding. -/
theorem Acyclic.induction {b : Bindings} (hb : Acyclic b) {motive : String → Prop}
    (step : ∀ x, (∀ y, Edge b x y → motive y) → motive x) (x : String) : motive x := by
  induction hn : rank b x using Nat.strongRecOn generalizing x with
  | ind n ih =>
    apply step
    intro y hy
    exact ih (rank b y) (hn ▸ rank_lt_of_edge hb hy) y rfl

/-! ### One more binding -/

theorem edge_insert {b : Bindings} {x u w : String} {t : Ty} (h : Edge (b.insert x t) u w) :
    (u = x ∧ w ∈ t.names) ∨ (u ≠ x ∧ Edge b u w) := by
  obtain ⟨r, hr, hw⟩ := h
  rw [lookup_insert] at hr
  by_cases hux : u = x
  · simp only [hux, if_true, Option.some.injEq] at hr
    exact .inl ⟨hux, Ty.mentions_iff.1 (hr ▸ hw)⟩
  · rw [if_neg hux] at hr
    exact .inr ⟨hux, r, hr, hw⟩

theorem edge_of_edge_erase {b : Bindings} {x u w : String} (h : Edge (b.erase x) u w) :
    Edge b u w := by
  obtain ⟨t, ht, hw⟩ := h
  rw [lookup_erase] at ht
  by_cases hux : u = x
  · simp [hux] at ht
  · exact ⟨t, by simpa [hux] using ht, hw⟩

theorem reaches_of_reaches_insert {b : Bindings} {x y z : String} {t : Ty} (hy : ¬ Reaches b y x)
    (h : Reaches (b.insert x t) y z) : Reaches b y z := by
  induction h with
  | refl => exact .refl
  | tail _ hedge ih =>
    rcases edge_insert hedge with ⟨rfl, -⟩ | ⟨-, hedge⟩
    · exact absurd ih hy
    · exact ih.tail hedge

theorem transGen_insert {b : Bindings} {x u w : String} {t : Ty}
    (h : TransGen (Edge (b.insert x t)) u w) :
    TransGen (Edge b) u w ∨
      Reaches (b.insert x t) u x ∧ ∃ y ∈ t.names, Reaches (b.insert x t) y w := by
  induction h with
  | single hedge =>
    rcases edge_insert hedge with ⟨rfl, hw⟩ | ⟨-, hedge⟩
    · exact .inr ⟨.refl, _, hw, .refl⟩
    · exact .inl (.single hedge)
  | tail hpath hedge ih =>
    rcases ih with ih | ⟨hux, y, hy, hyw⟩
    · rcases edge_insert hedge with ⟨rfl, hw⟩ | ⟨-, hedge⟩
      · exact .inr ⟨hpath.to_reflTransGen, _, hw, .refl⟩
      · exact .inl (ih.tail hedge)
    · exact .inr ⟨hux, y, hy, hyw.tail hedge⟩

theorem Acyclic.insert {b : Bindings} (hb : Acyclic b) {x : String} {t : Ty}
    (h : ∀ y ∈ t.names, ¬ Reaches b y x) : Acyclic (b.insert x t) := by
  intro u hu
  rcases transGen_insert hu with hu | ⟨hux, y, hy, hyu⟩
  · exact hb u hu
  · exact h y hy (reaches_of_reaches_insert (h y hy) (hyu.trans hux))

end Bindings

/-- No variable of the store is met again by following bindings from it. -/
def Store.Acyclic (s : Store) : Prop := Bindings.Acyclic s.bindings

end TypeEngine
