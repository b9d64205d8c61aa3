import Mathlib.Data.List.Induction
import Mathlib.Data.List.Nodup
import Mathlib.Logic.Relation
import TypeEngine.ModuleGraph

/-! # The build order

A graph of modules is made by calls, and what it holds depends on which calls were made and not on their order
(`ofCalls_congr`). The walk that looks for a build order puts a module at the end when all the modules it uses
have been put there, so that what it has put is `Arranged` at all times; if it stops early, it has come back to
a module on the way to itself (`ListsUsed.settles_visit`). -/

namespace TypeEngine

open Relation (TransGen)

/-! ### Relations between modules -/

namespace ModuleRelation

theorem mem_list {r : ModuleRelation} {a x : String} : x ∈ r.list a ↔ a = x ∨ x ∈ r := by
  rw [list, Std.ExtTreeMap.mem_insert, Std.compare_eq_iff_eq]

theorem getD_list (r : ModuleRelation) (a x : String) : (r.list a).getD x ∅ = r.getD x ∅ := by
  simp only [list, Std.ExtTreeMap.getD_insert, Std.compare_eq_iff_eq]
  split
  · rename_i h
    rw [h]
  · rfl

theorem mem_relate {r : ModuleRelation} {a b x : String} : x ∈ r.relate a b ↔ a = x ∨ x ∈ r := by
  rw [relate, Std.ExtTreeMap.mem_insert, Std.compare_eq_iff_eq]

theorem mem_getD_relate {r : ModuleRelation} {a b x y : String} :
    y ∈ (r.relate a b).getD x ∅ ↔ (a = x ∧ b = y) ∨ y ∈ r.getD x ∅ := by
  simp only [relate, Std.ExtTreeMap.getD_insert, Std.compare_eq_iff_eq]
  split
  · rename_i h
    rw [Std.ExtTreeSet.mem_insert, Std.compare_eq_iff_eq, h, and_iff_right rfl]
  · rename_i h
    rw [or_iff_right fun hxy => h hxy.1]

theorem mem_of_mem_getD {r : ModuleRelation} {x y : String} (h : y ∈ r.getD x ∅) : x ∈ r := by
  by_contra hx
  rw [Std.ExtTreeMap.getD_eq_fallback hx] at h
  exact Std.ExtTreeSet.not_mem_empty h

theorem eq_of_mem_iff {r r' : ModuleRelation} (hmem : ∀ x, x ∈ r ↔ x ∈ r')
    (hgetD : ∀ x y, y ∈ r.getD x ∅ ↔ y ∈ r'.getD x ∅) : r = r' := by
  refine Std.ExtTreeMap.ext_getElem? fun x => ?_
  have hsets : r.getD x ∅ = r'.getD x ∅ := Std.ExtTreeSet.ext_mem (hgetD x)
  have hsome := hmem x
  rw [Std.ExtTreeMap.mem_iff_isSome_getElem?, Std.ExtTreeMap.mem_iff_isSome_getElem?] at hsome
  rw [Std.ExtTreeMap.getD_eq_getD_getElem?, Std.ExtTreeMap.getD_eq_getD_getElem?] at hsets
  cases hx : r[x]? <;> cases hx' : r'[x]? <;> simp_all

end ModuleRelation

namespace ModuleGraph

/-! ### Graphs made by calls -/

/-- The module `a` uses the module `b`. -/
def Uses (g : ModuleGraph) (a b : String) : Prop := b ∈ g.uses.getD a ∅

/-- The module `b` is recorded as used by the module `a`. -/
def UsedBy (g : ModuleGraph) (b a : String) : Prop := a ∈ g.usedBy.getD b ∅

/-- A module that is used is listed too. -/
def ListsUsed (g : ModuleGraph) : Prop := ∀ a b, g.Uses a b → b ∈ g.uses

inductive Call where
  | addModule (a : String)
  | addEdge (a b : String)
deriving DecidableEq

def call (g : ModuleGraph) : Call → ModuleGraph
  | .addModule a => g.addModule a
  | .addEdge a b => g.addEdge a b

def ofCalls (calls : List Call) : ModuleGraph := calls.foldl call empty

theorem ofCalls_concat (calls : List Call) (c : Call) : ofCalls (calls ++ [c]) = (ofCalls calls).call c :=
  List.foldl_append

theorem uses_call {g : ModuleGraph} {c : Call} {x y : String} :
    (g.call c).Uses x y ↔ g.Uses x y ∨ x ≠ y ∧ c = .addEdge x y := by
  cases c with
  | addModule a => simp [Uses, call, addModule, ModuleRelation.getD_list]
  | addEdge a b =>
    rw [call, addEdge]
    split
    · grind
    · grind [Uses, ModuleRelation.mem_getD_relate, ModuleRelation.getD_list]

theorem usedBy_call {g : ModuleGraph} {c : Call} {x y : String} :
    (g.call c).UsedBy y x ↔ g.UsedBy y x ∨ x ≠ y ∧ c = .addEdge x y := by
  cases c with
  | addModule a => simp [UsedBy, call, addModule]
  | addEdge a b =>
    rw [call, addEdge]
    split
    · grind
    · grind [UsedBy, ModuleRelation.mem_getD_relate]

theorem mem_uses_call {g : ModuleGraph} {c : Call} {x : String} :
    x ∈ (g.call c).uses ↔ x ∈ g.uses ∨ c = .addModule x ∨
      ∃ y, (x ≠ y ∧ c = .addEdge x y) ∨ (y ≠ x ∧ c = .addEdge y x) := by
  cases c with
  | addModule a => grind [call, addModule, ModuleRelation.mem_list]
  | addEdge a b =>
    rw [call, addEdge]
    split
    · grind
    · rename_i hab
      rw [ModuleRelation.mem_relate, ModuleRelation.mem_list]
      constructor
      · rintro (rfl | rfl | hx)
        · exact .inr (.inr ⟨b, .inl ⟨hab, rfl⟩⟩)
        · exact .inr (.inr ⟨a, .inr ⟨hab, rfl⟩⟩)
        · exact .inl hx
      · grind

theorem mem_usedBy_call {g : ModuleGraph} {c : Call} {x : String} :
    x ∈ (g.call c).usedBy ↔ x ∈ g.usedBy ∨ ∃ y, y ≠ x ∧ c = .addEdge y x := by
  cases c with
  | addModule a => simp [call, addModule]
  | addEdge a b =>
    rw [call, addEdge]
    split
    · grind
    · rename_i hab
      rw [ModuleRelation.mem_relate]
      constructor
      · rintro (rfl | hx)
        · exact .inr ⟨a, hab, rfl⟩
        · exact .inl hx
      · grind

section OfCalls

variable {calls calls' : List Call} {a b : String}

theorem uses_ofCalls : (ofCalls calls).Uses a b ↔ a ≠ b ∧ .addEdge a b ∈ calls := by
  induction calls using List.reverseRecOn with
  | nil => simp [Uses, ofCalls, empty]
  | append_singleton calls c ih => grind [ofCalls_concat, uses_call]

theorem usedBy_ofCalls : (ofCalls calls).UsedBy b a ↔ a ≠ b ∧ .addEdge a b ∈ calls := by
  induction calls using List.reverseRecOn with
  | nil => simp [UsedBy, ofCalls, empty]
  | append_singleton calls c ih => grind [ofCalls_concat, usedBy_call]

theorem mem_uses_ofCalls : a ∈ (ofCalls calls).uses ↔
    .addModule a ∈ calls ∨ ∃ b, (ofCalls calls).Uses a b ∨ (ofCalls calls).Uses b a := by
  induction calls using List.reverseRecOn with
  | nil => simp [Uses, ofCalls, empty]
  | append_singleton calls c ih =>
    rw [ofCalls_concat, mem_uses_call, ih]
    simp only [uses_call, List.mem_append, List.mem_singleton, eq_comm (b := c), exists_or,
      or_assoc, or_left_comm]

theorem mem_usedBy_ofCalls : b ∈ (ofCalls calls).usedBy ↔ ∃ a, (ofCalls calls).UsedBy b a := by
  induction calls using List.reverseRecOn with
  | nil => simp [UsedBy, ofCalls, empty]
  | append_singleton calls c ih =>
    rw [ofCalls_concat, mem_usedBy_call, ih]
    simp only [usedBy_call, exists_or]

theorem listsUsed_ofCalls (calls : List Call) : (ofCalls calls).ListsUsed :=
  fun a _ hab => mem_uses_ofCalls.2 (.inr ⟨a, .inr hab⟩)

/-- A graph depends on which calls were made, not on their order or number. -/
theorem ofCalls_congr (h : ∀ c, c ∈ calls ↔ c ∈ calls') : ofCalls calls = ofCalls calls' := by
  have huses : ∀ a b, (ofCalls calls).Uses a b ↔ (ofCalls calls').Uses a b := by
    intro a b
    rw [uses_ofCalls, uses_ofCalls, h]
  have husedBy : ∀ b a, (ofCalls calls).UsedBy b a ↔ (ofCalls calls').UsedBy b a := by
    intro b a
    rw [usedBy_ofCalls, usedBy_ofCalls, h]
  have hsame : (ofCalls calls).uses = (ofCalls calls').uses := by
    refine ModuleRelation.eq_of_mem_iff (fun a => ?_) huses
    rw [mem_uses_ofCalls, mem_uses_ofCalls, h]
    simp only [huses]
  have hsame' : (ofCalls calls).usedBy = (ofCalls calls').usedBy := by
    refine ModuleRelation.eq_of_mem_iff (fun b => ?_) husedBy
    rw [mem_usedBy_ofCalls, mem_usedBy_ofCalls]
    simp only [husedBy]
  cases hg : ofCalls calls
  cases hg' : ofCalls calls'
  rw [hg, hg'] at hsame hsame'
  exact congr (congrArg ModuleGraph.mk hsame) hsame'

end OfCalls

/-! ### Arranged modules -/

/-- No module stands here twice, and each stands after all the modules it uses. -/
inductive Arranged (g : ModuleGraph) : List String → Prop
  | nil : Arranged g []
  | concat {done : List String} {a : String} (hdone : Arranged g done) (hnew : a ∉ done)
      (huses : ∀ b, g.Uses a b → b ∈ done) : Arranged g (done ++ [a])

namespace Arranged

variable {g : ModuleGraph} {order : List String} {a b : String}

theorem nodup (h : g.Arranged order) : order.Nodup := by
  induction h with
  | nil => exact List.nodup_nil
  | concat _ hnew _ ih => exact ih.append (List.nodup_singleton _) (List.disjoint_singleton.2 hnew)

theorem mem_of_uses (h : g.Arranged order) (ha : a ∈ order) (hab : g.Uses a b) : b ∈ order := by
  induction h with
  | nil => cases ha
  | concat _ _ huses ih =>
    rcases List.mem_append.1 ha with ha | ha
    · exact List.mem_append_left _ (ih ha)
    · exact List.mem_append_left _ (huses b (List.mem_singleton.1 ha ▸ hab))

theorem idxOf_lt (h : g.Arranged order) (ha : a ∈ order) (hab : g.Uses a b) :
    order.idxOf b < order.idxOf a := by
  induction h with
  | nil => cases ha
  | concat hdone hnew huses ih =>
    rcases List.mem_append.1 ha with ha | ha
    · rw [List.idxOf_append_of_mem (hdone.mem_of_uses ha hab), List.idxOf_append_of_mem ha]
      exact ih ha
    · cases List.mem_singleton.1 ha
      rw [List.idxOf_append_of_mem (huses b hab), List.idxOf_append_of_notMem hnew]
      exact Nat.lt_add_right _ (List.idxOf_lt_length_of_mem (huses b hab))

/-- What an arranged module uses, by way of others too, stands before it. -/
theorem idxOf_lt_of_transGen (h : g.Arranged order) (ha : a ∈ order) (hab : TransGen g.Uses a b) :
    b ∈ order ∧ order.idxOf b < order.idxOf a := by
  induction hab with
  | single hab => exact ⟨h.mem_of_uses ha hab, h.idxOf_lt ha hab⟩
  | tail _ hbc ih => exact ⟨h.mem_of_uses ih.1 hbc, Nat.lt_trans (h.idxOf_lt ih.1 hbc) ih.2⟩

theorem not_transGen_self (h : g.Arranged order) (ha : a ∈ order) : ¬ TransGen g.Uses a a :=
  fun hcycle => Nat.lt_irrefl _ (h.idxOf_lt_of_transGen ha hcycle).2

end Arranged

/-! ### The walk -/

/-- More has been put at the end of `done`, nothing of it from the trail. -/
structure Extends (g : ModuleGraph) (trail done done' : List String) : Prop where
  arranged : g.Arranged done'
  subset : done ⊆ done'
  new : ∀ x ∈ done', x ∉ done → x ∈ g.uses ∧ x ∉ trail

theorem Extends.refl {g : ModuleGraph} {done : List String} (h : g.Arranged done) (trail : List String) :
    g.Extends trail done done :=
  ⟨h, List.Subset.refl done, fun _ hx hnew => absurd hx hnew⟩

theorem Extends.trans {g : ModuleGraph} {trail done done₁ done' : List String}
    (h : g.Extends trail done done₁) (h' : g.Extends trail done₁ done') : g.Extends trail done done' where
  arranged := h'.arranged
  subset := List.Subset.trans h.subset h'.subset
  new x hx hnew := by
    by_cases hx₁ : x ∈ done₁
    · exact h.new x hx₁ hnew
    · exact h'.new x hx hx₁

/-- What a walk to `targets` may answer: that these are among what has been put by now, or a module on a
cycle. -/
def Settles (g : ModuleGraph) (trail done targets : List String) : Except String (List String) → Prop
  | .ok done' => g.Extends trail done done' ∧ targets ⊆ done'
  | .error a => TransGen g.Uses a a

theorem settles_foldlM {g : ModuleGraph} {trail targets : List String}
    {walk : List String → String → Except String (List String)}
    (hwalk : ∀ done, g.Arranged done → ∀ a ∈ targets, g.Settles trail done [a] (walk done a))
    {done : List String} (hdone : g.Arranged done) :
    g.Settles trail done targets (targets.foldlM walk done) := by
  induction targets generalizing done with
  | nil => exact ⟨.refl hdone trail, List.nil_subset _⟩
  | cons a targets ih =>
    have hfirst := hwalk done hdone a List.mem_cons_self
    rw [List.foldlM_cons]
    cases hresult : walk done a with
    | error b =>
      rw [hresult] at hfirst
      exact hfirst
    | ok done₁ =>
      rw [hresult] at hfirst
      obtain ⟨hextends, ha⟩ := hfirst
      have hrest := ih (fun done hdone b hb => hwalk done hdone b (List.mem_cons_of_mem a hb)) hextends.arranged
      change g.Settles trail done (a :: targets) (targets.foldlM walk done₁)
      cases hresult' : targets.foldlM walk done₁ with
      | error b =>
        rw [hresult'] at hrest
        exact hrest
      | ok done' =>
        rw [hresult'] at hrest
        obtain ⟨hextends', htargets⟩ := hrest
        exact ⟨hextends.trans hextends',
          List.cons_subset.2 ⟨hextends'.subset (ha List.mem_cons_self), htargets⟩⟩

/-- A module that is put after the modules it uses. -/
theorem Extends.concat {g : ModuleGraph} {a : String} {trail done done' : List String}
    (h : g.Extends (a :: trail) done done') (ha : a ∈ g.uses) (htrail : a ∉ trail) (hnew : a ∉ done)
    (huses : ∀ b, g.Uses a b → b ∈ done') : g.Settles trail done [a] (.ok (done' ++ [a])) := by
  have hnew' : a ∉ done' := fun hmem => (h.new a hmem hnew).2 List.mem_cons_self
  refine ⟨⟨h.arranged.concat hnew' huses, List.subset_append_of_subset_left _ h.subset, fun x hx hx' => ?_⟩,
    List.subset_append_right _ _⟩
  rcases List.mem_append.1 hx with hx | hx
  · obtain ⟨hlisted, hoff⟩ := h.new x hx hx'
    exact ⟨hlisted, fun hmem => hoff (List.mem_cons_of_mem a hmem)⟩
  · cases List.mem_singleton.1 hx
    exact ⟨ha, htrail⟩

theorem settles_of_new {g : ModuleGraph} {a : String} {trail done : List String}
    {result : Except String (List String)} (htrail : ∀ x ∈ trail, TransGen g.Uses x a) (hdone : g.Arranged done)
    (hnew : a ∉ trail → a ∉ done → g.Settles trail done [a] result) :
    g.Settles trail done [a]
      (if trail.contains a then .error a else if done.contains a then .ok done else result) := by
  split
  · rename_i h
    exact htrail a (List.contains_iff_mem.1 h)
  · rename_i htrail'
    split
    · rename_i h
      exact ⟨.refl hdone trail, List.cons_subset.2 ⟨List.contains_iff_mem.1 h, List.nil_subset _⟩⟩
    · rename_i hdone'
      exact hnew (List.contains_iff_mem.not.1 htrail') (List.contains_iff_mem.not.1 hdone')

/-- By induction on the number of modules that may still be entered, which bounds the modules off the trail. -/
theorem ListsUsed.settles_visit {g : ModuleGraph} (hg : g.ListsUsed) {n : Nat} {r : ModuleRelation}
    {trail done : List String} {a : String} (hn : r.size ≤ n)
    (hr : ∀ x ∉ trail, r.getD x ∅ = g.uses.getD x ∅) (htrail : ∀ x ∈ trail, TransGen g.Uses x a)
    (ha : a ∈ g.uses) (hdone : g.Arranged done) : g.Settles trail done [a] (visit n r trail done a) := by
  induction n generalizing r trail done a with
  | zero =>
    rw [visit]
    refine settles_of_new htrail hdone fun hoff hnew => ?_
    refine (Extends.refl hdone (a :: trail)).concat ha hoff hnew fun b hb => ?_
    have hempty : r = ∅ := Std.ExtTreeMap.eq_empty_iff_size_eq_zero.2 (Nat.le_zero.1 hn)
    rw [Uses, ← hr a hoff, hempty, Std.ExtTreeMap.getD_empty] at hb
    exact absurd hb Std.ExtTreeSet.not_mem_empty
  | succ n ih =>
    rw [visit]
    refine settles_of_new htrail hdone fun hoff hnew => ?_
    have htargets : ∀ b, b ∈ (r.getD a ∅).toList ↔ g.Uses a b := by
      intro b
      rw [Std.ExtTreeSet.mem_toList, hr a hoff, Uses]
    have hwalk : g.Settles (a :: trail) done (r.getD a ∅).toList
        ((r.getD a ∅).toList.foldlM (visit n (r.erase a) (a :: trail)) done) := by
      refine settles_foldlM (fun done hdone b hb => ?_) hdone
      have hab := (htargets b).1 hb
      have hmem : a ∈ r := ModuleRelation.mem_of_mem_getD (Std.ExtTreeSet.mem_toList.1 hb)
      refine ih ?_ (fun x hx => ?_) (fun x hx => ?_) (hg a b hab) hdone
      · rw [Std.ExtTreeMap.size_erase, if_pos (Std.ExtTreeMap.contains_iff_mem.2 hmem)]
        omega
      · obtain ⟨hne, hx⟩ := not_or.1 (List.mem_cons.not.1 hx)
        rw [Std.ExtTreeMap.getD_erase, if_neg (Std.compare_eq_iff_eq.not.2 (Ne.symm hne)), hr x hx]
      · rcases List.mem_cons.1 hx with rfl | hx
        · exact .single hab
        · exact (htrail x hx).tail hab
    cases hresult : (r.getD a ∅).toList.foldlM (visit n (r.erase a) (a :: trail)) done with
    | error b =>
      rw [hresult] at hwalk
      exact hwalk
    | ok done' =>
      rw [hresult] at hwalk
      exact hwalk.1.concat ha hoff hnew fun b hb => hwalk.2 ((htargets b).2 hb)

/-! ### The order -/

namespace ListsUsed

variable {g : ModuleGraph}

theorem settles_buildOrder (hg : g.ListsUsed) : g.Settles [] [] g.uses.keys g.buildOrder := by
  refine settles_foldlM (fun done hdone a ha => ?_) .nil
  exact hg.settles_visit (Nat.le_refl _) (fun _ _ => rfl) (fun _ hx => absurd hx List.not_mem_nil)
    (Std.ExtTreeMap.mem_keys.1 ha) hdone

theorem arranged_of_buildOrder (hg : g.ListsUsed) {order : List String} (h : g.buildOrder = .ok order) :
    g.Arranged order := by
  have hsettles := hg.settles_buildOrder
  rw [h] at hsettles
  exact hsettles.1.arranged

theorem mem_of_buildOrder (hg : g.ListsUsed) {order : List String} (h : g.buildOrder = .ok order) {a : String} :
    a ∈ order ↔ a ∈ g.uses := by
  have hsettles := hg.settles_buildOrder
  rw [h] at hsettles
  exact ⟨fun ha => (hsettles.1.new a ha List.not_mem_nil).1,
    fun ha => hsettles.2 (Std.ExtTreeMap.mem_keys.2 ha)⟩

theorem transGen_of_buildOrder (hg : g.ListsUsed) {a : String} (h : g.buildOrder = .error a) :
    TransGen g.Uses a a := by
  have hsettles := hg.settles_buildOrder
  rw [h] at hsettles
  exact hsettles

/-- There is no order exactly if modules use each other in a circle. -/
theorem exists_buildOrder_error_iff (hg : g.ListsUsed) :
    (∃ a, g.buildOrder = .error a) ↔ ∃ a, TransGen g.Uses a a := by
  refine ⟨fun ⟨a, ha⟩ => ⟨a, hg.transGen_of_buildOrder ha⟩, fun ⟨a, ha⟩ => ?_⟩
  cases horder : g.buildOrder with
  | error b => exact ⟨b, rfl⟩
  | ok order =>
    obtain ⟨b, hab, -⟩ := Relation.TransGen.head'_iff.1 ha
    have hmem := (hg.mem_of_buildOrder horder).2 (ModuleRelation.mem_of_mem_getD hab)
    exact absurd ha ((hg.arranged_of_buildOrder horder).not_transGen_self hmem)

end ListsUsed

/-- The graph of a sequence of calls has an edge for every recorded one that is not from a module to itself, in
both directions, and lists the modules that were added or stand on an edge. There is an order exactly if no
module uses itself by way of others; the order lists every module once, after those it uses. A module that is
named instead of an order lies on a cycle. -/
theorem buildOrder_sorts_iff_acyclic (calls : List Call) :
    let g := ofCalls calls
    (∀ a b, g.Uses a b ↔ a ≠ b ∧ .addEdge a b ∈ calls) ∧
    (∀ a b, g.UsedBy b a ↔ g.Uses a b) ∧ (∀ a, ¬ g.Uses a a) ∧
    (∀ a, a ∈ g.uses ↔ .addModule a ∈ calls ∨ ∃ b, g.Uses a b ∨ g.Uses b a) ∧
    (∀ b, b ∈ g.usedBy ↔ ∃ a, g.UsedBy b a) ∧
    ((∃ order, g.buildOrder = .ok order) ↔ ∀ a, ¬ TransGen g.Uses a a) ∧
    (∀ order, g.buildOrder = .ok order →
      order.Perm g.uses.keys ∧ ∀ a b, g.Uses a b → order.idxOf b < order.idxOf a) ∧
    ∀ a, g.buildOrder = .error a → TransGen g.Uses a a := by
  intro g
  have hg : g.ListsUsed := listsUsed_ofCalls calls
  have huses : ∀ a b, g.Uses a b ↔ a ≠ b ∧ .addEdge a b ∈ calls := fun a b => uses_ofCalls
  have husedBy : ∀ a b, g.UsedBy b a ↔ g.Uses a b := fun a b => usedBy_ofCalls.trans uses_ofCalls.symm
  have hnone : (∃ order, g.buildOrder = .ok order) ↔ ¬ ∃ a, g.buildOrder = .error a := by
    cases g.buildOrder <;> simp
  refine ⟨huses, husedBy, fun a h => ((huses a a).1 h).1 rfl, fun a => mem_uses_ofCalls,
    fun b => mem_usedBy_ofCalls, ?_, fun order horder => ⟨?_, fun a b hab => ?_⟩,
    fun a => hg.transGen_of_buildOrder⟩
  · rw [hnone, hg.exists_buildOrder_error_iff, not_exists]
  · have hnodup := (hg.arranged_of_buildOrder horder).nodup
    rw [List.perm_ext_iff_of_nodup hnodup Std.ExtTreeMap.nodup_keys]
    intro a
    rw [hg.mem_of_buildOrder horder, Std.ExtTreeMap.mem_keys]
  · have ha := (hg.mem_of_buildOrder horder).2 (ModuleRelation.mem_of_mem_getD hab)
    exact (hg.arranged_of_buildOrder horder).idxOf_lt ha hab

/-- Two ways from `a` to `d`, an edge from `d` to itself, and a module on no edge. With an edge from `d` back to
`b` there is no order, and `b` is named, which the walk comes back to from `a`. -/
theorem buildOrder_sorts_iff_acyclic_diamond :
    let diamond : List Call := [.addEdge "a" "b", .addEdge "a" "c", .addEdge "b" "d", .addEdge "c" "d",
      .addEdge "d" "d", .addModule "e"]
    let circular := diamond ++ [.addEdge "d" "b"]
    let order := ["d", "b", "c", "a", "e"]
    (ofCalls diamond).buildOrder = .ok order ∧ order.Perm (ofCalls diamond).uses.keys ∧
      (∀ a b, (ofCalls diamond).Uses a b → order.idxOf b < order.idxOf a) ∧
      (∀ a, ¬ TransGen (ofCalls diamond).Uses a a) ∧ (ofCalls circular).buildOrder = .error "b" ∧
      TransGen (ofCalls circular).Uses "b" "b" := by
  intro diamond circular order
  have horder : (ofCalls diamond).buildOrder = .ok order := by decide +kernel
  have hcircular : (ofCalls circular).buildOrder = .error "b" := by decide +kernel
  obtain ⟨-, -, -, -, -, hiff, hsorted, -⟩ := buildOrder_sorts_iff_acyclic diamond
  obtain ⟨-, -, -, -, -, -, -, hcycle⟩ := buildOrder_sorts_iff_acyclic circular
  exact ⟨horder, (hsorted order horder).1, (hsorted order horder).2, hiff.1 ⟨order, horder⟩, hcircular,
    hcycle "b" hcircular⟩

end ModuleGraph

end TypeEngine
