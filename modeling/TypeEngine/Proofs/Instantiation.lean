import TypeEngine.Proofs.CopyIsolation
import TypeEngine.Proofs.KnownClasses

/-! # Instantiation in one walk

A copy can be made in one walk over the resolved type, from left to right. The walk keeps a table of the
fresh variables it has given out: a generic name that is not in the table yet takes the next fresh
variable, one that is takes it from there, and a fixed name stays. The table grows at its end only, so
what a variable was replaced by never changes (`freshen_append`), and a walk over a part of a type goes on
where the walk over the parts before has stopped (`Copying.walk_after`). In the end the table lists the
generic variables in the order of their first occurrences. -/

namespace TypeEngine

/-- Where a walk stands: the fresh variables given out, by the names they replace, and the store. -/
structure Copying where
  given : List (String × Ty)
  store : Store

namespace Copying

/-- The walk comes to a variable. -/
def visit (fixed : List String) (c : Copying) (v : TyVar) : Ty × Copying :=
  if v.name ∈ fixed then (.var v, c)
  else
    match c.given.find? fun p => p.1 == v.name with
    | some p => (p.2, c)
    | none =>
      ((c.store.reserve v.context).1,
        { given := c.given ++ [(v.name, (c.store.reserve v.context).1)]
          store := (c.store.reserve v.context).2 })

mutual

/-- Copies a type from where the walk stands; an application is taken over as it is. -/
def walk (fixed : List String) : Ty → Copying → Ty × Copying
  | .var v, c => c.visit fixed v
  | .fn a r, c =>
    let (a', c₁) := walk fixed a c
    let (r', c₂) := walk fixed r c₁
    (.fn a' r', c₂)
  | .sum head ts, c =>
    let (ts', c') := walkAll fixed ts c
    (.sum head ts', c')
  | .app h a, c =>
    let (h', c₁) := walk fixed h c
    let (a', c₂) := walk fixed a c₁
    (.app h' a', c₂)

def walkAll (fixed : List String) : List Ty → Copying → List Ty × Copying
  | [], c => ([], c)
  | t :: ts, c =>
    let (t', c₁) := walk fixed t c
    let (ts', c₂) := walkAll fixed ts c₁
    (t' :: ts', c₂)

end

/-- The walk that began with the store `s` and has met the generic variables `met`, in this order. -/
def after (s : Store) (met : List TyVar) : Copying where
  given := (met.zipIdx s.counter).map fun p => (p.1.name, .var ⟨s.freshName p.2, p.1.context⟩)
  store := { s with counter := s.counter + met.length }

/-- The generic variables met once the walk has come to `v`. -/
def note (fixed : List String) (met : List TyVar) (v : TyVar) : List TyVar :=
  if v.name ∈ fixed ∨ v.name ∈ met.map (·.name) then met else met ++ [v]

end Copying

/-! ### The order of first occurrences -/

namespace TyVar

theorem filter_firstOfEachName (p : String → Bool) (vs : List TyVar) :
    (firstOfEachName vs).filter (fun v => p v.name) =
      firstOfEachName (vs.filter fun v => p v.name) := by
  induction vs with
  | nil => rfl
  | cons v vs ih =>
    rw [firstOfEachName, List.filter_cons, List.filter_cons, List.filter_filter]
    split
    · rw [firstOfEachName, ← ih, List.filter_filter]
      simp only [Bool.and_comm]
    · rename_i hv
      rw [← ih]
      refine List.filter_congr fun w _ => ?_
      by_cases hw : w.name = v.name
      · simp [hw, hv]
      · simp [hw]

theorem map_name_firstOfEachName (vs : List TyVar) :
    (firstOfEachName vs).map (·.name) = (vs.map (·.name)).eraseDups := by
  induction hn : vs.length using Nat.strongRecOn generalizing vs with
  | ind n ih =>
    cases vs with
    | nil => rfl
    | cons v vs =>
      have hshorter : (vs.filter fun w => !w.name == v.name).length < n := by
        have hle := List.length_filter_le (fun w => !w.name == v.name) vs
        rw [List.length_cons] at hn
        omega
      have hrest := ih _ hshorter (vs.filter fun w => !w.name == v.name) rfl
      rw [← filter_firstOfEachName fun x => !x == v.name] at hrest
      rw [List.map_cons, List.eraseDups_cons, List.filter_map, firstOfEachName, List.map_cons]
      exact congrArg _ (by simpa only [ne_eq, decide_not, beq_eq_decide, Function.comp_def] using hrest)

end TyVar

theorem Ty.freeNames_eq_eraseDups (t : Ty) : t.freeNames = t.names.eraseDups :=
  TyVar.map_name_firstOfEachName t.vars

namespace Copying

theorem foldl_note (fixed : List String) (vs met : List TyVar) :
    vs.foldl (note fixed) met = met ++ (TyVar.firstOfEachName vs).filter fun v =>
      v.name ∉ fixed ∧ v.name ∉ met.map (·.name) := by
  induction vs generalizing met with
  | nil => simp [TyVar.firstOfEachName]
  | cons v vs ih =>
    rw [List.foldl_cons, ih, TyVar.firstOfEachName, List.filter_cons, List.filter_filter]
    by_cases hv : v.name ∈ fixed ∨ v.name ∈ met.map (·.name)
    · rw [note, if_pos hv, if_neg (by simpa using fun h => hv.resolve_left h)]
      refine congrArg _ (List.filter_congr fun w _ => ?_)
      by_cases hw : w.name = v.name
      · have hmet : ¬ (w.name ∉ fixed ∧ w.name ∉ met.map (·.name)) := by
          rw [hw, ← not_or]
          exact not_not_intro hv
        simp only [hmet, decide_false, Bool.false_and]
      · simp only [hw, ne_eq, not_false_iff, decide_true, Bool.and_true]
    · rw [note, if_neg hv, if_pos (by simpa [not_or] using hv), List.append_assoc,
        List.singleton_append]
      refine congrArg _ (congrArg _ (List.filter_congr fun w _ => ?_))
      simp [Bool.and_assoc]

theorem prefix_foldl_note (fixed : List String) (vs met : List TyVar) :
    met <+: vs.foldl (note fixed) met := by
  rw [foldl_note]
  exact List.prefix_append _ _

end Copying

/-! ### The table of fresh variables -/

namespace Store

theorem map_fst_find?_zipIdx (met : List TyVar) (n : Nat) (x : String) :
    (((met.zipIdx n).find? fun p => p.1.name == x).map Prod.fst) = met.find? (·.name == x) := by
  conv_rhs => rw [← List.zipIdx_map_fst n met, List.find?_map]
  rfl

theorem find?_zipIdx_eq_none_iff {met : List TyVar} {n : Nat} {x : String} :
    ((met.zipIdx n).find? fun p => p.1.name == x) = none ↔ x ∉ met.map (·.name) := by
  rw [← Option.map_eq_none_iff, map_fst_find?_zipIdx, List.find?_eq_none]
  simp

theorem freshen_of_not_mem (s : Store) {met : List TyVar} {v : TyVar}
    (h : v.name ∉ met.map (·.name)) : s.freshen met v = v := by
  rw [freshen, find?_zipIdx_eq_none_iff.2 h]

/-- What is added to the table later does not change what a variable was replaced by. -/
theorem freshen_append (s : Store) {met : List TyVar} {v : TyVar} (h : v.name ∈ met.map (·.name))
    (later : List TyVar) : s.freshen (met ++ later) v = s.freshen met v := by
  obtain ⟨q, hq⟩ := Option.ne_none_iff_exists'.1 (mt find?_zipIdx_eq_none_iff.1 (not_not_intro h))
  rw [freshen, freshen, List.zipIdx_append, List.find?_append, hq, Option.some_or]

theorem freshen_concat (s : Store) {met : List TyVar} {v : TyVar} (h : v.name ∉ met.map (·.name)) :
    s.freshen (met ++ [v]) v = ⟨s.freshName (s.counter + met.length), v.context⟩ := by
  rw [freshen, List.zipIdx_append, List.find?_append, find?_zipIdx_eq_none_iff.2 h, Option.none_or,
    List.zipIdx_singleton]
  simp

end Store

namespace Copying

theorem find?_given_of_mem (s : Store) {met : List TyVar} {v : TyVar} (h : v.name ∈ met.map (·.name)) :
    (after s met).given.find? (fun p => p.1 == v.name) = some (v.name, .var (s.freshen met v)) := by
  obtain ⟨q, hq⟩ := Option.ne_none_iff_exists'.1
    (mt (Store.find?_zipIdx_eq_none_iff (n := s.counter)).1 (not_not_intro h))
  have hname : q.1.name = v.name := by simpa using List.find?_some hq
  have hgiven : (met.zipIdx s.counter).find? ((fun p : String × Ty => p.1 == v.name) ∘
      fun p => (p.1.name, Ty.var ⟨s.freshName p.2, p.1.context⟩)) = some q := hq
  rw [after, List.find?_map, hgiven, Store.freshen, hq, Option.map_some, hname]

theorem find?_given_of_not_mem (s : Store) {met : List TyVar} {x : String}
    (h : x ∉ met.map (·.name)) : (after s met).given.find? (fun p => p.1 == x) = none := by
  rw [after, List.find?_map, Option.map_eq_none_iff]
  exact Store.find?_zipIdx_eq_none_iff.2 h

theorem after_concat (s : Store) (met : List TyVar) (v : TyVar) :
    after s (met ++ [v]) =
      { given := (after s met).given ++ [(v.name, ((after s met).store.reserve v.context).1)]
        store := ((after s met).store.reserve v.context).2 } := by
  simp only [after, List.zipIdx_append, List.zipIdx_singleton, List.map_append, List.map_cons,
    List.map_nil, List.length_append, List.length_singleton, Store.reserve, ← Nat.add_assoc]
  rfl

theorem visit_after (s : Store) {fixed : List String} {met all : List TyVar} {v : TyVar}
    (hall : ∀ w ∈ all, w.name ∉ fixed) (h : note fixed met v <+: all) :
    (after s met).visit fixed v = (.var (s.freshen all v), after s (note fixed met v)) := by
  obtain ⟨later, rfl⟩ := h
  -- `all` is the table at the end of the whole walk: it has nothing for a fixed name, and for the others
  -- it says what the table says now, or says once `v` is noted
  by_cases hfixed : v.name ∈ fixed
  · have hstays : s.freshen (note fixed met v ++ later) v = v := by
      refine s.freshen_of_not_mem fun hmem => ?_
      obtain ⟨w, hw, hname⟩ := List.mem_map.1 hmem
      exact hall w hw (hname ▸ hfixed)
    rw [visit, if_pos hfixed, hstays, note, if_pos (.inl hfixed)]
  · rw [visit, if_neg hfixed]
    by_cases hmet : v.name ∈ met.map (·.name)
    · rw [note, if_pos (.inr hmet), s.freshen_append hmet, find?_given_of_mem s hmet]
    · rw [note, if_neg (not_or.2 ⟨hfixed, hmet⟩), s.freshen_append (by simp), s.freshen_concat hmet,
        find?_given_of_not_mem s hmet, after_concat]
      rfl

theorem walkAll_after (s : Store) {fixed : List String} {all : List TyVar} {ts : List Ty}
    (ih : ∀ t ∈ ts, ∀ met, t.vars.foldl (note fixed) met <+: all →
      walk fixed t (after s met) =
        (t.mapVars (s.freshen all), after s (t.vars.foldl (note fixed) met)))
    {met : List TyVar} (h : (ts.flatMap Ty.vars).foldl (note fixed) met <+: all) :
    walkAll fixed ts (after s met) =
      (ts.map (Ty.mapVars (s.freshen all)), after s ((ts.flatMap Ty.vars).foldl (note fixed) met)) := by
  induction ts generalizing met with
  | nil => rfl
  | cons t ts ihs =>
    obtain ⟨iht, ihts⟩ := List.forall_mem_cons.1 ih
    rw [List.flatMap_cons, List.foldl_append] at h ⊢
    rw [walkAll, iht met ((prefix_foldl_note ..).trans h)]
    simp only [ihs ihts h, List.map_cons]

/-- A walk over a collapsed type copies it, and has then met its variables too. -/
theorem walk_after (s : Store) {fixed : List String} {all : List TyVar}
    (hall : ∀ w ∈ all, w.name ∉ fixed) {t : Ty} (ht : t.Collapsed) (met : List TyVar)
    (h : t.vars.foldl (note fixed) met <+: all) :
    walk fixed t (after s met) =
      (t.mapVars (s.freshen all), after s (t.vars.foldl (note fixed) met)) := by
  induction t generalizing met with
  | var v => exact visit_after s hall h
  | fn a r iha ihr =>
    rw [Ty.vars, List.foldl_append] at h ⊢
    rw [walk, iha ht.parts.1 met ((prefix_foldl_note ..).trans h)]
    simp only [ihr ht.parts.2 _ h, Ty.mapVars_fn]
  | sum c ts ih =>
    rw [Ty.vars, Ty.varsAll_eq] at h ⊢
    rw [walk, walkAll_after s (fun t hmem met => ih t hmem (ht.param t hmem) met) h, Ty.mapVars_sum]
  | app g a ihg iha =>
    rw [Ty.vars, List.foldl_append] at h ⊢
    rw [walk, ihg ht.app.1 met ((prefix_foldl_note ..).trans h)]
    simp only [iha ht.arg _ h, ht.app.2]

end Copying

namespace Store

theorem foldl_note_fixedNames (s : Store) (t : Ty) :
    t.vars.foldl (Copying.note s.fixedNames) [] = s.genericVars t := by
  rw [Copying.foldl_note, List.nil_append, genericVars, Ty.freeVars]
  refine List.filter_congr fun v _ => ?_
  simp [isGeneric]

/-- The walk that starts with nothing given out makes the copy, and ends with the store of the copy. -/
theorem walk_eq_instantiate (s : Store) (t : Ty) :
    Copying.walk s.fixedNames (s.resolve t) ⟨[], s⟩ =
      ((s.instantiate t).1, Copying.after s (s.genericVars (s.resolve t))) := by
  have hall : ∀ w ∈ s.genericVars (s.resolve t), w.name ∉ s.fixedNames := fun w hw =>
    (mem_genericNames.1 (List.mem_map_of_mem hw)).2
  have hwalk := Copying.walk_after s hall (s.collapsed_resolve t) []
    (by rw [foldl_note_fixedNames])
  rw [foldl_note_fixedNames] at hwalk
  exact hwalk

theorem genericNames_eq (s : Store) (t : Ty) :
    (s.genericVars t).map (·.name) = t.names.eraseDups.filter s.isGeneric := by
  rw [← Ty.freeNames_eq_eraseDups, Ty.freeNames, List.filter_map]
  rfl

/-- The generic variable number `i` is replaced by the fresh variable number `i` from the counter on, and
a fixed variable stays. -/
theorem name_freshen_genericVars (s : Store) {t : Ty} {v : TyVar} (hv : v ∈ t.vars) :
    (s.freshen (s.genericVars t) v).name =
      if v.name ∈ t.names.eraseDups.filter s.isGeneric then
        s.freshName (s.counter + (t.names.eraseDups.filter s.isGeneric).idxOf v.name)
      else v.name := by
  have hnodup := s.nodup_genericVars t
  rw [← genericNames_eq]
  rcases s.fixed_or_generic hv with hfixed | ⟨i, hi, hname⟩
  · rw [s.freshen_of_fixed hfixed, if_neg fun h => (mem_genericNames.1 h).2 hfixed]
  · have hi' : i < ((s.genericVars t).map (·.name)).length := by rwa [List.length_map]
    have hget : ((s.genericVars t).map (·.name))[i] = v.name := by rw [List.getElem_map, hname]
    have hindex : ((s.genericVars t).map (·.name)).idxOf v.name = i := by
      rw [← hget, hnodup.idxOf_getElem i hi']
    rw [s.freshen_getElem hnodup hi hname, if_pos (hget ▸ List.getElem_mem hi'), hindex]

theorem created_instantiate (s : Store) (t : Ty) :
    let generic := (s.resolve t).names.eraseDups.filter s.isGeneric
    s.created (.instantiate t) = generic.map fun x =>
      if x ∈ generic then s.stem ++ toString (s.counter + generic.idxOf x) else x := by
  intro generic
  have hgeneric : generic = (s.genericVars (s.resolve t)).map (·.name) := (s.genericNames_eq _).symm
  rw [hgeneric, List.map_map, ← hgeneric]
  exact List.map_congr_left fun v hv => s.name_freshen_genericVars (s.genericVars_subset _ hv)

/-- A copy of a type is the resolved type in which each generic name, the first one by its first
occurrence the first, is replaced by the next fresh name, and every other name is kept. The counter moves
on by the number of generic names and nothing else changes in the store. A single walk that gives out
fresh variables as it meets the names comes to the same copy and the same store. The new names are all that
the call creates. Over any calls the counter moves on by the number of names created, so from the empty store on
32 bits are enough for it as long as fewer than `2 ^ 32` are created. -/
theorem instantiate_renames_generic (s : Store) (t : Ty) :
    let generic := (s.resolve t).names.eraseDups.filter s.isGeneric
    let renamed := fun x =>
      if x ∈ generic then s.stem ++ toString (s.counter + generic.idxOf x) else x
    (s.instantiate t).1.simplify = (s.resolve t).simplify.rename renamed ∧
      (s.instantiate t).2 = { s with counter := s.counter + generic.length } ∧
      (Copying.walk s.fixedNames (s.resolve t) ⟨[], s⟩).1 = (s.instantiate t).1 ∧
      (Copying.walk s.fixedNames (s.resolve t) ⟨[], s⟩).2.store = (s.instantiate t).2 ∧
      s.created (.instantiate t) = generic.map renamed ∧
      ∀ calls, (s.callAll calls).counter = s.counter + (s.createdAll calls).length := by
  intro generic renamed
  refine ⟨?_, ?_, ?_, ?_, s.created_instantiate t, s.counter_callAll⟩
  · rw [Ty.rename_simplify, instantiate, Ty.simplify_subst]
    refine Ty.subst_congr fun v hv => ?_
    exact congrArg (fun x => Ty.var (.ofName x)) (s.name_freshen_genericVars hv)
  · have hlength : (s.genericVars (s.resolve t)).length = generic.length := by
      rw [← List.length_map, genericNames_eq]
    rw [instantiate, hlength]
  · rw [walk_eq_instantiate]
  · rw [walk_eq_instantiate]
    rfl

end Store

end TypeEngine
