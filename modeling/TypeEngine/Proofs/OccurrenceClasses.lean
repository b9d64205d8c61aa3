import Mathlib.Tactic.TFAE
import TypeEngine.Proofs.Instantiation
import TypeEngine.Proofs.NormalForm

/-! # The classes of an occurrence

One name can occur in a resolved type several times, with different classes. Three answers are given about
the type: its classes, its demands, and the classes that the variables of a copy carry. Each of them
reads the first occurrence of a name and no other (`Store.counts_iff`). What is recorded in the store is
carried by every occurrence and so counts; a class that only a later occurrence carries does not, and
whether it does depends on the order of the occurrences. -/

namespace TypeEngine

/-! ### First occurrences -/

namespace TyVar

theorem find?_firstOfEachName (vs : List TyVar) (x : String) :
    (firstOfEachName vs).find? (·.name == x) = vs.find? (·.name == x) := by
  induction vs with
  | nil => rfl
  | cons v vs ih =>
    rw [firstOfEachName, List.find?_cons, List.find?_cons]
    split
    · rfl
    · rename_i hv
      rw [List.find?_filter, ← ih]
      congr 1
      funext w
      by_cases hw : w.name = x
      · subst hw
        have hne : w.name ≠ v.name := (beq_eq_false_iff_ne.1 hv).symm
        simp [hne]
      · simp [hw]

theorem exists_first {vs : List TyVar} {v : TyVar} (hv : v ∈ vs) :
    ∃ w ∈ vs, w.name = v.name ∧ vs.find? (·.name == v.name) = some w := by
  obtain ⟨w, hw⟩ : ∃ w, vs.find? (·.name == v.name) = some w :=
    Option.isSome_iff_exists.1 (List.find?_isSome.2 ⟨v, hv, beq_self_eq_true _⟩)
  exact ⟨w, List.mem_of_find?_eq_some hw, by simpa using List.find?_some hw, hw⟩

theorem find?_eq_some_of_mem_firstOfEachName {vs : List TyVar} {v : TyVar}
    (hv : v ∈ firstOfEachName vs) : vs.find? (·.name == v.name) = some v := by
  obtain ⟨w, hmem, hname, hw⟩ := exists_first hv
  have hsame : w = v := List.inj_on_of_nodup_map (nodup_names_firstOfEachName vs) hmem hv hname
  rw [← find?_firstOfEachName, hw, hsame]

end TyVar

namespace Ty

/-- The classes that the first occurrence of a name carries. -/
def firstContext (t : Ty) (x : String) : SymbolSet :=
  ((t.vars.find? (·.name == x)).map (·.context)).getD ∅

variable {t : Ty} {x : String} {c : Symbol}

theorem firstContext_eq {v : TyVar} (h : t.vars.find? (·.name == x) = some v) :
    t.firstContext x = v.context := by
  rw [firstContext, h]
  rfl

theorem mem_firstContext : c ∈ t.firstContext x ↔ ∃ v ∈ t.freeVars, v.name = x ∧ c ∈ v.context := by
  constructor
  · intro hc
    cases hfind : t.vars.find? (·.name == x) with
    | none =>
      rw [firstContext, hfind] at hc
      exact absurd hc Std.ExtTreeSet.not_mem_empty
    | some v =>
      rw [firstContext_eq hfind] at hc
      rw [← TyVar.find?_firstOfEachName] at hfind
      exact ⟨v, List.mem_of_find?_eq_some hfind, by simpa using List.find?_some hfind, hc⟩
  · rintro ⟨v, hv, rfl, hc⟩
    rwa [firstContext_eq (TyVar.find?_eq_some_of_mem_firstOfEachName hv)]

theorem mem_firstContext_of_agree {t' : Ty} (hsub : ∀ v ∈ t.vars, v ∈ t'.vars)
    (hagree : ∀ v ∈ t'.vars, ∀ w ∈ t'.vars, v.name = w.name → v.context = w.context)
    (hc : c ∈ t.firstContext x) : c ∈ t'.firstContext x := by
  obtain ⟨v, hv, rfl, hc⟩ := mem_firstContext.1 hc
  have hv' : v ∈ t'.vars := hsub v ((TyVar.firstOfEachName_sublist _).subset hv)
  obtain ⟨w, hw, hname, hfind⟩ := TyVar.exists_first hv'
  rwa [firstContext_eq hfind, hagree w hw v hv' hname]

theorem mem_demands : (x, c) ∈ t.demands ↔ c ∈ t.firstContext x := by
  rw [mem_firstContext, demands]
  simp only [List.mem_flatMap, List.mem_map, Std.ExtTreeSet.mem_toList, Prod.mk.injEq]
  constructor
  · rintro ⟨v, hv, d, hd, hname, rfl⟩
    exact ⟨v, hv, hname, hd⟩
  · rintro ⟨v, hv, hname, hc⟩
    exact ⟨v, hv, c, hc, hname, rfl⟩

end Ty

namespace Store

variable {s : Store} {t : Ty} {x : String} {c : Symbol}

/-! ### The three answers -/

theorem mem_classesOf : c ∈ s.classesOf t ↔ ∃ x, c ∈ (s.resolve t).firstContext x := by
  simp only [classesOf, Std.ExtTreeSet.mem_ofList, List.contains_iff_mem, List.mem_flatMap,
    Std.ExtTreeSet.mem_toList, Ty.mem_firstContext]
  constructor
  · rintro ⟨v, hv, hc⟩
    exact ⟨v.name, v, hv, rfl, hc⟩
  · rintro ⟨_, v, hv, -, hc⟩
    exact ⟨v, hv, hc⟩

theorem vars_instantiate (s : Store) (t : Ty) :
    (s.instantiate t).1.vars = (s.resolve t).vars.map (s.freshen (s.genericVars (s.resolve t))) := by
  rw [instantiate, Ty.vars_subst]
  exact List.map_eq_flatMap.symm

theorem find?_genericVars (hgeneric : s.isGeneric x = true) :
    (s.genericVars t).find? (·.name == x) = t.vars.find? (·.name == x) := by
  rw [genericVars, List.find?_filter, ← TyVar.find?_firstOfEachName]
  refine congrArg (List.find? · t.freeVars) (funext fun w => ?_)
  by_cases hw : w.name = x
  · simp [hw, hgeneric]
  · simp [hw]

theorem context_freshen {v : TyVar} (hv : v ∈ t.vars) (hgeneric : s.isGeneric v.name = true) :
    (s.freshen (s.genericVars t) v).context = t.firstContext v.name := by
  obtain ⟨w, -, -, hw⟩ := TyVar.exists_first hv
  have hfind := map_fst_find?_zipIdx (s.genericVars t) s.counter v.name
  rw [find?_genericVars hgeneric, hw] at hfind
  obtain ⟨q, hq, rfl⟩ := Option.map_eq_some_iff.1 hfind
  rw [freshen, hq, Ty.firstContext_eq hw]

/-- The class counts as demanded of the name, in every answer about the type: it is one of its classes,
it is among the demands of what the type resolves to, and if the name is generic, then wherever the name
is replaced in a copy the fresh variable carries the class. -/
structure Counts (s : Store) (t : Ty) (x : String) (c : Symbol) : Prop where
  classes : c ∈ s.classesOf t
  demands : (x, c) ∈ (s.resolve t).demands
  copies : s.isGeneric x = true →
    ∀ p ∈ (s.resolve t).vars.zip (s.instantiate t).1.vars, p.1.name = x → c ∈ p.2.context

theorem counts_iff : s.Counts t x c ↔ c ∈ (s.resolve t).firstContext x := by
  constructor
  · intro h
    exact Ty.mem_demands.1 h.demands
  · intro hc
    refine ⟨mem_classesOf.2 ⟨x, hc⟩, Ty.mem_demands.2 hc, ?_⟩
    rintro hgeneric p hp rfl
    rw [vars_instantiate, ← List.map_prod_left_eq_zip, List.mem_map] at hp
    obtain ⟨v, hv, rfl⟩ := hp
    rwa [context_freshen hv hgeneric]

/-! ### The order of the occurrences -/

/-- The other type resolves to the same occurrences, in any order. -/
def Rearranges (s : Store) (t t' : Ty) : Prop := (s.resolve t').vars.Perm (s.resolve t).vars

theorem Acyclic.exists_rearrangement (hs : s.Acyclic) {vs : List TyVar}
    (h : vs.Perm (s.resolve t).vars) : ∃ t', s.Rearranges t t' ∧ (s.resolve t').vars = vs := by
  have hvar : ∀ v ∈ vs, s.resolve (.var v) = .var v := by
    intro v hv
    have hmem := h.subset hv
    rw [resolve_var_of_unbound (hs.unbound_of_mem (Ty.mem_names.2 ⟨v, hmem, rfl⟩)),
      annotate_of_mem_resolve hmem]
  have hvars : (s.resolve (.sum (.unqualified "T") (vs.map .var))).vars = vs := by
    rw [resolve_sum, List.map_map]
    simp [List.map_congr_left (f := s.resolve ∘ Ty.var) hvar, Ty.vars, List.flatMap_map]
  refine ⟨_, ?_, hvars⟩
  rwa [Rearranges, hvars]

theorem Acyclic.exists_first (hs : s.Acyclic) {v : TyVar} (hv : v ∈ (s.resolve t).vars) :
    ∃ t', s.Rearranges t t' ∧ (s.resolve t').firstContext v.name = v.context := by
  obtain ⟨t', ht', hvars⟩ := hs.exists_rearrangement (List.perm_cons_erase hv).symm
  refine ⟨t', ht', Ty.firstContext_eq ?_⟩
  rw [hvars, List.find?_cons_of_pos]
  exact beq_self_eq_true _

theorem Acyclic.mem_context_of_counts (hs : s.Acyclic)
    (hcounts : ∀ t', s.Rearranges t t' → ∀ v ∈ (s.resolve t').vars, ∀ c ∈ v.context,
      s.Counts t' v.name c)
    {v w : TyVar} (hv : v ∈ (s.resolve t).vars) (hw : w ∈ (s.resolve t).vars)
    (hname : v.name = w.name) (hc : c ∈ v.context) : c ∈ w.context := by
  obtain ⟨t', ht', hfirst⟩ := hs.exists_first hw
  rw [← hfirst, ← hname, ← counts_iff]
  exact hcounts t' ht' v (ht'.mem_iff.2 hv) c hc

/-- Three answers are given about the classes in a type, and all of them go by the first occurrence of a
name in what the type resolves to. A class that is recorded for the name counts wherever it occurs. The
classes of all occurrences count, whatever their order, exactly if the answers do not depend on the order,
and exactly if all occurrences of a name carry the same classes. -/
theorem classes_read_at_first_occurrence (hs : s.Acyclic) (t : Ty) :
    (∀ x c, s.Counts t x c ↔ c ∈ (s.resolve t).firstContext x) ∧
      (∀ v ∈ (s.resolve t).vars, ∀ c ∈ s.demands.getD v.name ∅, s.Counts t v.name c) ∧
      List.TFAE [
        ∀ t', s.Rearranges t t' → ∀ v ∈ (s.resolve t').vars, ∀ c ∈ v.context, s.Counts t' v.name c,
        ∀ t', s.Rearranges t t' → ∀ x c, s.Counts t' x c ↔ s.Counts t x c,
        ∀ v ∈ (s.resolve t).vars, ∀ w ∈ (s.resolve t).vars, v.name = w.name → v.context = w.context] := by
  refine ⟨fun x c => counts_iff, fun v hv c hc => counts_iff.2 ?_, ?_⟩
  · obtain ⟨w, hw, hname, hfind⟩ := TyVar.exists_first hv
    rw [Ty.firstContext_eq hfind]
    exact mem_context_of_recorded hw (hname ▸ hc)
  · tfae_have 1 → 3 := by
      intro hcounts v hv w hw hname
      apply Std.ExtTreeSet.ext_mem
      exact fun c => ⟨hs.mem_context_of_counts hcounts hv hw hname,
        hs.mem_context_of_counts hcounts hw hv hname.symm⟩
    tfae_have 3 → 2 := by
      intro hagree t' ht' x c
      have hagree' : ∀ v ∈ (s.resolve t').vars, ∀ w ∈ (s.resolve t').vars,
          v.name = w.name → v.context = w.context :=
        fun v hv w hw => hagree v (ht'.subset hv) w (ht'.subset hw)
      rw [counts_iff, counts_iff]
      exact ⟨Ty.mem_firstContext_of_agree (fun v => ht'.mem_iff.1) hagree,
        Ty.mem_firstContext_of_agree (fun v => ht'.mem_iff.2) hagree'⟩
    tfae_have 2 → 1 := by
      intro hsame t' ht' v hv c hc
      obtain ⟨t'', ht'', hfirst⟩ := hs.exists_first (ht'.subset hv)
      rw [hsame t' ht', ← hsame t'' ht'', counts_iff, hfirst]
      exact hc
    tfae_finish

/-- `Num` is recorded for `a` before `b` is bound to `a`: it counts in `a -> b`, and no order of the two
occurrences changes that. -/
theorem classes_read_at_first_occurrence_recorded :
    let num : Symbol := .unqualified "Num"
    let a := Ty.var (.ofName "a")
    let b := Ty.var (.ofName "b")
    let s := (empty "t").callAll [.demand a {num}, .unify a b]
    s.Acyclic ∧ s.resolve (.fn a b) = .fn (.var ⟨"a", {num}⟩) (.var ⟨"a", {num}⟩) ∧
      s.Counts (.fn a b) "a" num ∧
      ∀ t', s.Rearranges (.fn a b) t' → ∀ x c, s.Counts t' x c ↔ s.Counts (.fn a b) x c := by
  refine ⟨?hs, by decide +kernel,
    (classes_read_at_first_occurrence ?hs _).2.1 ⟨"a", {.unqualified "Num"}⟩ ?_ _ ?_,
    ((classes_read_at_first_occurrence ?hs _).2.2.out 2 1).1 ?_⟩
  case hs => exact (acyclic_empty "t").acyclic_callAll ⟨nofun, nofun, trivial⟩
  all_goals decide +kernel

/-- `a`, written with the class `Num`, is unified with `b`. In `a -> b` the occurrence that `b` stands for
carries `Num`, and none of the answers has it; in `b -> a` all of them do. -/
theorem class_of_later_occurrence_lost :
    let num : Symbol := .unqualified "Num"
    let a := Ty.var (.ofName "a")
    let b := Ty.var (.ofName "b")
    let s := (empty "t").callAll [.unify (.var ⟨"a", {num}⟩) b]
    s.Acyclic ∧ s.resolve (.fn a b) = .fn a (.var ⟨"a", {num}⟩) ∧ s.isGeneric "a" = true ∧
      num ∉ s.classesOf (.fn a b) ∧ ("a", num) ∉ (s.resolve (.fn a b)).demands ∧
      (s.instantiate (.fn a b)).1 = .fn (.var (.ofName "t0")) (.var (.ofName "t0")) ∧
      s.Rearranges (.fn a b) (.fn b a) ∧ s.Counts (.fn b a) "a" num := by
  refine ⟨(acyclic_empty "t").acyclic_callAll ⟨nofun, trivial⟩, ?_, ?_, ?_, ?_, ?_, ?_, counts_iff.2 ?_⟩
  case refine_6 => exact List.Perm.swap _ _ _
  all_goals decide +kernel

end Store

end TypeEngine
