import TypeEngine.Proofs.Matching

/-! # The index answers what was registered

The index keeps the registered instances apart by class, in order of registration. Going through the classes in
any order and sorting by class afterwards gives the instances of a module sorted by class, because the sort keeps
instances of one class in order, and a list sorted by class is determined by what it holds of each class
(`Instance.eq_of_ofClass_eq`). -/

namespace TypeEngine

/-! ### Symbols in order -/

namespace Symbol

/-- The symbol `s'` does not come before `s`. -/
def ble (s s' : Symbol) : Bool := (compare s s').isLE

theorem ble_trans (s s' s'' : Symbol) (h : s.ble s' = true) (h' : s'.ble s'' = true) : s.ble s'' = true :=
  Std.TransOrd.isLE_trans h h'

theorem ble_total (s s' : Symbol) : (s.ble s' || s'.ble s) = true := by
  rw [Bool.or_eq_true]
  by_cases h : s.ble s' = true
  · exact .inl h
  · have hlt : compare s' s = .lt := Std.OrientedCmp.lt_of_not_isLE h
    exact .inr (by rw [ble, hlt]; rfl)

theorem eq_of_ble {s s' : Symbol} (h : s.ble s' = true) (h' : s'.ble s = true) : s = s' :=
  eq_of_compare_eq (Std.OrientedCmp.isLE_antisymm h h')

end Symbol

/-! ### Sorting instances by class -/

namespace Instance

variable {ds es : List Instance} {c : Symbol}

def ofClass (c : Symbol) (ds : List Instance) : List Instance := ds.filter (·.typeClass == c)

/-- The class of `e` does not come before the class of `d`. -/
def classLE (d e : Instance) : Bool := (compare d.typeClass e.typeClass).isLE

/-- The list `es` is `ds` ordered by class, and within a class in the order of `ds`. -/
structure SortedByClass (ds es : List Instance) : Prop where
  perm : es.Perm ds
  ordered : es.Pairwise fun d e => d.classLE e = true
  stable : ∀ c, ofClass c es = ofClass c ds

theorem mem_ofClass {d : Instance} : d ∈ ofClass c ds ↔ d ∈ ds ∧ d.typeClass = c := by
  rw [ofClass, List.mem_filter, beq_iff_eq]

theorem ofClass_cons (c : Symbol) (d : Instance) (ds : List Instance) :
    ofClass c (d :: ds) = if d.typeClass = c then d :: ofClass c ds else ofClass c ds := by
  simp only [ofClass, List.filter_cons, beq_iff_eq]

theorem ofClass_ofClass (c c' : Symbol) (ds : List Instance) :
    ofClass c (ofClass c' ds) = if c' = c then ofClass c ds else [] := by
  split
  · rename_i h
    rw [h, ofClass, ofClass, List.filter_filter]
    simp only [Bool.and_self]
  · rename_i h
    refine List.eq_nil_iff_forall_not_mem.2 fun d hd => h ?_
    obtain ⟨hd, hc⟩ := mem_ofClass.1 hd
    exact (mem_ofClass.1 hd).2.symm.trans hc

theorem classLE_trans (d e f : Instance) (hde : d.classLE e = true) (hef : e.classLE f = true) :
    d.classLE f = true :=
  Symbol.ble_trans _ _ _ hde hef

theorem classLE_total (d e : Instance) : (d.classLE e || e.classLE d) = true :=
  Symbol.ble_total d.typeClass e.typeClass

theorem typeClass_eq_of_classLE {d e : Instance} (hde : d.classLE e = true) (hed : e.classLE d = true) :
    d.typeClass = e.typeClass :=
  Symbol.eq_of_ble hde hed

theorem ordered_ofClass (c : Symbol) (ds : List Instance) :
    (ofClass c ds).Pairwise fun d e => d.classLE e = true := by
  refine List.pairwise_of_forall_mem_list fun d hd e he => ?_
  rw [classLE, (mem_ofClass.1 hd).2, (mem_ofClass.1 he).2]
  exact Std.ReflOrd.isLE_rfl

theorem mem_of_ofClass_eq (h : ∀ c, ofClass c es = ofClass c ds) {d : Instance} (hd : d ∈ ds) : d ∈ es := by
  have hmem : d ∈ ofClass d.typeClass ds := mem_ofClass.2 ⟨hd, rfl⟩
  rw [← h] at hmem
  exact (mem_ofClass.1 hmem).1

theorem perm_of_ofClass_eq (h : ∀ c, ofClass c es = ofClass c ds) : es.Perm ds := by
  have hcount : ∀ (d : Instance) (fs : List Instance), (ofClass d.typeClass fs).count d = fs.count d :=
    fun d fs => List.count_filter (beq_self_eq_true d.typeClass)
  refine List.perm_iff_count.2 fun d => ?_
  rw [← hcount d es, h, hcount d ds]

theorem sortedByClass_of_ordered (hes : es.Pairwise fun d e => d.classLE e = true)
    (h : ∀ c, ofClass c es = ofClass c ds) : SortedByClass ds es :=
  ⟨perm_of_ofClass_eq h, hes, h⟩

/-- Lists ordered by class that hold the same of every class are the same. -/
theorem eq_of_ofClass_eq (hes : es.Pairwise fun d e => d.classLE e = true)
    (hds : ds.Pairwise fun d e => d.classLE e = true) (h : ∀ c, ofClass c es = ofClass c ds) : es = ds := by
  induction es generalizing ds with
  | nil => exact (perm_of_ofClass_eq h).nil_eq
  | cons e es ih =>
    cases ds with
    | nil => exact (perm_of_ofClass_eq h).eq_nil
    | cons d ds =>
      rw [List.pairwise_cons] at hes hds
      have hclass : e.typeClass = d.typeClass := by
        rcases List.mem_cons.1 (mem_of_ofClass_eq h List.mem_cons_self) with heq | hd
        · rw [heq]
        · rcases List.mem_cons.1 (mem_of_ofClass_eq (fun c => (h c).symm) List.mem_cons_self) with heq | he
          · rw [heq]
          · exact typeClass_eq_of_classLE (hes.1 d hd) (hds.1 e he)
      have hfirst := h d.typeClass
      rw [ofClass_cons, ofClass_cons, if_pos hclass, if_pos rfl] at hfirst
      obtain rfl : e = d := (List.cons.inj hfirst).1
      refine congrArg (List.cons e) (ih hes.2 hds.2 fun c => ?_)
      have hc := h c
      rw [ofClass_cons, ofClass_cons] at hc
      split at hc
      · exact (List.cons.inj hc).2
      · exact hc

theorem SortedByClass.unique {es' : List Instance} (hes : SortedByClass ds es) (hes' : SortedByClass ds es') :
    es = es' :=
  eq_of_ofClass_eq hes.ordered hes'.ordered fun c => (hes.stable c).trans (hes'.stable c).symm

theorem sortedByClass_mergeSort (ds : List Instance) : SortedByClass ds (ds.mergeSort classLE) := by
  refine sortedByClass_of_ordered (List.pairwise_mergeSort classLE_trans classLE_total ds) fun c => ?_
  -- the instances of one class are in order already, and the sort keeps what is in order
  have hkept : (ofClass c ds).Sublist (ds.mergeSort classLE) :=
    List.sublist_mergeSort classLE_trans classLE_total (ordered_ofClass c ds) List.filter_sublist
  have hsub : (ofClass c (ofClass c ds)).Sublist (ofClass c (ds.mergeSort classLE)) := hkept.filter _
  rw [ofClass_ofClass, if_pos rfl] at hsub
  have hlength : (ofClass c (ds.mergeSort classLE)).length = (ofClass c ds).length :=
    ((List.mergeSort_perm ds classLE).filter _).length_eq
  exact (hsub.eq_of_length hlength.symm).symm

theorem ofClass_flatMap {classes : List Symbol} (hnodup : classes.Nodup) (ds : List Instance) (c : Symbol) :
    ofClass c (classes.flatMap (ofClass · ds)) = if c ∈ classes then ofClass c ds else [] := by
  induction classes with
  | nil => rfl
  | cons c' classes ih =>
    obtain ⟨hc', hnodup⟩ := List.nodup_cons.1 hnodup
    have happend : ofClass c (ofClass c' ds ++ classes.flatMap (ofClass · ds)) =
        ofClass c (ofClass c' ds) ++ ofClass c (classes.flatMap (ofClass · ds)) := List.filter_append ..
    rw [List.flatMap_cons, happend, ih hnodup, ofClass_ofClass]
    by_cases h : c' = c
    · subst h
      simp only [if_pos, if_neg hc', List.mem_cons_self, List.append_nil]
    · have hmem : c ∈ c' :: classes ↔ c ∈ classes := by simp [Ne.symm h]
      simp only [if_neg h, hmem, List.nil_append]

end Instance

/-! ### Heads that match -/

/-- With a variable of its own at every place where it has one, the head can be made the type, up to demands. -/
def Ty.Covers (head t : Ty) : Prop := ∃ θ : Assignment, θ.value (head.numberFrom 0) = t.simplify

theorem Ty.flatten_fits_iff_covers {head t : Ty} : head.flatten.Fits t.flatten ↔ head.Covers t := by
  have hseparates := separates_numberFrom 0 head
  have hshape : (head.numberFrom 0).shape = head.flatten.shape := by
    rw [hseparates.shape, shape, shape, mapVars, mapVars, subst_flatten]
  have hsimplify : t.flatten.simplify = t.simplify := subst_flatten _ t
  rw [← fits_iff_of_shape_eq hshape (collapsed_flatten head) (collapsed_flatten t),
    flatten_fits_iff hseparates.distinct (collapsed_flatten t), hsimplify, Covers]

theorem Instance.serves_iff_covers {d : Instance} {ts : List Ty} :
    d.serves ts = true ↔ List.Forall₂ Ty.Covers d.parameters ts := by
  simp only [serves_iff, Ty.flatten_fits_iff_covers]

/-! ### What was registered -/

namespace Index

open Instance

def Registration.typeInstance? : Registration → Option Instance
  | .entry _ => none
  | .typeInstance d => some d

/-- The instances among the registrations, in order. -/
def registeredInstances (rs : List Registration) : List Instance := rs.filterMap Registration.typeInstance?

theorem ofRegistrations_concat (rs : List Registration) (r : Registration) :
    ofRegistrations (rs ++ [r]) = (ofRegistrations rs).register r :=
  List.foldl_concat ..

theorem instancesOf_register (i : Index) (r : Registration) (c : Symbol) :
    (i.register r).instancesOf c = i.instancesOf c ++ ofClass c (registeredInstances [r]) := by
  cases r with
  | entry e => exact (List.append_nil _).symm
  | typeInstance d =>
    have hsingle : registeredInstances [.typeInstance d] = [d] := rfl
    rw [register, instancesOf_defineInstance, hsingle, ofClass_cons]
    rfl

theorem instancesOf_ofRegistrations (rs : List Registration) (c : Symbol) :
    (ofRegistrations rs).instancesOf c = ofClass c (registeredInstances rs) := by
  induction rs using List.reverseRecOn with
  | nil => exact Std.ExtTreeMap.getD_empty
  | append_singleton rs r ih =>
    rw [ofRegistrations_concat, instancesOf_register, ih]
    simp only [ofClass, registeredInstances, List.filterMap_append, List.filter_append]

theorem mem_entries_register {i : Index} {r : Registration} {s : Symbol} :
    s ∈ (i.register r).entries ↔ s ∈ i.entries ∨ ∃ e, r = .entry e ∧ e.symbol = s := by
  cases r with
  | entry e =>
    have hinsert : s ∈ i.entries.insert e.symbol e ↔ e.symbol = s ∨ s ∈ i.entries := by
      rw [Std.ExtTreeMap.mem_insert, Std.LawfulEqCmp.compare_eq_iff_eq]
    simp only [register, define, hinsert, Registration.entry.injEq, exists_eq_left', or_comm]
  | typeInstance d => simp only [register, defineInstance, reduceCtorEq, false_and, exists_false, or_false]

theorem mem_entries_ofRegistrations {rs : List Registration} {s : Symbol} :
    s ∈ (ofRegistrations rs).entries ↔ ∃ e, .entry e ∈ rs ∧ e.symbol = s := by
  induction rs using List.reverseRecOn with
  | nil =>
    have hnone : s ∉ (ofRegistrations []).entries := Std.ExtTreeMap.not_mem_empty
    simp only [hnone, List.not_mem_nil, false_and, exists_false]
  | append_singleton rs r ih =>
    rw [ofRegistrations_concat, mem_entries_register, ih]
    simp only [List.mem_append, List.mem_singleton, or_and_right, exists_or, eq_comm (a := r)]

/-! ### The instances of a module -/

/-- The instances of a module, found by going through the classes in the given order. -/
def gather (i : Index) (module : String) (classes : List Symbol) : List Instance :=
  (classes.flatMap i.instancesOf).filter (·.module == module)

theorem moduleInstances_eq_gather (i : Index) (module : String) :
    i.moduleInstances module = i.gather module i.instances.keys := by
  have hgroup : ∀ p ∈ i.instances.toList,
      p.2.filter (·.module == module) = (i.instancesOf p.1).filter (·.module == module) := by
    intro p hp
    have hget : i.instances[p.1]? = some p.2 := Std.ExtTreeMap.mem_toList_iff_getElem?_eq_some.1 hp
    rw [instancesOf, Std.ExtTreeMap.getD_eq_getD_getElem?, hget, Option.getD_some]
  rw [gather, ← Std.ExtTreeMap.map_fst_toList_eq_keys, List.flatMap_map, List.filter_flatMap, moduleInstances,
    List.flatMap_def, List.flatMap_def, List.map_congr_left hgroup]

variable {rs : List Registration} {classes : List Symbol} {module : String}

theorem typeClass_mem_keys {d : Instance} (hd : d ∈ registeredInstances rs) :
    d.typeClass ∈ (ofRegistrations rs).instances.keys := by
  have hmem : d ∈ (ofRegistrations rs).instancesOf d.typeClass := by
    rw [instancesOf_ofRegistrations]
    exact mem_ofClass.2 ⟨hd, rfl⟩
  by_contra hkey
  rw [Std.ExtTreeMap.mem_keys] at hkey
  rw [instancesOf, Std.ExtTreeMap.getD_eq_fallback hkey] at hmem
  cases hmem

theorem ofClass_gather (hnodup : classes.Nodup) (hall : ∀ d ∈ registeredInstances rs, d.typeClass ∈ classes)
    (c : Symbol) :
    ofClass c ((ofRegistrations rs).gather module classes) =
      ofClass c ((registeredInstances rs).filter (·.module == module)) := by
  have hof : (ofRegistrations rs).instancesOf = (ofClass · (registeredInstances rs)) :=
    funext (instancesOf_ofRegistrations rs)
  have hclass : ofClass c (classes.flatMap (ofClass · (registeredInstances rs))) =
      ofClass c (registeredInstances rs) := by
    rw [ofClass_flatMap hnodup]
    split
    · rfl
    · rename_i hc
      refine (List.eq_nil_iff_forall_not_mem.2 fun d hd => hc ?_).symm
      obtain ⟨hmem, rfl⟩ := mem_ofClass.1 hd
      exact hall d hmem
  calc ofClass c ((ofRegistrations rs).gather module classes)
      = (ofClass c (classes.flatMap (ofClass · (registeredInstances rs)))).filter (·.module == module) := by
        rw [gather, hof]
        exact List.filter_comm ..
    _ = (ofClass c (registeredInstances rs)).filter (·.module == module) := by rw [hclass]
    _ = ofClass c ((registeredInstances rs).filter (·.module == module)) := List.filter_comm ..

theorem ordered_moduleInstances (rs : List Registration) (module : String) :
    ((ofRegistrations rs).moduleInstances module).Pairwise fun d e => d.classLE e = true := by
  rw [moduleInstances_eq_gather]
  refine List.Pairwise.filter _ (List.pairwise_flatMap.2 ⟨fun c _ => ?_, ?_⟩)
  · rw [instancesOf_ofRegistrations]
    exact ordered_ofClass c _
  · refine Std.ExtTreeMap.ordered_keys.imp fun hlt d hd e he => ?_
    rw [instancesOf_ofRegistrations] at hd he
    rw [classLE, (mem_ofClass.1 hd).2, (mem_ofClass.1 he).2, hlt]
    rfl

theorem sortedByClass_moduleInstances (rs : List Registration) (module : String) :
    SortedByClass ((registeredInstances rs).filter (·.module == module))
      ((ofRegistrations rs).moduleInstances module) := by
  refine sortedByClass_of_ordered (ordered_moduleInstances rs module) fun c => ?_
  rw [moduleInstances_eq_gather]
  exact ofClass_gather Std.ExtTreeMap.nodup_keys (fun _ => typeClass_mem_keys) c

theorem sortedByClass_gather (h : classes.Perm (ofRegistrations rs).instances.keys) (module : String) :
    SortedByClass ((registeredInstances rs).filter (·.module == module))
      (((ofRegistrations rs).gather module classes).mergeSort classLE) := by
  have hsort := sortedByClass_mergeSort ((ofRegistrations rs).gather module classes)
  have hnodup : classes.Nodup := h.nodup_iff.2 Std.ExtTreeMap.nodup_keys
  refine sortedByClass_of_ordered hsort.ordered fun c => ?_
  rw [hsort.stable]
  exact ofClass_gather hnodup (fun d hd => h.mem_iff.2 (typeClass_mem_keys hd)) c

/-! ### The symbols of a module -/

/-- The symbols of a module among the given ones, collected and sorted. -/
def sortSymbols (module : String) (symbols : List Symbol) : List Symbol :=
  (symbols.filter (·.isFrom module)).mergeSort Symbol.ble

theorem ordered_symbolsOf (i : Index) (module : String) :
    (i.symbolsOf module).Pairwise fun s s' => compare s s' = .lt :=
  Std.ExtTreeMap.ordered_keys.filter _

theorem sortSymbols_eq {i : Index} {symbols : List Symbol} (h : symbols.Perm i.entries.keys) (module : String) :
    sortSymbols module symbols = i.symbolsOf module := by
  have hperm : (sortSymbols module symbols).Perm (i.symbolsOf module) :=
    (List.mergeSort_perm _ _).trans (h.filter _)
  have hsorted : (sortSymbols module symbols).Pairwise fun s s' => s.ble s' = true :=
    List.pairwise_mergeSort Symbol.ble_trans Symbol.ble_total _
  have hordered : (i.symbolsOf module).Pairwise fun s s' => s.ble s' = true :=
    (i.ordered_symbolsOf module).imp fun hlt => by rw [Symbol.ble, hlt]; rfl
  exact hperm.eq_of_pairwise (fun _ _ _ _ => Symbol.eq_of_ble) hsorted hordered

/-- For every sequence of registrations, the instances of a module are those registered, sorted by class, and
going through the classes in any order and sorting afterwards finds the same. The instances at given types are
those registered for the class whose heads cover the types, in order. The symbols of a module are those of its
entries, in ascending order, and collecting them from the entries in any order and sorting them gives the same. -/
theorem answers_what_was_registered (rs : List Registration) :
    (∀ module,
      SortedByClass ((registeredInstances rs).filter (·.module == module))
          ((ofRegistrations rs).moduleInstances module) ∧
        ∀ classes, classes.Perm (ofRegistrations rs).instances.keys →
          ((ofRegistrations rs).gather module classes).mergeSort classLE =
            (ofRegistrations rs).moduleInstances module) ∧
    (∀ c ts, ∃ p : Instance → Bool,
      (∀ d, p d = true ↔ d.typeClass = c ∧ List.Forall₂ Ty.Covers d.parameters ts) ∧
        (ofRegistrations rs).instancesAt c ts = (registeredInstances rs).filter p) ∧
    ∀ module,
      ((ofRegistrations rs).symbolsOf module).Pairwise (fun s s' => compare s s' = .lt) ∧
        (∀ s, s ∈ (ofRegistrations rs).symbolsOf module ↔
          s.owner? = some module ∧ ∃ e, .entry e ∈ rs ∧ e.symbol = s) ∧
        ∀ symbols, symbols.Perm (ofRegistrations rs).entries.keys →
          sortSymbols module symbols = (ofRegistrations rs).symbolsOf module := by
  refine ⟨fun module => ⟨sortedByClass_moduleInstances rs module, fun classes h => ?_⟩, fun c ts => ?_,
    fun module => ⟨ordered_symbolsOf _ module, fun s => ?_, fun symbols h => sortSymbols_eq h module⟩⟩
  · exact (sortedByClass_gather h module).unique (sortedByClass_moduleInstances rs module)
  · refine ⟨fun d => d.serves ts && d.typeClass == c, fun d => ?_, ?_⟩
    · rw [Bool.and_eq_true, beq_iff_eq, serves_iff_covers, and_comm]
    · rw [instancesAt, instancesOf_ofRegistrations, ofClass, List.filter_filter]
  · rw [symbolsOf, List.mem_filter, Std.ExtTreeMap.mem_keys, mem_entries_ofRegistrations, Symbol.isFrom,
      beq_iff_eq, and_comm]

/-- Two modules register instances of two classes in turn, one instance is registered twice, and the classes are
gone through in descending order, and so are the entries. -/
theorem answers_what_was_registered_in_turn :
    let eq : Symbol := .unqualified "Eq"
    let num : Symbol := .unqualified "Num"
    let int := Ty.sum (.unqualified "Int") []
    let numInt : Instance := ⟨"m", num, [int], ⟨"m/NumInt", "instance", "()"⟩⟩
    let eqInt : Instance := ⟨"n", eq, [int], ⟨"n/EqInt", "instance", "()"⟩⟩
    let eqAny : Instance := ⟨"m", eq, [.var (.ofName "a")], ⟨"m/EqAny", "instance", "()"⟩⟩
    let x := Entry.empty (.qualified "m" "x")
    let f := Entry.empty (.qualified "m" "f")
    let i := ofRegistrations [.typeInstance numInt, .entry x, .typeInstance eqInt, .entry f, .typeInstance eqAny,
      .typeInstance numInt, .entry x]
    [num, eq].Perm i.instances.keys ∧ i.gather "m" [num, eq] = [numInt, numInt, eqAny] ∧
      i.moduleInstances "m" = [eqAny, numInt, numInt] ∧
      (i.gather "m" [num, eq]).mergeSort classLE = i.moduleInstances "m" ∧
      i.instancesAt eq [int] = [eqInt, eqAny] ∧ i.symbolsOf "m" = [f.symbol, x.symbol] ∧
      [x.symbol, f.symbol].Perm i.entries.keys ∧ sortSymbols "m" [x.symbol, f.symbol] = i.symbolsOf "m" := by
  refine ⟨?hperm, ?_, ?_, ((answers_what_was_registered _).1 "m").2 _ ?hperm, ?_, ?_, ?hsymbols,
    ((answers_what_was_registered _).2.2 "m").2.2 _ ?hsymbols⟩
  all_goals decide +kernel

end Index

end TypeEngine
