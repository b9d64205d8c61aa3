import TypeEngine.Proofs.StoreRuns

/-! # Where names come from

Everything that can be asked of a store, with the names that go in and the names that come out. Apart
from fresh variables, a store only ever holds, and only ever answers, names that it was given: a
property of all names in the store and in a call is kept by the store after the call, and the names in
the answer have it too, but for those the call created (`Within.call`). Nothing is assumed of the
bindings, which may run in circles when they were written by hand. -/

namespace TypeEngine

/-! ### Names in types, equations and failures -/

namespace Ty

/-- The names of all variables in the type have the property. -/
def Within (p : String → Prop) (t : Ty) : Prop := ∀ x ∈ t.names, p x

variable {p : String → Prop}

theorem within_var {v : TyVar} : (Ty.var v).Within p ↔ p v.name := by
  simp [Within, names_var]

theorem Within.var {t : Ty} (h : t.Within p) {v : TyVar} (hv : v ∈ t.vars) : p v.name :=
  h v.name (mem_names.2 ⟨v, hv, rfl⟩)

theorem within_subst {f : TyVar → Ty} {t : Ty} (h : ∀ v ∈ t.vars, (f v).Within p) :
    (t.subst f).Within p := by
  intro x hx
  obtain ⟨v, hv, hxv⟩ := mem_names_subst.1 hx
  exact h v hv x hxv

theorem Within.simplify {t : Ty} (h : t.Within p) : t.simplify.Within p := by
  refine within_subst fun v hv => ?_
  rw [within_var, TyVar.name_bare]
  exact h.var hv

theorem Within.freeNames {t : Ty} (h : t.Within p) : ∀ x ∈ t.freeNames, p x := by
  intro x hx
  exact h x (TyVar.mem_names_firstOfEachName.1 hx)

theorem within_fn {a r : Ty} : (Ty.fn a r).Within p ↔ a.Within p ∧ r.Within p := by
  simp only [Within, names_fn, List.mem_append, or_imp, forall_and]

theorem within_app {h a : Ty} : (Ty.app h a).Within p ↔ h.Within p ∧ a.Within p := by
  simp only [Within, names_app, List.mem_append, or_imp, forall_and]

theorem within_sum {s : Symbol} {ts : List Ty} :
    (Ty.sum s ts).Within p ↔ ∀ t ∈ ts, t.Within p := by
  simp only [Within, mem_names_sum]
  grind

end Ty

/-- The names of all variables in the pairs have the property. -/
def Equation.Within (p : String → Prop) (eqs : List Equation) : Prop :=
  ∀ eq ∈ eqs, eq.1.Within p ∧ eq.2.Within p

namespace Equation

variable {p : String → Prop}

theorem within_cons {e a : Ty} {eqs : List Equation} :
    Within p ((e, a) :: eqs) ↔ (e.Within p ∧ a.Within p) ∧ Within p eqs :=
  List.forall_mem_cons

theorem Within.append {front back : List Equation} (hf : Within p front) (hb : Within p back) :
    Within p (front ++ back) :=
  List.forall_mem_append.2 ⟨hf, hb⟩

theorem Splits.within {e a : Ty} {parts : List Equation} (h : Splits e a parts) (he : e.Within p)
    (ha : a.Within p) : Within p parts := by
  intro eq heq
  have hparts : ∀ x, x ∈ eq.1.names ∨ x ∈ eq.2.names → p x := fun x hx =>
    (h.names eq heq x hx).elim (he x) (ha x)
  exact ⟨fun x hx => hparts x (.inl hx), fun x hx => hparts x (.inr hx)⟩

end Equation

/-- The names of the variables in a failure. -/
def UnifyError.names : UnifyError → List String
  | .mismatch expected actual => expected.names ++ actual.names
  | .circular v t => v.name :: t.names
  | .endless expected actual => expected.names ++ actual.names

/-! ### Names in a store -/

namespace Store

/-- The name occurs in the store: it is bound, or it occurs in what a name is bound to, or classes are
recorded for it, or it is pinned, or it occurs in an instance head. -/
def Knows (s : Store) (x : String) : Prop :=
  x ∈ s.bindings ∨ (∃ (y : String) (t : Ty), s.bindings[y]? = some t ∧ x ∈ t.names) ∨
    x ∈ s.demands ∨ x ∈ s.pins ∨ ∃ c, ∃ head ∈ s.heads.getD c [], x ∈ head.names

/-- All names in the store have the property. -/
structure Within (p : String → Prop) (s : Store) : Prop where
  bound : ∀ x ∈ s.bindings, p x
  targets : ∀ (y : String) (t : Ty), s.bindings[y]? = some t → t.Within p
  recorded : ∀ x ∈ s.demands, p x
  pinned : ∀ x ∈ s.pins, p x
  heads : ∀ c, ∀ head ∈ s.heads.getD c [], head.Within p

theorem within_iff {p : String → Prop} {s : Store} : s.Within p ↔ ∀ x, s.Knows x → p x := by
  unfold Knows
  constructor
  · rintro h x (hx | ⟨y, t, ht, hx⟩ | hx | hx | ⟨c, head, hhead, hx⟩)
    · exact h.bound x hx
    · exact h.targets y t ht x hx
    · exact h.recorded x hx
    · exact h.pinned x hx
    · exact h.heads c head hhead x hx
  · intro h
    constructor
    case bound => exact fun x hx => h x (.inl hx)
    case targets => exact fun y t ht x hx => h x (.inr (.inl ⟨y, t, ht, hx⟩))
    case recorded => exact fun x hx => h x (.inr (.inr (.inl hx)))
    case pinned => exact fun x hx => h x (.inr (.inr (.inr (.inl hx))))
    case heads =>
      intro c head hhead x hx
      exact h x (.inr (.inr (.inr (.inr ⟨c, head, hhead, hx⟩))))

theorem within_empty (p : String → Prop) (stem : String) : (empty stem).Within p where
  bound := fun _ h => absurd h Std.ExtTreeMap.not_mem_empty
  targets := fun _ _ h => by simp [empty] at h
  recorded := fun _ h => absurd h Std.ExtTreeMap.not_mem_empty
  pinned := fun _ h => absurd h Std.ExtTreeMap.not_mem_empty
  heads := fun _ _ h => by simp [empty] at h

/-- Where fresh names come from: the stem and the next number. -/
def supply (s : Store) : String × Nat := (s.stem, s.counter)

variable {p : String → Prop} {s : Store}

theorem Within.resolve (hs : s.Within p) {t : Ty} (ht : t.Within p) : (s.resolve t).Within p := by
  refine s.resolve_induction (P := fun v => p v.name) ?_ ?_ ?_ fun v hv => ht.var hv
  · exact fun v hv => Ty.within_var.2 hv
  · exact fun x u hu v hv => (hs.targets x u hu).var hv
  · exact fun f u hu => Ty.within_subst hu

/-! ### Binding and recording -/

theorem mem_demands_add {d : Demands} {name x : String} {classes : SymbolSet}
    (h : x ∈ d.add name classes) : x = name ∨ x ∈ d := by
  rcases Std.ExtTreeMap.mem_insert.1 h with h | h
  · exact .inl (Std.LawfulEqCmp.eq_of_compare h).symm
  · exact .inr h

theorem known_of_mem_demandsAfterBinding {v : TyVar} {t : Ty} {x : String}
    (h : x ∈ s.demandsAfterBinding v t) : x = v.name ∨ x ∈ t.names ∨ x ∈ s.demands := by
  unfold demandsAfterBinding at h
  dsimp only at h
  split at h
  · exact .inr (.inr h)
  · cases t with
    | var w =>
      rcases mem_demands_add h with rfl | h
      · exact .inr (.inl (by simp [Ty.names_var]))
      · exact (mem_demands_add h).imp_right .inr
    | fn a r => exact (mem_demands_add h).imp_right .inr
    | sum c ts => exact (mem_demands_add h).imp_right .inr
    | app f a => exact (mem_demands_add h).imp_right .inr

theorem Within.insert (hs : s.Within p) {v : TyVar} {t : Ty} (hv : p v.name) (ht : t.Within p) :
    Within p { s with
      bindings := s.bindings.insert v.name t, demands := s.demandsAfterBinding v t } where
  bound x hx := by
    rcases Std.ExtTreeMap.mem_insert.1 hx with h | h
    · exact Std.LawfulEqCmp.eq_of_compare h ▸ hv
    · exact hs.bound x h
  targets y u hu := by
    rw [Bindings.lookup_insert] at hu
    split at hu
    · exact Option.some.inj hu ▸ ht
    · exact hs.targets y u hu
  recorded x hx := by
    rcases known_of_mem_demandsAfterBinding hx with rfl | hx | hx
    · exact hv
    · exact ht x hx
    · exact hs.recorded x hx
  pinned := hs.pinned
  heads := hs.heads

theorem Within.bind (hs : s.Within p) {v : TyVar} {t : Ty} (hv : p v.name) (ht : t.Within p) :
    (∃ s', s.bind v t = .ok s' ∧ s'.Within p ∧ s'.supply = s.supply) ∨
      ∃ err, s.bind v t = .error err ∧ ∀ x ∈ err.names, p x := by
  unfold Store.bind
  split
  · exact .inl ⟨s, rfl, hs, rfl⟩
  · split
    · refine .inr ⟨_, rfl, ?_⟩
      exact List.forall_mem_cons.2 ⟨hv, ht⟩
    · exact .inl ⟨_, rfl, hs.insert hv ht, rfl⟩

theorem Within.demand (hs : s.Within p) {t : Ty} (ht : t.Within p) (classes : SymbolSet) :
    (s.demand t classes).Within p := by
  refine { hs with recorded := ?_ }
  refine List.foldlRecOn (motive := fun d : Demands => ∀ x ∈ d, p x) _ _ hs.recorded ?_
  intro d hd name hname x hx
  rcases mem_demands_add hx with rfl | hx
  · exact (hs.resolve ht).freeNames x hname
  · exact hd x hx

theorem Within.implement (hs : s.Within p) (c : Symbol) {head : Ty} (hhead : head.Within p) :
    (s.implement c head).Within p := by
  refine { hs with heads := fun c' t ht => ?_ }
  simp only [Store.implement, Std.ExtTreeMap.getD_insert] at ht
  split at ht
  · rcases List.mem_append.1 ht with ht | ht
    · exact hs.heads c t ht
    · exact List.mem_singleton.1 ht ▸ hhead.simplify
  · exact hs.heads c' t ht

/-! ### Pins -/

theorem Within.regionNames (hs : s.Within p) {t : Ty} (ht : t.Within p) :
    ∀ x ∈ s.regionNames t, p x := by
  intro x hx
  rcases List.mem_append.1 hx with hx | hx
  · exact ht.freeNames x hx
  · exact (hs.resolve ht).freeNames x (List.mem_filter.1 hx).1

theorem Within.pin (hs : s.Within p) {t : Ty} (ht : t.Within p) : (s.pin t).2.Within p := by
  refine { hs with pinned := ?_ }
  refine List.foldlRecOn (motive := fun q : Pins => ∀ x ∈ q, p x) _ _ hs.pinned ?_
  intro q hq name hname x hx
  rcases Std.ExtTreeMap.mem_insert.1 hx with h | h
  · exact Std.LawfulEqCmp.eq_of_compare h ▸ hs.regionNames ht name hname
  · exact hq x h

theorem mem_pins_remove {q : Pins} {name x : String} (h : x ∈ q.remove name) : x ∈ q := by
  unfold Pins.remove at h
  split at h
  · exact h
  · rename_i n hn
    split at h
    · exact Std.ExtTreeMap.mem_of_mem_erase h
    · rcases Std.ExtTreeMap.mem_insert.1 h with h | h
      · rw [← Std.LawfulEqCmp.eq_of_compare h]
        exact Std.ExtTreeMap.mem_iff_isSome_getElem?.2 (by simp [hn])
      · exact h

theorem Within.unpin (hs : s.Within p) (names : List String) : (s.unpin names).Within p := by
  refine { hs with pinned := ?_ }
  refine List.foldlRecOn (motive := fun q : Pins => ∀ x ∈ q, p x) _ _ hs.pinned ?_
  intro q hq name _ x hx
  exact hq x (mem_pins_remove hx)

theorem Within.fixedNames (hs : s.Within p) : ∀ x ∈ s.fixedNames, p x := by
  intro x hx
  obtain ⟨name, hname, hx⟩ := List.mem_flatMap.1 hx
  have hpinned : p name := hs.pinned name (Std.ExtTreeMap.mem_keys.1 hname)
  rcases List.mem_cons.1 hx with rfl | hx
  · exact hpinned
  · exact (hs.resolve (Ty.within_var.2 hpinned)).freeNames x hx

/-! ### Unification -/

/-- A way to solve equations from `s`: all names in the failure, if there is one, and in the store that
is left have the property, and no fresh name was taken. -/
structure SolvedWithin (p : String → Prop) (s : Store) (r : Solved) : Prop where
  failure : ∀ err, r.1 = .error err → ∀ x ∈ err.names, p x
  store : r.2.Within p
  supply : r.2.supply = s.supply

theorem Within.solved (hs : s.Within p) : SolvedWithin p s (.ok (), s) := ⟨nofun, hs, rfl⟩

theorem Within.failed (hs : s.Within p) {err : UnifyError} (herr : ∀ x ∈ err.names, p x) :
    SolvedWithin p s (.error err, s) := by
  refine ⟨fun err' h => ?_, hs, rfl⟩
  cases h
  exact herr

theorem SolvedWithin.trans {s' : Store} {r : Solved} (h : SolvedWithin p s' r)
    (hsupply : s'.supply = s.supply) : SolvedWithin p s r :=
  { h with supply := h.supply.trans hsupply }

theorem Within.giveUp (hs : s.Within p) {eqs : List Equation} (heqs : Equation.Within p eqs) :
    SolvedWithin p s (Store.giveUp eqs s) := by
  cases eqs with
  | nil => exact hs.solved
  | cons eq eqs =>
    obtain ⟨he, ha⟩ := (Equation.within_cons.1 heqs).1
    exact hs.failed (List.forall_mem_append.2 ⟨hs.resolve he, hs.resolve ha⟩)

theorem Within.solveWithin {next : List Equation → Store → Solved}
    (hnext : ∀ (eqs : List Equation) (s : Store), s.Within p → Equation.Within p eqs →
      SolvedWithin p s (next eqs s)) (n : Nat) {eqs : List Equation} (hs : s.Within p)
    (heqs : Equation.Within p eqs) : SolvedWithin p s (Store.solveWithin next n eqs s) := by
  induction n generalizing eqs s with
  | zero =>
    cases eqs with
    | nil => exact hs.solved
    | cons eq eqs => exact hs.giveUp heqs
  | succ n ih =>
    cases eqs with
    | nil => exact hs.solved
    | cons eq eqs =>
      obtain ⟨e, a⟩ := eq
      obtain ⟨⟨he, ha⟩, hrest⟩ := Equation.within_cons.1 heqs
      have hre : (s.resolve e).Within p := hs.resolve he
      have hra : (s.resolve a).Within p := hs.resolve ha
      rw [Store.solveWithin]
      cases hread : Reading.of (s.resolve e) (s.resolve a) with
      | agree => exact ih hs hrest
      | clash => exact hs.failed (List.forall_mem_append.2 ⟨hre, hra⟩)
      | split parts => exact ih hs (((Reading.splits_of hread).within hre hra).append hrest)
      | bind v t =>
        obtain ⟨hv, ht⟩ : p v.name ∧ t.Within p := by
          rcases (Reading.of_eq_bind hread).1 with ⟨h, rfl, -⟩ | ⟨h, rfl⟩
          · exact ⟨Ty.within_var.1 (h ▸ hre), hra⟩
          · exact ⟨Ty.within_var.1 (h ▸ hra), hre⟩
        rcases hs.bind hv ht with ⟨s', hbind, hs', hsupply⟩ | ⟨err, hbind, herr⟩
        · simp only [hbind]
          split
          · exact (ih hs' hrest).trans hsupply
          · exact (hnext eqs s' hs' hrest).trans hsupply
        · simp only [hbind]
          exact hs.failed herr

theorem Within.solveBinding (m : Nat) (eqs : List Equation) (s : Store) (hs : s.Within p)
    (heqs : Equation.Within p eqs) : SolvedWithin p s (Store.solveBinding m eqs s) := by
  induction m generalizing eqs s with
  | zero => exact hs.solveWithin (fun eqs s hs heqs => hs.giveUp heqs) _ heqs
  | succ m ih => exact hs.solveWithin ih _ heqs

theorem Within.answerSide {e a : Ty} (he : e.Within p) (ha : a.Within p) :
    (Store.answerSide e a).Within p := by
  unfold Store.answerSide
  split <;> assumption

theorem Within.unify (hs : s.Within p) {e a : Ty} (he : e.Within p) (ha : a.Within p) :
    ∃ s', s'.Within p ∧ s'.supply = s.supply ∧
      ((∃ t, s.unify e a = (.ok t, s') ∧ t.Within p) ∨
        ∃ err, s.unify e a = (.error err, s') ∧ ∀ x ∈ err.names, p x) := by
  have heqs : Equation.Within p [(e, a)] := Equation.within_cons.2 ⟨⟨he, ha⟩, nofun⟩
  have hsolve : SolvedWithin p s (s.solve [(e, a)]) := Within.solveBinding _ _ s hs heqs
  rcases s.unify_cases e a with ⟨s', hrun, hunify⟩ | ⟨err, s', hrun, hunify⟩
  · rw [hrun] at hsolve
    refine ⟨s', hsolve.store, hsolve.supply, .inl ⟨_, hunify, ?_⟩⟩
    have hside := Within.answerSide (hs.resolve he) (hs.resolve ha)
    unfold answer
    split
    · exact hside
    · exact hsolve.store.resolve hside
  · rw [hrun] at hsolve
    exact ⟨s', hsolve.store, hsolve.supply, .inr ⟨err, hunify, hsolve.failure err rfl⟩⟩

end Store

/-! ### Alignment -/

namespace Ty

variable {p : String → Prop}

theorem within_alignAll {ts us : List Ty} {pairs : List (Ty × Ty)}
    (ih : ∀ t ∈ ts, ∀ (u : Ty) (pairs : List (Ty × Ty)), t.align u = some pairs → t.Within p →
      u.Within p → Equation.Within p pairs)
    (h : alignAll ts us = some pairs) (hts : ∀ t ∈ ts, t.Within p) (hus : ∀ u ∈ us, u.Within p) :
    Equation.Within p pairs := by
  induction ts generalizing us pairs with
  | nil =>
    cases us with
    | nil =>
      cases h
      exact nofun
    | cons u us => cases h
  | cons t ts ihs =>
    cases us with
    | nil => cases h
    | cons u us =>
      rw [alignAll] at h
      split at h
      · rename_i front back hfront hback
        cases h
        rw [List.forall_mem_cons] at hts hus ih
        exact (ih.1 u front hfront hts.1 hus.1).append (ihs ih.2 hback hts.2 hus.2)
      · cases h

theorem within_align {t u : Ty} {pairs : List (Ty × Ty)} (h : t.align u = some pairs)
    (ht : t.Within p) (hu : u.Within p) : Equation.Within p pairs := by
  induction t generalizing u pairs with
  | var v =>
    rw [align] at h
    cases h
    exact Equation.within_cons.2 ⟨⟨ht, hu⟩, nofun⟩
  | fn a r iha ihr =>
    cases u <;> simp only [align, reduceCtorEq] at h
    case fn b q =>
      split at h
      · rename_i front back hfront hback
        cases h
        rw [within_fn] at ht hu
        exact (iha hfront ht.1 hu.1).append (ihr hback ht.2 hu.2)
      · cases h
  | sum c ts ih =>
    cases u <;> simp only [align, reduceCtorEq] at h
    case sum d us =>
      split at h
      · cases h
        exact Equation.within_cons.2 ⟨⟨ht, hu⟩, nofun⟩
      · split at h
        · exact within_alignAll (fun t ht' u pairs => ih t ht') h (within_sum.1 ht) (within_sum.1 hu)
        · cases h
  | app f a ihf iha =>
    cases u <;> simp only [align, reduceCtorEq] at h
    case sum d us =>
      split at h
      · cases h
      · rename_i q hlast
        split at h
        · rename_i front back hfront hback
          cases h
          rw [within_app] at ht
          rw [within_sum] at hu
          have hinit : (Ty.sum d us.dropLast).Within p :=
            within_sum.2 fun w hw => hu w (List.mem_of_mem_dropLast hw)
          exact (ihf hfront ht.1 hinit).append
            (iha hback ht.2 (hu q (List.mem_of_getLast? hlast)))
        · cases h
    case app g b =>
      split at h
      · rename_i front back hfront hback
        cases h
        rw [within_app] at ht hu
        exact (ihf hfront ht.1 hu.1).append (iha hback ht.2 hu.2)
      · cases h

end Ty

namespace Store

/-! ### The names of calls and answers -/

/-- The names the caller supplies with a call. -/
def Call.names : Call → List String
  | .reserve _ => []
  | .isBound v | .isGeneric v => [v.name]
  | .bind v t => v.name :: t.names
  | .unify t u | .align t u => t.names ++ u.names
  | .unpin names => names
  | .target t | .resolve t | .instantiate t | .pin t | .unpinType t | .demand t _ | .classesOf t
  | .implement _ t | .implements _ t | .unsatisfied t => t.names

/-- The names an answer returns to the caller. -/
def Answer.names : Answer → List String
  | .done | .truth _ | .classes _ => []
  | .ty t => t.names
  | .region names => names
  | .positions pairs => (pairs.getD []).flatMap fun (t, u) => t.names ++ u.names
  | .missing instances => instances.flatMap fun (_, t) => t.names
  | .failure err => err.names

/-- The names of the variables a call creates: the reserved one, and in an instantiation those that
replace the generic variables. -/
def created (s : Store) : Call → List String
  | .reserve context => (s.reserve context).1.names
  | .instantiate t =>
    let generic := s.genericVars (s.resolve t)
    generic.map fun v => (s.freshen generic v).name
  | _ => []

variable {p : String → Prop} {s : Store}

theorem Within.target (hs : s.Within p) {t : Ty} (ht : t.Within p) : (s.target t).Within p := by
  cases t with
  | var v =>
    show Ty.Within p (s.bindings.getD v.name (.var v))
    rw [Std.ExtTreeMap.getD_eq_getD_getElem?]
    cases hv : s.bindings[v.name]? with
    | none => exact ht
    | some u => exact hs.targets v.name u hv
  | fn a r => exact ht
  | sum c ts => exact ht
  | app f a => exact ht

theorem Within.align (hs : s.Within p) {t u : Ty} (ht : t.Within p) (hu : u.Within p) :
    Equation.Within p ((s.align t u).getD []) := by
  unfold Store.align
  cases hpairs : (s.resolve t).align (s.resolve u) with
  | none => exact nofun
  | some pairs =>
    have hwithin := Ty.within_align hpairs (hs.resolve ht) (hs.resolve hu)
    intro eq heq
    obtain ⟨pair, hpair, rfl⟩ := List.mem_map.1 heq
    exact ⟨(hwithin pair hpair).1.simplify, (hwithin pair hpair).2⟩

theorem Within.unsatisfied (hs : s.Within p) (t : Ty) :
    ∀ d ∈ s.unsatisfied t, d.2.Within p := by
  intro d hd
  obtain ⟨v, -, hv⟩ := List.mem_flatMap.1 (List.mem_eraseDups.1 hd)
  unfold unsatisfiedAt at hv
  split at hv
  · cases hv
  · rename_i u hu
    have hu' : (s.resolve u).Within p := hs.resolve (hs.targets _ _ hu)
    split at hv
    · rename_i c ts hsum
      obtain ⟨_, -, rfl⟩ := List.mem_map.1 hv
      exact hsum ▸ hu'
    · cases hv

/-- A variable is replaced as the generic variable of its name is, or stays. -/
theorem freshen_cases (s : Store) (generic : List TyVar) (v : TyVar) :
    (∃ w ∈ generic, s.freshen generic v = s.freshen generic w) ∨ s.freshen generic v = v := by
  cases hfind : (generic.zipIdx s.counter).find? fun q => q.1.name == v.name with
  | none => exact .inr (by simp only [freshen, hfind])
  | some q =>
    have hname : q.1.name = v.name := by simpa using List.find?_some hfind
    have hmem : q.1 ∈ generic := List.fst_mem_of_mem_zipIdx (List.mem_of_find?_eq_some hfind)
    exact .inl ⟨q.1, hmem, by simp only [freshen, hname, hfind]⟩

theorem Within.instantiate (hs : s.Within p) {t : Ty} (ht : t.Within p) :
    (s.instantiate t).1.Within fun x => p x ∨ x ∈ s.created (.instantiate t) := by
  refine Ty.within_subst fun v hv => Ty.within_var.2 ?_
  rcases s.freshen_cases (s.genericVars (s.resolve t)) v with ⟨w, hw, heq⟩ | heq
  · rw [heq]
    exact .inr (List.mem_map.2 ⟨w, hw, rfl⟩)
  · rw [heq]
    exact .inl ((hs.resolve ht).var hv)

theorem Within.call (hs : s.Within p) {c : Call} (hc : ∀ x ∈ c.names, p x) :
    (s.call c).2.Within p ∧ ∀ x ∈ (s.call c).1.names, p x ∨ x ∈ s.created c := by
  have hnone : ∀ x ∈ ([] : List String), p x ∨ x ∈ s.created c := fun _ hx => absurd hx List.not_mem_nil
  cases c with
  | reserve context => exact ⟨{ hs with }, fun x hx => .inr hx⟩
  | isBound v => exact ⟨hs, hnone⟩
  | target t => exact ⟨hs, fun x hx => .inl (hs.target hc x hx)⟩
  | bind v t =>
    obtain ⟨hv, ht⟩ := List.forall_mem_cons.1 hc
    rcases hs.bind hv ht with ⟨s', hbind, hs', -⟩ | ⟨err, hbind, herr⟩
    · simp only [Store.call, hbind]
      exact ⟨hs', hnone⟩
    · simp only [Store.call, hbind]
      exact ⟨hs, fun x hx => .inl (herr x hx)⟩
  | resolve t => exact ⟨hs, fun x hx => .inl (hs.resolve hc x hx)⟩
  | unify e a =>
    obtain ⟨he, ha⟩ := List.forall_mem_append.1 hc
    obtain ⟨s', hs', -, ⟨t, hunify, ht⟩ | ⟨err, hunify, herr⟩⟩ := hs.unify he ha
    · simp only [Store.call, hunify]
      exact ⟨hs', fun x hx => .inl (ht x hx)⟩
    · simp only [Store.call, hunify]
      exact ⟨hs', fun x hx => .inl (herr x hx)⟩
  | align t u =>
    obtain ⟨ht, hu⟩ := List.forall_mem_append.1 hc
    refine ⟨hs, fun x hx => .inl ?_⟩
    obtain ⟨pair, hpair, hx⟩ := List.mem_flatMap.1 hx
    rcases List.mem_append.1 hx with hx | hx
    · exact (hs.align ht hu pair hpair).1 x hx
    · exact (hs.align ht hu pair hpair).2 x hx
  | instantiate t => exact ⟨{ hs with }, hs.instantiate hc⟩
  | pin t => exact ⟨hs.pin hc, fun x hx => .inl (hs.regionNames hc x hx)⟩
  | unpinType t => exact ⟨hs.unpin _, hnone⟩
  | unpin names => exact ⟨hs.unpin _, hnone⟩
  | isGeneric v => exact ⟨hs, hnone⟩
  | demand t classes => exact ⟨hs.demand hc classes, hnone⟩
  | classesOf t => exact ⟨hs, hnone⟩
  | implement c head => exact ⟨hs.implement c hc, hnone⟩
  | implements c t => exact ⟨hs, hnone⟩
  | unsatisfied t =>
    refine ⟨hs, fun x hx => .inl ?_⟩
    obtain ⟨d, hd, hx⟩ := List.mem_flatMap.1 hx
    exact hs.unsatisfied t d hd x hx

end Store

end TypeEngine
