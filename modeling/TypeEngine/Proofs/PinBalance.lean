import TypeEngine.Proofs.Freshness
import TypeEngine.Proofs.Symmetry
import TypeEngine.Proofs.UnitRuns

/-! # Balance of pins

Only three calls change the pins directly; all else a unit can do leaves them alone, and a region takes
away what it added. The names of a region are those computed when it was entered, so neither the
bindings made inside nor a nesting of regions disturbs the balance. Inside of a region the counts are
never below those at its start, hence its arguments stay pinned. -/

namespace TypeEngine

/-! ### Counts -/

namespace Pins

/-- Every stored count is at least one. -/
def Positive (p : Pins) : Prop := ∀ (x : String) (n : Nat), p[x]? = some n → 1 ≤ n

theorem positive_empty : Positive ∅ := by
  intro x n hx
  rw [Std.ExtTreeMap.getElem?_empty] at hx
  cases hx

theorem getD_foldl_add (p : Pins) (names : List String) (x : String) :
    (names.foldl Pins.add p).getD x 0 = p.getD x 0 + names.count x := by
  induction names generalizing p with
  | nil => simp
  | cons y names ih =>
    rw [List.foldl_cons, ih, getD_add, List.count_cons]
    simp only [beq_iff_eq]
    omega

theorem getD_foldl_remove (p : Pins) (names : List String) (x : String) :
    (names.foldl Pins.remove p).getD x 0 = p.getD x 0 - names.count x := by
  induction names generalizing p with
  | nil => simp
  | cons y names ih =>
    rw [List.foldl_cons, ih, getD_remove, List.count_cons]
    simp only [beq_iff_eq]
    omega

theorem Positive.add {p : Pins} (h : p.Positive) (name : String) : (p.add name).Positive := by
  intro x n hx
  rw [Pins.add, Std.ExtTreeMap.getElem?_insert] at hx
  split at hx
  · have hn := Option.some.inj hx
    omega
  · exact h x n hx

theorem Positive.remove {p : Pins} (h : p.Positive) (name : String) : (p.remove name).Positive := by
  intro x n hx
  unfold Pins.remove at hx
  split at hx
  · exact h x n hx
  · split at hx
    · rw [Std.ExtTreeMap.getElem?_erase] at hx
      split at hx
      · cases hx
      · exact h x n hx
    · rw [Std.ExtTreeMap.getElem?_insert] at hx
      split at hx
      · have hn := Option.some.inj hx
        omega
      · exact h x n hx

theorem Positive.foldl_add {p : Pins} (h : p.Positive) (names : List String) :
    (names.foldl Pins.add p).Positive :=
  List.foldlRecOn (motive := Positive) names _ h fun _ hq name _ => hq.add name

theorem Positive.foldl_remove {p : Pins} (h : p.Positive) (names : List String) :
    (names.foldl Pins.remove p).Positive :=
  List.foldlRecOn (motive := Positive) names _ h fun _ hq name _ => hq.remove name

theorem Positive.getElem?_eq {p : Pins} (h : p.Positive) (x : String) :
    p[x]? = if p.getD x 0 = 0 then none else some (p.getD x 0) := by
  rw [Std.ExtTreeMap.getD_eq_getD_getElem?]
  cases hx : p[x]? with
  | none => rfl
  | some n =>
    have hn := h x n hx
    simp only [Option.getD_some]
    rw [if_neg (by omega)]

/-- Maps without zeros are told apart by what they count. -/
theorem Positive.ext {p q : Pins} (hp : p.Positive) (hq : q.Positive)
    (h : ∀ x, p.getD x 0 = q.getD x 0) : p = q := by
  apply Std.ExtTreeMap.ext_getElem?
  intro x
  rw [hp.getElem?_eq, hq.getElem?_eq, h]

end Pins

/-! ### Operations that leave the pins alone -/

namespace Store

/-- Unification changes the store by binding variables, and in no other way. -/
theorem unify_induction {P : Store → Prop}
    (hbind : ∀ {s s' : Store} {v : TyVar} {t : Ty}, s.bind v t = .ok s' → P s → P s')
    {s : Store} (hs : P s) (e a : Ty) : P (s.unify e a).2 := by
  have hgiveUp : ∀ (eqs : List Equation) (s : Store), P s → P (giveUp eqs s).2 := by
    intro eqs s hs
    cases eqs <;> exact hs
  have hwithin : ∀ next : List Equation → Store → Solved,
      (∀ eqs s, P s → P (next eqs s).2) → ∀ n eqs s, P s → P (solveWithin next n eqs s).2 := by
    intro next hnext n
    induction n with
    | zero =>
      intro eqs s hs
      cases eqs with
      | nil => exact hs
      | cons eq eqs => exact hgiveUp _ s hs
    | succ n ih =>
      intro eqs s hs
      cases eqs with
      | nil => exact hs
      | cons eq eqs =>
        rw [solveWithin]
        split
        · exact ih _ s hs
        · exact hs
        · exact ih _ s hs
        · split
          · exact hs
          · rename_i hok
            split
            · exact ih _ _ (hbind hok hs)
            · exact hnext _ _ (hbind hok hs)
  have hbinding : ∀ m eqs s, P s → P (solveBinding m eqs s).2 := by
    intro m
    induction m with
    | zero => exact fun eqs s hs => hwithin _ hgiveUp _ _ _ hs
    | succ m ih => exact fun eqs s hs => hwithin _ ih _ _ _ hs
  have hend : (s.unify e a).2 = (s.solve [(e, a)]).2 := by
    rcases s.unify_cases e a with ⟨s', hrun, hunify⟩ | ⟨err, s', hrun, hunify⟩ <;> rw [hunify, hrun]
  rw [hend]
  exact hbinding _ _ s hs

theorem pins_bind {s s' : Store} {v : TyVar} {t : Ty} (h : s.bind v t = .ok s') :
    s'.pins = s.pins := by
  unfold bind at h
  split at h
  · cases h
    rfl
  · split at h
    · cases h
    · cases h
      rfl

theorem pins_unify (s : Store) (e a : Ty) : (s.unify e a).2.pins = s.pins :=
  unify_induction (P := fun s' => s'.pins = s.pins) (fun hbind hs => (pins_bind hbind).trans hs) rfl e a

/-- The call neither pins a variable nor takes a pin away. -/
def Call.LeavesPins : Call → Prop
  | .pin _ | .unpinType _ | .unpin _ => False
  | _ => True

theorem pins_call (s : Store) {c : Call} (hc : c.LeavesPins) : (s.call c).2.pins = s.pins := by
  cases c with
  | bind v t =>
    simp only [call]
    split
    · rename_i s' hbind
      exact pins_bind hbind
    · rfl
  | unify e a =>
    have hpins := s.pins_unify e a
    simp only [call]
    split <;> rename_i h <;> rw [h] at hpins <;> exact hpins
  | pin t => cases hc
  | unpinType t => cases hc
  | unpin names => cases hc
  | _ => rfl

theorem positive_call {s : Store} (h : s.pins.Positive) (c : Call) : (s.call c).2.pins.Positive := by
  by_cases hc : c.LeavesPins
  · rw [s.pins_call hc]
    exact h
  · cases c with
    | pin t => exact h.foldl_add _
    | unpinType t => exact h.foldl_remove _
    | unpin names => exact h.foldl_remove _
    | _ => exact absurd trivial hc

theorem pinAll_snd (s : Store) (ts : List Ty) :
    (s.pinAll ts).2 = { s with pins := (s.pinAll ts).1.foldl Pins.add s.pins } := by
  induction ts generalizing s with
  | nil => rfl
  | cons t ts ih =>
    have hrest := ih (s.pin t).2
    simp only [pinAll, List.foldl_append, hrest]
    rfl

theorem mem_pinAll {s : Store} {ts : List Ty} {t : Ty} (ht : t ∈ ts) {x : String}
    (hx : x ∈ t.names) : x ∈ (s.pinAll ts).1 := by
  induction ts generalizing s with
  | nil => cases ht
  | cons u ts ih =>
    rcases List.mem_cons.1 ht with rfl | ht
    · refine List.mem_append_left _ (List.mem_append_left _ ?_)
      exact TyVar.mem_names_firstOfEachName.2 hx
    · exact List.mem_append_right _ (ih ht)

end Store

namespace Scopes

/-- The operation neither pins a variable nor takes a pin away. -/
def Operation.LeavesPins : Operation → Prop
  | .types call => call.LeavesPins
  | _ => True

theorem store_define {s s' : Scopes} {scope : ScopeId} {symbol : Symbol}
    {change : Entry → Except SlotConflict Entry} (h : s.define scope symbol change = .ok s') :
    s'.store = s.store := by
  unfold define at h
  dsimp only at h
  split at h
  · cases h
  · split at h
    · cases h
    · split at h
      · cases h
      · cases h
        rfl

theorem store_record {s s' : Scopes} {scope : ScopeId} {symbol : Symbol} {d : Definition}
    (h : s.record scope symbol d = .ok s') : s'.store = s.store := by
  unfold record at h
  cases d <;> exact store_define h

theorem store_modifyModuleOf (s : Scopes) (scope : ScopeId) (f : ModuleBody → ModuleBody) :
    (s.modifyModuleOf scope f).store = s.store := by
  unfold modifyModuleOf
  split <;> rfl

theorem pins_signature? {s s' : Scopes} {scope : ScopeId} {symbol : Symbol} {t : Ty}
    (h : s.signature? scope symbol = some (t, s')) : s'.store.pins = s.store.pins := by
  obtain ⟨u, -, hu⟩ := Option.map_eq_some_iff.1 h
  cases hu
  rfl

theorem store_enterModule (s : Scopes) (name : String) (imports : List Import) :
    (s.enterModule name imports).2.store = s.store := by
  unfold enterModule
  split <;> rfl

theorem store_addDependency (s : Scopes) (scope : ScopeId) (symbol : Symbol) :
    (s.addDependency scope symbol).store = s.store := by
  unfold addDependency
  split
  · rfl
  · exact s.store_modifyModuleOf scope _

theorem pins_perform (s : Scopes) {op : Operation} (h : op.LeavesPins) :
    (s.perform op).store.pins = s.store.pins := by
  cases op with
  | types call => exact s.store.pins_call h
  | enterModule name imports => exact congrArg _ (s.store_enterModule name imports)
  | enterScope scope => rfl
  | record scope symbol d =>
    simp only [perform]
    split
    · rename_i s' hrecord
      rw [store_record hrecord]
    · rfl
  | implement c t => rfl
  | addCase scope symbol c => exact congrArg _ (s.store_modifyModuleOf scope _)
  | addDependency scope symbol => exact congrArg _ (s.store_addDependency scope symbol)
  | reserveSymbol scope nestings => rfl
  | signature scope symbol =>
    simp only [perform]
    split
    · rename_i hsig
      exact pins_signature? hsig
    · rfl

end Scopes

namespace Checker

/-- The operation neither pins a variable nor takes a pin away. -/
def Operation.LeavesPins : Operation → Prop
  | .scopes op => op.LeavesPins
  | _ => True

theorem pins_unifyOrReport (c : Checker) (e a : Ty) (span : Span) :
    (c.unifyOrReport e a span).2.store.pins = c.store.pins := by
  have hpins := c.store.pins_unify e a
  unfold unifyOrReport
  split <;> rename_i h <;> rw [h] at hpins <;> exact hpins

theorem pins_reference (c : Checker) (symbol : Symbol) (span : Span) :
    (c.reference symbol span).2.store.pins = c.store.pins := by
  unfold reference
  split
  · rename_i hsig
    exact Scopes.pins_signature? hsig
  · split <;> rfl

theorem pins_checkCapture (c : Checker) (symbol : Symbol) (t : Ty) (argument : String) (span : Span) :
    (c.checkCapture symbol t argument span).2.store.pins = c.store.pins := by
  unfold checkCapture
  cases c.scopes.value? c.current (.unqualified argument) with
  | some u =>
    have hpins := c.pins_unifyOrReport (c.resolve t) u span
    dsimp only
    split
    · exact hpins
    · rename_i hdefine
      exact (congrArg Store.pins (Scopes.store_define hdefine)).trans hpins
  | none =>
    dsimp only
    split
    · rfl
    · rename_i hdefine
      exact congrArg Store.pins (Scopes.store_define hdefine)

theorem store_checkContexts (c : Checker) (t : Ty) (span : Span) :
    (c.checkContexts t span).store = c.store :=
  List.foldlRecOn (motive := fun c' : Checker => c'.store = c.store) _ _ rfl fun _ h _ _ => h

theorem store_qualifyOrReport (c : Checker) (symbol : Symbol) (span : Span) :
    (c.qualifyOrReport symbol span).2.store = c.store := by
  have hreport : (c.reportAmbiguity symbol span).store = c.store := by
    unfold reportAmbiguity
    split
    · split <;> rfl
    · rfl
  unfold qualifyOrReport
  dsimp only
  split <;> exact hreport

theorem pins_perform (c : Checker) {op : Operation} (h : op.LeavesPins) :
    (c.perform op).store.pins = c.store.pins := by
  cases op with
  | scopes op => exact c.scopes.pins_perform h
  | report cause span => rfl
  | enterModule name imports => exact congrArg _ (c.scopes.store_enterModule name imports)
  | enterScope => rfl
  | leaveScope => rfl
  | reserveType => rfl
  | unifyOrReport e a span => exact c.pins_unifyOrReport e a span
  | reference symbol span => exact c.pins_reference symbol span
  | checkCapture symbol t argument span => exact c.pins_checkCapture symbol t argument span
  | checkContexts t span => exact congrArg _ (c.store_checkContexts t span)
  | qualifyOrReport symbol span => exact congrArg _ (c.store_qualifyOrReport symbol span)
  | qualifyTypeOrReport t span => rfl

theorem positive_perform {c : Checker} (h : c.store.pins.Positive) (op : Operation) :
    (c.perform op).store.pins.Positive := by
  by_cases hop : op.LeavesPins
  · rw [c.pins_perform hop]
    exact h
  · cases op with
    | scopes op =>
      cases op with
      | types call => exact Store.positive_call h call
      | _ => exact absurd trivial hop
    | _ => exact absurd trivial hop


/-! ### Regions -/

theorem count_pinned (c : Checker) (arguments : List Ty) (x : String) :
    (c.pinned arguments).store.pins.getD x 0 =
      c.store.pins.getD x 0 + (c.store.pinAll arguments).1.count x := by
  show (c.store.pinAll arguments).2.pins.getD x 0 = _
  rw [Store.pinAll_snd]
  exact Pins.getD_foldl_add _ _ x

/-- A region takes away as many pins of a name as it added, whatever the name is bound to by then. -/
theorem count_enclose {α : Type} {c : Checker} {arguments : List Ty} {body : Checker → α × Checker}
    {x : String}
    (hbody : (body (c.pinned arguments)).2.store.pins.getD x 0 =
      (c.pinned arguments).store.pins.getD x 0) :
    (c.enclose arguments body).2.store.pins.getD x 0 = c.store.pins.getD x 0 := by
  show (((body (c.pinned arguments)).2.store.unpin (c.store.pinAll arguments).1).pins).getD x 0 = _
  have hpinned := count_pinned c arguments x
  rw [Store.unpin, Pins.getD_foldl_remove]
  omega

theorem positive_pinned {c : Checker} (h : c.store.pins.Positive) (arguments : List Ty) :
    (c.pinned arguments).store.pins.Positive := by
  show (c.store.pinAll arguments).2.pins.Positive
  rw [Store.pinAll_snd]
  exact h.foldl_add _

theorem Walk.count_eq {c c' : Checker} (h : Walk Operation.LeavesPins c c') (x : String) :
    c'.store.pins.getD x 0 = c.store.pins.getD x 0 := by
  induction h with
  | done c => rfl
  | step op hop _ ih => rw [ih, pins_perform _ hop]
  | enclose arguments body _ _ ihbody ihrest => rw [ihrest, count_enclose ihbody]

theorem Visits.count_le {c c' : Checker} (h : Visits Operation.LeavesPins c c') (x : String) :
    c.store.pins.getD x 0 ≤ c'.store.pins.getD x 0 := by
  induction h with
  | here c => exact le_rfl
  | step op hop _ ih => rwa [pins_perform _ hop] at ih
  | enclose arguments body hbody _ ih => rwa [count_enclose (hbody.count_eq x)] at ih
  | inside arguments _ ih =>
    rw [count_pinned] at ih
    omega

theorem Walk.positive {allowed : Operation → Prop} {c c' : Checker} (h : Walk allowed c c')
    (hc : c.store.pins.Positive) : c'.store.pins.Positive := by
  induction h with
  | done c => exact hc
  | step op _ _ ih => exact ih (positive_perform hc op)
  | enclose arguments body _ _ ihbody ihrest =>
    exact ihrest ((ihbody (positive_pinned hc arguments)).foldl_remove _)

theorem Visits.positive {allowed : Operation → Prop} {c c' : Checker} (h : Visits allowed c c')
    (hc : c.store.pins.Positive) : c'.store.pins.Positive := by
  induction h with
  | here c => exact hc
  | step op _ _ ih => exact ih (positive_perform hc op)
  | enclose arguments body hbody _ ih =>
    exact ih ((hbody.positive (positive_pinned hc arguments)).foldl_remove _)
  | inside arguments _ ih => exact ih (positive_pinned hc arguments)

/-- Enclosing a body that does not pin or unpin directly gives the pins back exactly, and leaves all else as the
body leaves it. Over any run, also one that does, no stored count is ever zero, not even in the middle of taking
pins away. -/
theorem enclose_pins_balanced :
    (∀ {α : Type} (c : Checker) (arguments : List Ty) (body : Checker → α × Checker),
      c.store.pins.Positive →
      Walk Operation.LeavesPins (c.pinned arguments) (body (c.pinned arguments)).2 →
      (c.enclose arguments body).2.store.pins = c.store.pins ∧
        ∃ c', body (c.pinned arguments) = ((c.enclose arguments body).1, c') ∧
          (c.enclose arguments body).2 = c'.withStore { c'.store with pins := c.store.pins }) ∧
    ∀ c c' : Checker, c.store.pins.Positive → Visits (fun _ => True) c c' →
      ∀ names, (c'.store.unpin names).pins.Positive := by
  refine ⟨fun c arguments body hc hbody => ?_, fun c c' hc hrun names => ?_⟩
  · have hend := hbody.positive (positive_pinned hc arguments)
    have hpins : (c.enclose arguments body).2.store.pins = c.store.pins :=
      Pins.Positive.ext (hend.foldl_remove _) hc fun x => count_enclose (hbody.count_eq x)
    refine ⟨hpins, (body (c.pinned arguments)).2, rfl, ?_⟩
    rw [← hpins]
    rfl
  · exact (hrun.positive hc).foldl_remove names

/-- The body binds a variable that is pinned three times to another pinned one, and reports two errors. -/
theorem enclose_pins_balanced_failing_body :
    let a := Ty.var (.ofName "a")
    let b := Ty.var (.ofName "b")
    let int := Ty.sum (.unqualified "Int") []
    let c := (start (.new .empty ⟨false, "t", "s"⟩)).perform (.scopes (.types (.pin a)))
    let body := fun c : Checker =>
      (((c.perform (.unifyOrReport a (.fn b b) ⟨0, 1⟩)).perform (.unifyOrReport a int ⟨1, 2⟩)).perform
        (.scopes (.record Scopes.root (.unqualified "g") (.value a)))).enclose [b, a] fun c =>
          ((), c.perform (.reference (.unqualified "f") ⟨2, 3⟩))
    let arguments := [a, .fn a b]
    c.store.pins.Positive ∧
      Walk Operation.LeavesPins (c.pinned arguments) (body (c.pinned arguments)).2 ∧
      (body (c.pinned arguments)).2.store.pins.toList = [("a", 3), ("b", 1)] ∧
      (body (c.pinned arguments)).2.diagnostics.length = 2 ∧
      (c.enclose arguments body).2.store.pins = c.store.pins ∧ c.store.pins.toList = [("a", 1)] ∧
      Visits (fun _ => True) c (c.perform (.scopes (.types (.unpinType (.fn a b))))) ∧
      ((c.perform (.scopes (.types (.unpinType (.fn a b))))).store.unpin ["a"]).pins.Positive := by
  refine ⟨?hc, ?hbody, by decide +kernel, by decide +kernel, (enclose_pins_balanced.1 _ _ _ ?hc ?hbody).1,
    by decide +kernel, ?hrun, enclose_pins_balanced.2 _ _ ?hc ?hrun _⟩
  case hc => exact positive_perform (c := start (.new .empty _)) Pins.positive_empty _
  case hbody =>
    exact .step (.unifyOrReport _ _ _) trivial (.step (.unifyOrReport _ _ _) trivial
      (.step (.scopes (.record _ _ _)) trivial
        (.enclose _ _ (.step (.reference _ _) trivial (.done _)) (.done _))))
  case hrun => exact .step _ trivial (.here _)

end Checker

/-! ### Pinned arguments -/

namespace Store

theorem names_expandAll (s : Store) (v : TyVar) :
    (s.expandAll s.bindings v).names = (s.resolve (.var (.ofName v.name))).names := by
  rcases s.expandAll_ofName v with hsame | ⟨hv, hname⟩
  · rw [hsame]
  · rw [hv, hname]
    rfl

/-- What a type over pinned names resolves to is fixed, however far the names were bound. -/
theorem mem_fixedNames_of_pinned {s : Store} {t : Ty} (h : ∀ x ∈ t.names, x ∈ s.pins) {x : String}
    (hx : x ∈ (s.resolve t).names) : x ∈ s.fixedNames := by
  obtain ⟨v, hv, hxv⟩ := Ty.mem_names_subst.1 hx
  have hpinned := h v.name (Ty.mem_names.2 ⟨v, hv, rfl⟩)
  rw [names_expandAll] at hxv
  refine List.mem_flatMap.2 ⟨v.name, Std.ExtTreeMap.mem_keys.2 hpinned, ?_⟩
  exact List.mem_cons_of_mem _ (TyVar.mem_names_firstOfEachName.2 hxv)

theorem instantiate_of_fixed {s : Store} {t : Ty} (h : ∀ x ∈ (s.resolve t).names, x ∈ s.fixedNames) :
    s.instantiate t = (s.resolve t, s) := by
  have hgeneric : s.genericVars (s.resolve t) = [] := by
    refine List.eq_nil_iff_forall_not_mem.2 fun v hv => ?_
    obtain ⟨hmem, hfree⟩ := mem_genericNames.1 (List.mem_map_of_mem hv)
    exact hfree (h _ hmem)
  have hcopy : ((s.resolve t).subst fun v => .var (s.freshen [] v)) = s.resolve t :=
    s.collapsed_resolve t
  simp only [instantiate, hgeneric, hcopy]
  rfl

end Store

namespace Checker

theorem Visits.mem_pins {c c' : Checker} {arguments : List Ty}
    (h : Visits Operation.LeavesPins (c.pinned arguments) c') {arg : Ty} (harg : arg ∈ arguments)
    {x : String} (hx : x ∈ arg.names) : x ∈ c'.store.pins := by
  have hcount := List.count_pos_iff.2 (Store.mem_pinAll (s := c.store) harg hx)
  have hpinned := count_pinned c arguments x
  have hkept := h.count_le x
  by_contra hx'
  rw [Std.ExtTreeMap.getD_eq_fallback hx'] at hkept
  omega

/-- Take a body that answers with a state it passes through, which may lie inside of further regions. Wherever
the bindings made by then have moved an argument of the region, instantiating the argument there only resolves
it, and instantiating any type keeps the variables of the resolved argument. -/
theorem enclosed_argument_fixed {c : Checker} {arguments : List Ty} {body : Checker → Checker × Checker}
    (hbody : Visits Operation.LeavesPins (c.pinned arguments) (body (c.pinned arguments)).1) {arg : Ty}
    (harg : arg ∈ arguments) :
    let c' := (c.enclose arguments body).1
    c'.store.instantiate arg = (c'.store.resolve arg, c'.store) ∧
      ∀ t, ∃ f : TyVar → TyVar, (c'.store.instantiate t).1 = (c'.store.resolve t).mapVars f ∧
        ∀ v : TyVar, v.name ∈ (c'.store.resolve arg).names → f v = v := by
  intro c'
  have hpinned : ∀ x ∈ arg.names, x ∈ c'.store.pins := fun x hx => hbody.mem_pins harg hx
  have hfixed : ∀ x ∈ (c'.store.resolve arg).names, x ∈ c'.store.fixedNames :=
    fun x hx => Store.mem_fixedNames_of_pinned hpinned hx
  refine ⟨Store.instantiate_of_fixed hfixed, fun t => ⟨_, rfl, fun v hv => ?_⟩⟩
  exact c'.store.freshen_of_fixed (hfixed v.name hv)

/-- In the body the argument moves to a fresh variable, and inside a region of its own to a type over a
variable of that region. There it is instantiated; after the region of the argument it would be copied. -/
theorem enclosed_argument_fixed_in_nested_region :
    let a := Ty.var (.ofName "a")
    let b := Ty.var (.ofName "b")
    let d := Ty.var (.ofName "d")
    let c := start (.new .empty ⟨false, "t", "s"⟩)
    let body := fun c : Checker =>
      ((c.perform .reserveType).perform (.unifyOrReport c.reserveType.1 a ⟨0, 1⟩)).enclose [b] fun c' =>
        (c'.perform (.unifyOrReport c.reserveType.1 (.fn b d) ⟨1, 2⟩), c')
    let c' := (c.enclose [a] body).1
    Visits Operation.LeavesPins (c.pinned [a]) (body (c.pinned [a])).1 ∧
      c'.store.resolve a = .fn b d ∧
      c'.store.instantiate a = (c'.store.resolve a, c'.store) ∧
      (c'.store.instantiate (.fn (.var (.ofName "e")) a)).1 = .fn (.var (.ofName "t1")) (.fn b d) ∧
      ((c.enclose [a] body).2.store.instantiate a).1 = .var (.ofName "t1") := by
  refine ⟨?hbody, by decide +kernel, (enclosed_argument_fixed ?hbody (List.mem_singleton.2 rfl)).1,
    by decide +kernel, by decide +kernel⟩
  exact .step .reserveType trivial (.step (.unifyOrReport _ _ _) trivial
    (.inside _ (.step (.unifyOrReport _ _ _) trivial (.here _))))

end Checker

end TypeEngine
