import TypeEngine.Proofs.Solving

/-! # Resolution and unification end

Resolution ends for all bindings, since a variable under expansion is not expanded again: its
recursion, with the list of variables under expansion written out, has exactly one outcome. For
unification two numbers fall over acyclic bindings. A split makes the resolved equations smaller; a
binding between variables does not make them larger; a binding to a larger type may, but leaves one
variable less in them. So the two budgets of `Store.solve`, taken from the equations at the start, are
never spent, and the recursion on parts has an outcome, the one that `Store.unify` gives. -/

namespace TypeEngine

/-! ### The recursion of resolution -/

/-- Resolving a type while the variables `visiting` are under expansion ends with a type. A bound
variable is expanded unless it is under expansion already; then it is left as if it were unbound. -/
inductive Store.Resolves (s : Store) : List String → Ty → Ty → Prop
  | unbound {visiting : List String} {v : TyVar} (h : s.bindings[v.name]? = none) :
      s.Resolves visiting (.var v) (.var (s.annotate v))
  | visited {visiting : List String} {v : TyVar} {t : Ty} (h : s.bindings[v.name]? = some t)
      (hv : v.name ∈ visiting) : s.Resolves visiting (.var v) (.var (s.annotate v))
  | bound {visiting : List String} {v : TyVar} {t u : Ty} (h : s.bindings[v.name]? = some t)
      (hv : v.name ∉ visiting) (ht : s.Resolves (v.name :: visiting) t u) :
      s.Resolves visiting (.var v) u
  | fn {visiting : List String} {a a' r r' : Ty} (ha : s.Resolves visiting a a')
      (hr : s.Resolves visiting r r') : s.Resolves visiting (.fn a r) (.fn a' r')
  | sum {visiting : List String} {head : Symbol} {ts us : List Ty} (hlen : ts.length = us.length)
      (h : ∀ p ∈ ts.zip us, s.Resolves visiting p.1 p.2) :
      s.Resolves visiting (.sum head ts) (.sum head us)
  | app {visiting : List String} {h h' a a' : Ty} (hh : s.Resolves visiting h h')
      (ha : s.Resolves visiting a a') : s.Resolves visiting (.app h a) (h'.apply a')

namespace Store

/-- `b` is the store's bindings without those of the variables `visiting`. -/
def HidesAt (s : Store) (visiting : List String) (b : Bindings) : Prop :=
  ∀ x : String, b[x]? = if x ∈ visiting then none else s.bindings[x]?

theorem HidesAt.erase {s : Store} {visiting : List String} {b : Bindings}
    (h : s.HidesAt visiting b) (x : String) : s.HidesAt (x :: visiting) (b.erase x) := by
  intro y
  rw [Bindings.lookup_erase, h y]
  by_cases hyx : y = x <;> simp [hyx]

theorem eq_map_of_forall_mem_zip {f : Ty → Ty} {ts us : List Ty} (hlen : ts.length = us.length)
    (h : ∀ p ∈ ts.zip us, p.2 = f p.1) : us = ts.map f := by
  induction ts generalizing us with
  | nil => exact List.length_eq_zero_iff.1 hlen.symm
  | cons t ts ih =>
    cases us with
    | nil => simp at hlen
    | cons u us =>
      simp only [List.zip_cons_cons, List.forall_mem_cons] at h
      rw [List.map_cons, ← h.1, ← ih (by simpa using hlen) h.2]

theorem Resolves.eq_subst {s : Store} {visiting : List String} {t u : Ty}
    (h : s.Resolves visiting t u) {b : Bindings} (hb : s.HidesAt visiting b) :
    u = t.subst (s.expandAll b) := by
  induction h generalizing b with
  | unbound h => exact (expandAll_of_unbound s (by rw [hb]; simp [h])).symm
  | visited h hv => exact (expandAll_of_unbound s (by rw [hb, if_pos hv])).symm
  | bound h hv ht ih =>
    rw [ih (hb.erase _)]
    exact (expandAll_of_bound s (by rw [hb, if_neg hv, h])).symm
  | fn ha hr iha ihr => rw [iha hb, ihr hb, Ty.subst]
  | @sum visiting head ts us hlen h ih =>
    rw [Ty.subst, Ty.substAll_eq]
    rw [eq_map_of_forall_mem_zip hlen fun p hp => ih p hp hb]
  | app hh ha ihh iha => rw [ihh hb, iha hb, Ty.subst]

theorem resolves_subst (s : Store) {visiting : List String} {b : Bindings}
    (hb : s.HidesAt visiting b) (t : Ty) : s.Resolves visiting t (t.subst (s.expandAll b)) := by
  induction hn : b.size using Nat.strongRecOn generalizing visiting b t with
  | ind n ih =>
    induction t with
    | var v =>
      rw [Ty.subst]
      have hv := hb v.name
      by_cases hmem : v.name ∈ visiting
      · rw [if_pos hmem] at hv
        rw [expandAll_of_unbound s hv]
        cases hs : s.bindings[v.name]? with
        | none => exact .unbound hs
        | some r => exact .visited hs hmem
      · rw [if_neg hmem] at hv
        cases hs : s.bindings[v.name]? with
        | none =>
          rw [expandAll_of_unbound s (hv.trans hs)]
          exact .unbound hs
        | some r =>
          -- one binding less is in sight under `v`
          rw [Store.expandAll_of_bound s (hv.trans hs)]
          have hlt := Bindings.size_erase_lt (hv.trans hs)
          exact .bound hs hmem (ih _ (hn ▸ hlt) (hb.erase v.name) r rfl)
    | fn a r iha ihr => exact .fn iha ihr
    | sum head ts iht =>
      rw [Ty.subst, Ty.substAll_eq]
      refine .sum (by simp) ?_
      intro p hp
      rw [← List.map_prod_left_eq_zip, List.mem_map] at hp
      obtain ⟨t, ht, rfl⟩ := hp
      exact iht t ht
    | app h a ihh iha => exact .app ihh iha

/-- Resolution has exactly one outcome, whatever the bindings. -/
theorem resolves_iff (s : Store) {t u : Ty} : s.Resolves [] t u ↔ u = s.resolve t := by
  have hb : s.HidesAt [] s.bindings := fun x => by simp
  constructor
  · intro h
    exact h.eq_subst hb
  · intro h
    rw [h]
    exact s.resolves_subst hb t

end Store

/-! ### The number of variables left -/

theorem TyVar.mem_names_firstOfEachName {vs : List TyVar} {x : String} :
    x ∈ (firstOfEachName vs).map (·.name) ↔ x ∈ vs.map (·.name) := by
  induction vs with
  | nil => simp [firstOfEachName]
  | cons v vs ih =>
    simp only [List.mem_map] at ih
    by_cases hx : x = v.name
    · simp [firstOfEachName, hx]
    · have hne : v.name ≠ x := fun h => hx h.symm
      simp only [firstOfEachName, List.map_cons, List.mem_cons, hx, false_or, List.mem_map,
        List.mem_filter, ← ih]
      constructor
      · intro hfirst
        obtain ⟨w, ⟨hw, -⟩, hname⟩ := hfirst
        exact ⟨w, hw, hname⟩
      · intro hany
        obtain ⟨w, hw, hname⟩ := hany
        have hkept : w.name ≠ v.name := hname ▸ hx
        exact ⟨w, ⟨hw, by simpa using hkept⟩, hname⟩

theorem TyVar.nodup_names_firstOfEachName (vs : List TyVar) :
    ((firstOfEachName vs).map (·.name)).Nodup := by
  induction vs with
  | nil => simp [firstOfEachName]
  | cons v vs ih =>
    rw [firstOfEachName, List.map_cons, List.nodup_cons]
    constructor
    · simp
    · exact ih.sublist (List.filter_sublist.map _)

theorem TyVar.length_firstOfEachName (vs : List TyVar) :
    (firstOfEachName vs).length = (vs.map (·.name)).toFinset.card := by
  have hset : (vs.map (·.name)).toFinset = ((firstOfEachName vs).map (·.name)).toFinset := by
    ext x
    rw [List.mem_toFinset, List.mem_toFinset, mem_names_firstOfEachName]
  rw [hset, List.toFinset_card_of_nodup (nodup_names_firstOfEachName vs), List.length_map]

namespace Store

/-- The names of the variables left in the resolved equations. -/
def leftNames (s : Store) (eqs : List Equation) : Finset String :=
  ((eqs.flatMap fun (e, a) => (s.resolve e).vars ++ (s.resolve a).vars).map (·.name)).toFinset

theorem mem_leftNames {s : Store} {eqs : List Equation} {x : String} :
    x ∈ s.leftNames eqs ↔ s.Mentions eqs x := by
  simp only [leftNames, List.mem_toFinset, List.map_flatMap, List.mem_flatMap, List.map_append,
    List.mem_append]
  rfl

theorem width_eq_card (s : Store) (eqs : List Equation) : s.width eqs = (s.leftNames eqs).card :=
  TyVar.length_firstOfEachName _

theorem width_le_of_mentions {s s' : Store} {eqs eqs' : List Equation}
    (h : ∀ x, s'.Mentions eqs' x → s.Mentions eqs x) : s'.width eqs' ≤ s.width eqs := by
  rw [width_eq_card, width_eq_card]
  apply Finset.card_le_card
  intro x hx
  exact mem_leftNames.2 (h x (mem_leftNames.1 hx))

theorem width_lt_of_mentions {s s' : Store} {eqs eqs' : List Equation} {y : String}
    (h : ∀ x, s'.Mentions eqs' x → x ≠ y ∧ s.Mentions eqs x) (hy : s.Mentions eqs y) :
    s'.width eqs' < s.width eqs := by
  rw [width_eq_card, width_eq_card]
  apply Finset.card_lt_card
  rw [Finset.ssubset_iff_of_subset]
  · exact ⟨y, mem_leftNames.2 hy, fun hmem => (h y (mem_leftNames.1 hmem)).1 rfl⟩
  · intro x hx
    exact mem_leftNames.2 (h x (mem_leftNames.1 hx)).2

/-! ### The size of the equations -/

theorem weight_append (s : Store) (front back : List Equation) :
    s.weight (front ++ back) = s.weight front + s.weight back := by
  induction front with
  | nil => simp [weight]
  | cons eq front ih => simp only [List.cons_append, weight, ih, Nat.add_assoc]

theorem weight_le_totalSize {s : Store} {eqs : List Equation}
    (h : ∀ eq ∈ eqs, (s.resolve eq.1).size ≤ eq.1.size ∧ (s.resolve eq.2).size ≤ eq.2.size) :
    s.weight eqs ≤ Equation.totalSize eqs := by
  induction eqs with
  | nil => exact Nat.le_refl _
  | cons eq eqs ih =>
    obtain ⟨he, ha⟩ := h eq List.mem_cons_self
    have htail := ih fun q hq => h q (List.mem_cons_of_mem eq hq)
    simp only [weight, Equation.totalSize]
    omega

theorem size_resolve_le_of_unbound {s : Store} {t : Ty}
    (h : ∀ x ∈ t.names, s.bindings[x]? = none) : (s.resolve t).size ≤ t.size := by
  rw [resolve_of_unbound s h]
  exact Ty.size_subst_le fun v _ => Nat.le_refl 1

theorem Acyclic.weight_split {s : Store} {e a : Ty} {eqs parts : List Equation} (hs : s.Acyclic)
    (hread : Reading.of (s.resolve e) (s.resolve a) = .split parts) :
    s.weight (parts ++ eqs) < s.weight ((e, a) :: eqs) := by
  have hparts : s.weight parts ≤ Equation.totalSize parts := by
    apply weight_le_totalSize
    intro eq heq
    exact ⟨size_resolve_le_of_unbound fun x hx => hs.unbound_of_split hread heq (.inl hx),
      size_resolve_le_of_unbound fun x hx => hs.unbound_of_split hread heq (.inr hx)⟩
  have hsmaller := (Reading.splits_of hread).smaller
  rw [weight_append, weight]
  omega

theorem Binds.size_resolve_le {s s' : Store} {x : String} {t : Ty} (h : s.Binds x t s')
    (hs : s.Acyclic) (ht : t.isVar = true) (u : Ty) : (s'.resolve u).size ≤ (s.resolve u).size := by
  obtain ⟨w, rfl⟩ : ∃ w, t = .var w := by
    cases t with
    | var w => exact ⟨w, rfl⟩
    | fn a r => cases ht
    | sum c ts => cases ht
    | app g a => cases ht
  rw [h.resolve_eq hs u]
  apply Ty.size_subst_le
  intro v _
  split <;> exact Nat.le_refl 1

theorem Binds.weight_le {s s' : Store} {x : String} {t : Ty} (h : s.Binds x t s')
    (hs : s.Acyclic) (ht : t.isVar = true) (eqs : List Equation) :
    s'.weight eqs ≤ s.weight eqs := by
  induction eqs with
  | nil => exact Nat.le_refl _
  | cons eq eqs ih =>
    have he := h.size_resolve_le hs ht eq.1
    have ha := h.size_resolve_le hs ht eq.2
    simp only [weight]
    omega

theorem Acyclic.width_bind {s s' : Store} {e a t : Ty} {v : TyVar} {eqs : List Equation}
    (hs : s.Acyclic) (hread : Reading.of (s.resolve e) (s.resolve a) = .bind v t)
    (hbind : s.bind v t = .ok s') : s'.width eqs < s.width ((e, a) :: eqs) := by
  apply width_lt_of_mentions
  · intro x hx
    obtain ⟨hne, hx⟩ := (hs.binds hread hbind).mentions hs hx
    refine ⟨hne, mentions_cons.2 ?_⟩
    rcases hx with hx | hx
    · exact .inr hx
    · exact .inl (mentions_bind hread (.inr hx))
  · exact mentions_cons.2 (.inl (mentions_bind hread (.inl rfl)))

/-! ### Budgets are never spent -/

theorem Acyclic.solving_solveWithin {next : List Equation → Store → Solved} {m : Nat}
    (hnext : ∀ (eqs : List Equation) (s : Store), s.Acyclic → s.width eqs < m →
      Solving eqs s (next eqs s).1 (next eqs s).2) (n : Nat) :
    ∀ (eqs : List Equation) (s : Store), s.Acyclic → s.weight eqs ≤ n → s.width eqs ≤ m →
      Solving eqs s (solveWithin next n eqs s).1 (solveWithin next n eqs s).2 := by
  induction n with
  | zero =>
    intro eqs s hs hweight hwidth
    match eqs with
    | [] => exact .done s
    | (e, a) :: eqs =>
      have hpos := (s.resolve e).size_pos
      rw [weight] at hweight
      omega
  | succ n ih =>
    intro eqs s hs hweight hwidth
    match eqs with
    | [] => exact .done s
    | (e, a) :: eqs =>
      have hpos := (s.resolve e).size_pos
      have htail : s.weight eqs ≤ n := by
        rw [weight] at hweight
        omega
      have hwidth' : s.width eqs ≤ m :=
        (width_le_of_mentions fun x hx => mentions_cons.2 (.inr hx)).trans hwidth
      rw [solveWithin]
      cases hread : Reading.of (s.resolve e) (s.resolve a) with
      | agree => exact .agree hread (ih eqs s hs htail hwidth')
      | clash => exact .clash hread
      | split parts =>
        have hlt : s.weight (parts ++ eqs) < s.weight ((e, a) :: eqs) := hs.weight_split hread
        have hle : s.width (parts ++ eqs) ≤ s.width ((e, a) :: eqs) :=
          width_le_of_mentions fun x hx => hs.mentions_split hread hx
        exact .split hread (ih (parts ++ eqs) s hs (by omega) (hle.trans hwidth))
      | bind v t =>
        dsimp only
        cases hbind : s.bind v t with
        | error err => exact .loop hread hbind
        | ok s₁ =>
          have hbinds := hs.binds hread hbind
          have hlt : s₁.width eqs < s.width ((e, a) :: eqs) := hs.width_bind hread hbind
          refine .bind hread hbind ?_
          dsimp only
          by_cases ht : t.isVar = true
          · have hle := hbinds.weight_le hs ht eqs
            rw [if_pos ht]
            exact ih eqs s₁ (hbinds.acyclic hs) (hle.trans htail) (by omega)
          · rw [if_neg ht]
            exact hnext eqs s₁ (hbinds.acyclic hs) (by omega)

theorem Acyclic.solving_solveBinding (m : Nat) :
    ∀ (eqs : List Equation) (s : Store), s.Acyclic → s.width eqs ≤ m →
      Solving eqs s (solveBinding m eqs s).1 (solveBinding m eqs s).2 := by
  induction m with
  | zero =>
    intro eqs s hs hwidth
    exact solving_solveWithin (fun _ _ _ h => absurd h (Nat.not_lt_zero _)) _ eqs s hs le_rfl hwidth
  | succ m ih =>
    intro eqs s hs hwidth
    exact solving_solveWithin (fun eqs s hs h => ih eqs s hs (Nat.lt_succ_iff.1 h)) _ eqs s hs
      le_rfl hwidth

theorem Acyclic.solving_solve {s : Store} (hs : s.Acyclic) (eqs : List Equation) :
    Solving eqs s (s.solve eqs).1 (s.solve eqs).2 :=
  solving_solveBinding _ eqs s hs le_rfl

end Store

/-! ### The recursion of unification -/

mutual

/-- Unifying two types, one of them expected and the other actual, ends with an outcome: both are
resolved and compared, and parts that have to be equal are unified in the same way. -/
inductive Unifies : Store → Ty → Ty → Except UnifyError Ty → Store → Prop
  | agree {s : Store} {e a : Ty} (hread : Reading.of (s.resolve e) (s.resolve a) = .agree) :
      Unifies s e a (.ok (s.resolve e)) s
  | bind {s s' : Store} {e a t : Ty} {v : TyVar}
      (hread : Reading.of (s.resolve e) (s.resolve a) = .bind v t) (hbind : s.bind v t = .ok s') :
      Unifies s e a (.ok t) s'
  | loop {s : Store} {e a t : Ty} {v : TyVar} {err : UnifyError}
      (hread : Reading.of (s.resolve e) (s.resolve a) = .bind v t)
      (hbind : s.bind v t = .error err) : Unifies s e a (.error err) s
  | clash {s : Store} {e a : Ty} (hread : Reading.of (s.resolve e) (s.resolve a) = .clash) :
      Unifies s e a (.error (.mismatch (s.resolve e) (s.resolve a))) s
  | split {s s' : Store} {e a : Ty} {parts : List Equation}
      (hread : Reading.of (s.resolve e) (s.resolve a) = .split parts)
      (hparts : UnifiesAll s parts (.ok ()) s') :
      Unifies s e a (.ok (s'.resolve (Store.answerSide (s.resolve e) (s.resolve a)))) s'
  | splitFails {s s' : Store} {e a : Ty} {parts : List Equation} {err : UnifyError}
      (hread : Reading.of (s.resolve e) (s.resolve a) = .split parts)
      (hparts : UnifiesAll s parts (.error err) s') : Unifies s e a (.error err) s'

/-- Unifying the two sides of one equation after the other ends with an outcome: the first failure,
or none. -/
inductive UnifiesAll : Store → List Equation → Except UnifyError Unit → Store → Prop
  | done (s : Store) : UnifiesAll s [] (.ok ()) s
  | next {s s₁ s' : Store} {e a t : Ty} {eqs : List Equation} {r : Except UnifyError Unit}
      (hhead : Unifies s e a (.ok t) s₁) (hrest : UnifiesAll s₁ eqs r s') :
      UnifiesAll s ((e, a) :: eqs) r s'
  | fails {s s' : Store} {e a : Ty} {eqs : List Equation} {err : UnifyError}
      (hhead : Unifies s e a (.error err) s') : UnifiesAll s ((e, a) :: eqs) (.error err) s'

end

mutual

theorem Unifies.unique {s s₁ s₂ : Store} {e a : Ty} {r₁ r₂ : Except UnifyError Ty} :
    Unifies s e a r₁ s₁ → Unifies s e a r₂ s₂ → r₁ = r₂ ∧ s₁ = s₂
  | .agree hread, h => by
    cases h <;> simp_all
  | .bind hread hbind, h => by
    cases h <;> simp_all
  | .loop hread hbind, h => by
    cases h <;> simp_all
  | .clash hread, h => by
    cases h <;> simp_all
  | .split hread hparts, h => by
    cases h with
    | split hread' hparts' =>
      obtain rfl := Reading.split.inj (hread.symm.trans hread')
      obtain ⟨-, rfl⟩ := hparts.unique hparts'
      exact ⟨rfl, rfl⟩
    | splitFails hread' hparts' =>
      obtain rfl := Reading.split.inj (hread.symm.trans hread')
      cases (hparts.unique hparts').1
    | _ => simp_all
  | .splitFails hread hparts, h => by
    cases h with
    | split hread' hparts' =>
      obtain rfl := Reading.split.inj (hread.symm.trans hread')
      cases (hparts.unique hparts').1
    | splitFails hread' hparts' =>
      obtain rfl := Reading.split.inj (hread.symm.trans hread')
      obtain ⟨heq, rfl⟩ := hparts.unique hparts'
      exact ⟨by cases heq; rfl, rfl⟩
    | _ => simp_all

theorem UnifiesAll.unique {s s₁ s₂ : Store} {eqs : List Equation} {r₁ r₂ : Except UnifyError Unit} :
    UnifiesAll s eqs r₁ s₁ → UnifiesAll s eqs r₂ s₂ → r₁ = r₂ ∧ s₁ = s₂
  | .done s, h => by
    cases h
    exact ⟨rfl, rfl⟩
  | .next hhead hrest, h => by
    cases h with
    | next hhead' hrest' =>
      obtain ⟨-, rfl⟩ := hhead.unique hhead'
      exact hrest.unique hrest'
    | fails hhead' => cases (hhead.unique hhead').1
  | .fails hhead, h => by
    cases h with
    | next hhead' hrest' => cases (hhead.unique hhead').1
    | fails hhead' =>
      obtain ⟨heq, rfl⟩ := hhead.unique hhead'
      exact ⟨by cases heq; rfl, rfl⟩

end

theorem UnifiesAll.append_cases {front back : List Equation} {s s' : Store}
    {r : Except UnifyError Unit} (h : UnifiesAll s (front ++ back) r s') :
    (∃ s₁, UnifiesAll s front (.ok ()) s₁ ∧ UnifiesAll s₁ back r s') ∨
      ∃ err, r = .error err ∧ UnifiesAll s front (.error err) s' := by
  induction front generalizing s with
  | nil => exact .inl ⟨s, .done s, h⟩
  | cons eq front ih =>
    cases h with
    | next hhead hrest =>
      rcases ih hrest with ⟨s₂, hfront, hback⟩ | ⟨err, rfl, hfront⟩
      · exact .inl ⟨s₂, .next hhead hfront, hback⟩
      · exact .inr ⟨err, rfl, .next hhead hfront⟩
    | fails hhead => exact .inr ⟨_, rfl, .fails hhead⟩

/-- Working through a list of equations, with parts put in front of it, is the recursion on parts. -/
theorem Solving.unifiesAll {eqs : List Equation} {s s' : Store} {r : Except UnifyError Unit}
    (h : Solving eqs s r s') : UnifiesAll s eqs r s' := by
  induction h with
  | done s => exact .done s
  | agree hread hrest ih => exact .next (.agree hread) ih
  | split hread hrest ih =>
    rcases ih.append_cases with ⟨s₁, hparts, hrest⟩ | ⟨err, rfl, hparts⟩
    · exact .next (.split hread hparts) hrest
    · exact .fails (.splitFails hread hparts)
  | bind hread hbind hrest ih => exact .next (.bind hread hbind) ih
  | loop hread hbind => exact .fails (.loop hread hbind)
  | clash hread => exact .fails (.clash hread)

/-- Over acyclic bindings a run fails with a mismatch or a circle, and in no other way. -/
theorem Solving.outcome {eqs : List Equation} {s s' : Store} {r : Except UnifyError Unit}
    (h : Solving eqs s r s') (hs : s.Acyclic) :
    r = .ok () ∨ (∃ x y, r = .error (.mismatch x y)) ∨ ∃ v t, r = .error (.circular v t) := by
  induction h with
  | done s => exact .inl rfl
  | agree hread hrest ih => exact ih hs
  | split hread hrest ih => exact ih hs
  | bind hread hbind hrest ih => exact ih ((hs.binds hread hbind).acyclic hs)
  | loop hread hbind =>
    obtain ⟨rfl, -, -⟩ := hs.occurs_of_loop hread hbind
    exact .inr (.inr ⟨_, _, rfl⟩)
  | clash hread => exact .inr (.inl ⟨_, _, rfl⟩)

namespace Store

/-- The answer to an equation between `e` and `a` that was met in `s` and is solved in `s'`. -/
def answer (s s' : Store) (e a : Ty) : Ty :=
  if (s.resolve e).isVar || (s.resolve a).isVar then answerSide (s.resolve e) (s.resolve a)
  else s'.resolve (answerSide (s.resolve e) (s.resolve a))

theorem unify_cases (s : Store) (e a : Ty) :
    (∃ s', s.solve [(e, a)] = (.ok (), s') ∧ s.unify e a = (.ok (s.answer s' e a), s')) ∨
      ∃ err s', s.solve [(e, a)] = (.error err, s') ∧ s.unify e a = (.error err, s') := by
  rw [unify]
  obtain ⟨r, s'⟩ := s.solve [(e, a)]
  cases r with
  | ok u => exact .inl ⟨s', rfl, rfl⟩
  | error err => exact .inr ⟨err, s', rfl, rfl⟩

theorem eq_answer_of_unifies {s s' : Store} {e a t : Ty} (h : Unifies s e a (.ok t) s') :
    t = s.answer s' e a := by
  rw [answer]
  cases h with
  | agree hread =>
    obtain ⟨v, w, he, ha, -⟩ := Reading.of_eq_agree hread
    rw [he, ha]
    rfl
  | bind hread hbind =>
    rcases (Reading.of_eq_bind hread).1 with ⟨he, ha, ht⟩ | ⟨ha, he⟩
    · rw [he, ha]
      cases t with
      | var w => cases ht
      | fn b r => rfl
      | sum c ts => rfl
      | app g b => rfl
    · rw [he, ha]
      cases t <;> rfl
  | split hread hparts =>
    obtain ⟨he, ha⟩ := Reading.isVar_of_split hread
    rw [he, ha]
    rfl

theorem Acyclic.solving_unify {s : Store} (hs : s.Acyclic) (e a : Ty) :
    Solving [(e, a)] s ((s.unify e a).1.map fun _ => ()) (s.unify e a).2 := by
  have hrun := hs.solving_solve [(e, a)]
  rcases s.unify_cases e a with ⟨s', hsolve, hunify⟩ | ⟨err, s', hsolve, hunify⟩
  · rw [hsolve] at hrun
    rw [hunify]
    exact hrun
  · rw [hsolve] at hrun
    rw [hunify]
    exact hrun

theorem acyclic_empty (stem : String) : (empty stem).Acyclic := Bindings.acyclic_empty

theorem Acyclic.acyclic_unify {s : Store} (hs : s.Acyclic) (e a : Ty) :
    (s.unify e a).2.Acyclic :=
  ((hs.solving_unify e a).learns hs).1

theorem Acyclic.unifies_unify {s : Store} (hs : s.Acyclic) (e a : Ty) :
    Unifies s e a (s.unify e a).1 (s.unify e a).2 := by
  have hrun := (hs.solving_unify e a).unifiesAll
  rcases s.unify_cases e a with ⟨s', -, hunify⟩ | ⟨err, s', -, hunify⟩
  · rw [hunify] at hrun ⊢
    cases hrun with
    | next hhead hrest =>
      cases hrest
      rw [eq_answer_of_unifies hhead] at hhead
      exact hhead
  · rw [hunify] at hrun ⊢
    cases hrun with
    | next hhead hrest => cases hrest
    | fails hhead => exact hhead

theorem Acyclic.unify_outcome {s : Store} (hs : s.Acyclic) (e a : Ty) :
    (∃ t, (s.unify e a).1 = .ok t) ∨ (∃ x y, (s.unify e a).1 = .error (.mismatch x y)) ∨
      ∃ v t, (s.unify e a).1 = .error (.circular v t) := by
  have hout := (hs.solving_unify e a).outcome hs
  cases hr : (s.unify e a).1 with
  | ok t => exact .inl ⟨t, rfl⟩
  | error err =>
    rw [hr] at hout
    rcases hout with hout | ⟨x, y, hout⟩ | ⟨v, t, hout⟩
    · cases hout
    · cases hout
      exact .inr (.inl ⟨x, y, rfl⟩)
    · cases hout
      exact .inr (.inr ⟨v, t, rfl⟩)

/-- The recursion of resolution ends for every store, and that of unification for every store with
acyclic bindings; their only outcomes are what `resolve` and `unify` answer. Unification never gives
up: it answers a type, a mismatch or a circle. -/
theorem resolution_and_unification_end (s : Store) :
    (∀ t u : Ty, s.Resolves [] t u ↔ u = s.resolve t) ∧
      (s.Acyclic → ∀ e a : Ty,
        (∀ r s', Unifies s e a r s' ↔ (r, s') = s.unify e a) ∧
          ((∃ t, (s.unify e a).1 = .ok t) ∨ (∃ x y, (s.unify e a).1 = .error (.mismatch x y)) ∨
            ∃ v t, (s.unify e a).1 = .error (.circular v t))) := by
  refine ⟨fun t u => s.resolves_iff, fun hs e a => ⟨fun r s' => ?_, hs.unify_outcome e a⟩⟩
  constructor
  · intro h
    obtain ⟨hr, hs'⟩ := h.unique (hs.unifies_unify e a)
    exact Prod.ext hr hs'
  · intro h
    have hunify := hs.unifies_unify e a
    rw [← h] at hunify
    exact hunify

/-- With `f` bound to `Maybe`, the recursion on `f a -> Int` and `Maybe Bool -> Bool` ends at the
results, after `a` was bound. -/
theorem recursion_ends_in_mismatch :
    let s := ((empty "t").unify (.var (.ofName "f")) (.sum (.unqualified "Maybe") [])).2
    let int : Ty := .sum (.unqualified "Int") []
    let bool : Ty := .sum (.unqualified "Bool") []
    let e : Ty := .fn (.app (.var (.ofName "f")) (.var (.ofName "a"))) int
    let a : Ty := .fn (.sum (.unqualified "Maybe") [bool]) bool
    s.Acyclic ∧ Unifies s e a (.error (.mismatch int bool)) (s.unify e a).2 := by
  have hs := (acyclic_empty "t").acyclic_unify (.var (.ofName "f"))
    (.sum (.unqualified "Maybe") [])
  exact ⟨hs, (((resolution_and_unification_end _).2 hs _ _).1 _ _).2 (Prod.ext rfl rfl)⟩

end Store

end TypeEngine
