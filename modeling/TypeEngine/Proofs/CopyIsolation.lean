import Mathlib.GroupTheory.Perm.ViaEmbedding
import TypeEngine.Proofs.Freshness
import TypeEngine.Proofs.Renaming

/-! # Copies do not interfere

A type that is instantiated twice has two copies that differ in their fresh variables alone. What one
of them is unified with later does not reach the other, nor the type itself: unification touches only
variables that are left in the two resolved types (`Acyclic.unify_untouched`), and none of those is
shared but the fixed ones. -/

namespace TypeEngine

namespace Store

/-! ### The footprint of unification -/

theorem getElem?_demands_add {d : Demands} {name x : String} (classes : SymbolSet) (h : x ≠ name) :
    (d.add name classes)[x]? = d[x]? := by
  rw [Demands.add, Std.ExtTreeMap.getElem?_insert]
  simp [Ne.symm h]

theorem getElem?_demandsAfterBinding {s : Store} {v : TyVar} {t : Ty} {x : String}
    (hv : x ≠ v.name) (ht : x ∉ t.names) : (s.demandsAfterBinding v t)[x]? = s.demands[x]? := by
  unfold demandsAfterBinding
  dsimp only
  split
  · rfl
  · cases t with
    | var w =>
      have hw : x ≠ w.name := by simpa [Ty.names_var] using ht
      rw [Ty.asVar?, getElem?_demands_add _ hw, getElem?_demands_add _ hv]
    | fn a r => exact getElem?_demands_add _ hv
    | sum c ts => exact getElem?_demands_add _ hv
    | app g a => exact getElem?_demands_add _ hv

theorem bind_untouched {s s' : Store} {v : TyVar} {t : Ty} (h : s.bind v t = .ok s') {x : String}
    (hv : x ≠ v.name) (ht : x ∉ t.names) :
    s'.bindings[x]? = s.bindings[x]? ∧ s'.demands[x]? = s.demands[x]? := by
  unfold bind at h
  split at h
  · cases h
    exact ⟨rfl, rfl⟩
  · split at h
    · cases h
    · cases h
      refine ⟨?_, getElem?_demandsAfterBinding hv ht⟩
      rw [Bindings.lookup_insert, if_neg hv]

end Store

theorem Solving.untouched {eqs : List Equation} {s s' : Store} {r : Except UnifyError Unit}
    (h : Solving eqs s r s') (hs : s.Acyclic) {x : String} (hx : ¬ s.Mentions eqs x) :
    s'.bindings[x]? = s.bindings[x]? ∧ s'.demands[x]? = s.demands[x]? := by
  induction h with
  | done s => exact ⟨rfl, rfl⟩
  | agree hread hrest ih => exact ih hs fun h => hx (Store.mentions_cons.2 (.inr h))
  | split hread hrest ih => exact ih hs fun h => hx (hs.mentions_split hread h)
  | @bind e a t v eqs s s₁ s' r hread hbind hrest ih =>
    have hbinds := hs.binds hread hbind
    have hhead : ∀ y, y = v.name ∨ y ∈ t.names → s.Mentions ((e, a) :: eqs) y := fun y hy =>
      Store.mentions_cons.2 (.inl (Store.Acyclic.mentions_bind hread hy))
    obtain ⟨hb, hd⟩ := Store.bind_untouched hbind (fun h => hx (hhead x (.inl h)))
      fun h => hx (hhead x (.inr h))
    have hrest' : ¬ s₁.Mentions eqs x := by
      intro hm
      rcases (hbinds.mentions hs hm).2 with hm | hm
      · exact hx (Store.mentions_cons.2 (.inr hm))
      · exact hx (hhead x (.inr hm))
    obtain ⟨hb', hd'⟩ := ih (hbinds.acyclic hs) hrest'
    exact ⟨hb'.trans hb, hd'.trans hd⟩
  | loop hread hbind => exact ⟨rfl, rfl⟩
  | clash hread => exact ⟨rfl, rfl⟩

namespace Store

theorem Acyclic.unify_untouched {s : Store} (hs : s.Acyclic) {e a : Ty} {x : String}
    (he : x ∉ (s.resolve e).names) (ha : x ∉ (s.resolve a).names) :
    (s.unify e a).2.bindings[x]? = s.bindings[x]? ∧
      (s.unify e a).2.demands[x]? = s.demands[x]? := by
  refine (hs.solving_unify e a).untouched hs ?_
  rintro ⟨eq, heq, hx⟩
  obtain rfl := List.mem_singleton.1 heq
  exact hx.elim he ha

/-! ### What does not depend on the counter -/

theorem resolve_instantiate (s : Store) (t u : Ty) :
    (s.instantiate t).2.resolve u = s.resolve u :=
  resolve_congr (by rfl) (by rfl) u

theorem fixedNames_instantiate (s : Store) (t : Ty) :
    (s.instantiate t).2.fixedNames = s.fixedNames := by
  simp only [fixedNames, resolve_instantiate]
  rfl

theorem genericVars_instantiate (s : Store) (t u : Ty) :
    (s.instantiate t).2.genericVars u = s.genericVars u := by
  simp only [genericVars, isGeneric, fixedNames_instantiate]

/-! ### Exchanging the fresh variables of two copies -/

/-- The name is no fresh name that is still to come. -/
def Behind (s : Store) (x : String) : Prop := ∀ n, x = s.freshName n → n < s.counter

/-- Exchanges the `k` numbers from `c` on with the `k` numbers after them. -/
def exchangeBlocks (c k n : Nat) : Nat :=
  if n < c then n else if n < c + k then n + k else if n < c + k + k then n - k else n

theorem exchangeBlocks_involutive (c k : Nat) : Function.Involutive (exchangeBlocks c k) := by
  intro n
  unfold exchangeBlocks
  split_ifs <;> omega

/-- Exchanges the next `k` fresh names with the `k` after them. -/
noncomputable def exchangeFresh (s : Store) (k : Nat) : Equiv.Perm String :=
  (exchangeBlocks_involutive s.counter k).toPerm.viaEmbedding ⟨s.freshName, s.freshName_injective⟩

theorem exchangeFresh_freshName (s : Store) (k n : Nat) :
    s.exchangeFresh k (s.freshName n) = s.freshName (exchangeBlocks s.counter k n) :=
  Equiv.Perm.viaEmbedding_apply _ ⟨s.freshName, s.freshName_injective⟩ n

theorem exchangeFresh_of_behind {s : Store} {x : String} (h : s.Behind x) (k : Nat) :
    s.exchangeFresh k x = x := by
  by_cases hx : ∃ n, s.freshName n = x
  · obtain ⟨n, rfl⟩ := hx
    rw [exchangeFresh_freshName, exchangeBlocks, if_pos (h n rfl)]
  · exact Equiv.Perm.viaEmbedding_apply_of_notMem _ _ x hx

/-- A variable of a type is fixed, or it is one of the generic ones. -/
theorem fixed_or_generic (s : Store) {t : Ty} {v : TyVar} (hv : v ∈ t.vars) :
    v.name ∈ s.fixedNames ∨
      ∃ (i : Nat) (hi : i < (s.genericVars t).length), v.name = (s.genericVars t)[i].name := by
  by_cases hfixed : v.name ∈ s.fixedNames
  · exact .inl hfixed
  · have hmem := mem_genericNames.2 ⟨Ty.mem_names.2 ⟨v, hv, rfl⟩, hfixed⟩
    obtain ⟨i, hi, hname⟩ := List.getElem_of_mem hmem
    rw [List.length_map] at hi
    exact .inr ⟨i, hi, by simpa using hname.symm⟩

theorem fixed_or_created (s : Store) {t : Ty} {x : String} (h : x ∈ (s.instantiate t).1.names) :
    x ∈ s.fixedNames ∧ x ∈ (s.resolve t).names ∨ x ∈ s.created (.instantiate t) := by
  obtain ⟨v, hv, hx⟩ := Ty.mem_names_subst.1 h
  rw [Ty.names_var, List.mem_singleton] at hx
  subst hx
  rcases s.fixed_or_generic hv with hfixed | ⟨i, hi, hname⟩
  · rw [s.freshen_of_fixed hfixed]
    exact .inl ⟨hfixed, Ty.mem_names.2 ⟨v, hv, rfl⟩⟩
  · refine .inr (List.mem_map.2 ⟨_, List.getElem_mem hi, ?_⟩)
    have hnodup := s.nodup_genericVars (s.resolve t)
    rw [s.freshen_getElem hnodup hi hname, s.freshen_getElem hnodup hi rfl]

/-- The second of two copies is the first with the fresh variables exchanged. -/
theorem instantiate_again (s : Store) (t : Ty)
    (hfixed : ∀ x ∈ s.fixedNames, s.Behind x) :
    ((s.instantiate t).2.instantiate t).1 =
      (s.instantiate t).1.rename (s.exchangeFresh (s.genericVars (s.resolve t)).length) := by
  show (((s.instantiate t).2.resolve t).subst _) = Ty.rename _ (Ty.subst _ _)
  rw [Ty.rename, Ty.subst_subst, resolve_instantiate, genericVars_instantiate]
  apply Ty.subst_congr
  intro v hv
  have hnodup := s.nodup_genericVars (s.resolve t)
  rcases s.fixed_or_generic hv with hmem | ⟨i, hi, hname⟩
  · have hmem' : v.name ∈ (s.instantiate t).2.fixedNames := by
      rw [fixedNames_instantiate]
      exact hmem
    have hstays := (s.instantiate t).2.freshen_of_fixed (t := s.resolve t) hmem'
    rw [genericVars_instantiate] at hstays
    rw [hstays, s.freshen_of_fixed hmem, Ty.subst, exchangeFresh_of_behind (hfixed _ hmem)]
  · rw [s.freshen_getElem hnodup hi hname, (s.instantiate t).2.freshen_getElem hnodup hi hname,
      Ty.subst, exchangeFresh_freshName]
    have hnumber : exchangeBlocks s.counter (s.genericVars (s.resolve t)).length (s.counter + i) =
        s.counter + (s.genericVars (s.resolve t)).length + i := by
      unfold exchangeBlocks
      split_ifs <;> omega
    rw [hnumber]
    rfl

/-! ### Isolation -/

theorem Behind.not_mem_created {s : Store} {x : String} (h : s.Behind x) (c : Call) :
    x ∉ s.created c := by
  intro hx
  obtain ⟨n, hn, hle, -⟩ := exists_number_of_mem_created hx
  have hlt := h n hn
  omega

theorem behind_instantiate {s : Store} {t : Ty} {x : String}
    (h : s.Behind x ∨ x ∈ s.created (.instantiate t)) : (s.instantiate t).2.Behind x := by
  have hcounter : (s.instantiate t).2.counter = s.counter + (s.created (.instantiate t)).length :=
    congrArg Prod.snd (s.supply_call (.instantiate t))
  intro n hn
  rw [hcounter]
  rcases h with h | h
  · have hlt := h n hn
    omega
  · obtain ⟨m, hm, -, hlt⟩ := exists_number_of_mem_created h
    have hmn : m = n := s.freshName_injective (hm.symm.trans hn)
    omega

theorem Acyclic.unbound_of_mem_copy {s : Store} (hs : s.Acyclic) (hstore : s.Within s.Behind)
    {t : Ty} {x : String} (hx : x ∈ (s.instantiate t).1.names) : s.bindings[x]? = none := by
  rcases s.fixed_or_created hx with ⟨-, hx⟩ | hx
  · exact hs.unbound_of_mem hx
  · refine Std.ExtTreeMap.getElem?_eq_none fun hbound => ?_
    exact (hstore.bound x hbound).not_mem_created _ hx

/-- Two copies of a type, made one after the other in a store that holds no fresh name still to come,
are the same up to a bijection of names that keeps the fixed ones, and share only fixed ones. Unifying
the first copy with a type that stands for none of the generic variables and none of the second copy's
fresh ones, on either side and however it ends, leaves these unbound and records nothing for them. -/
theorem instantiate_twice_isolated {s : Store} {t : Ty} (hs : s.Acyclic)
    (hstore : ∀ x, s.Knows x → s.Behind x) (ht : ∀ x ∈ t.names, s.Behind x) :
    let c₁ := (s.instantiate t).1
    let s₁ := (s.instantiate t).2
    let c₂ := (s₁.instantiate t).1
    let s₂ := (s₁.instantiate t).2
    let apart := fun x =>
      x ∈ (s.resolve t).names ∧ s.isGeneric x = true ∨ x ∈ s₁.created (.instantiate t)
    (∃ ρ : Equiv.Perm String, c₂ = c₁.rename ρ ∧ ∀ x ∈ s.fixedNames, ρ x = x) ∧
      (∀ x ∈ c₁.names, x ∈ c₂.names → x ∈ s.fixedNames) ∧
      ∀ u : Ty, (∀ x ∈ (s₂.resolve u).names, ¬ apart x) → ∀ x, apart x →
        ∀ s' ∈ [(s₂.unify c₁ u).2, (s₂.unify u c₁).2],
          s'.bindings[x]? = none ∧ s'.demands[x]? = s.demands[x]? := by
  intro c₁ s₁ c₂ s₂ apart
  have hwithin : s.Within s.Behind := within_iff.2 hstore
  have hresolved : (s.resolve t).Within s.Behind := hwithin.resolve ht
  refine ⟨⟨_, s.instantiate_again t hwithin.fixedNames, ?_⟩, ?_, ?_⟩
  · exact fun x hx => exchangeFresh_of_behind (hwithin.fixedNames x hx) _
  · intro x hx₁ hx₂
    rcases s.fixed_or_created hx₁ with ⟨hfixed, -⟩ | hx₁
    · exact hfixed
    · rcases s₁.fixed_or_created hx₂ with ⟨hfixed, -⟩ | hx₂
      · exact s.fixedNames_instantiate t ▸ hfixed
      · exact absurd hx₂ ((behind_instantiate (.inr hx₁)).not_mem_created _)
  · intro u hu x hx
    have hunbound : ∀ y ∈ c₁.names, s₂.bindings[y]? = none := fun y hy =>
      hs.unbound_of_mem_copy hwithin hy
    have hcopy : x ∉ c₁.names ∧ s₂.bindings[x]? = none := by
      rcases hx with ⟨hmem, hgeneric⟩ | hcreated
      · refine ⟨fun hx => ?_, hs.unbound_of_mem hmem⟩
        rcases s.fixed_or_created hx with ⟨hfixed, -⟩ | hx
        · simp [isGeneric, hfixed] at hgeneric
        · exact (hresolved x hmem).not_mem_created _ hx
      · refine ⟨fun hx => ?_, Std.ExtTreeMap.getElem?_eq_none fun hbound => ?_⟩
        · have hbehind : s₁.Behind x := behind_instantiate <|
            (s.fixed_or_created hx).imp_left fun h => hwithin.fixedNames x h.1
          exact hbehind.not_mem_created _ hcreated
        · exact (behind_instantiate (.inl (hwithin.bound x hbound))).not_mem_created _ hcreated
    have hfirst : x ∉ (s₂.resolve c₁).names := fun h =>
      hcopy.1 ((mem_names_resolve_of_unbound hunbound).1 h)
    have hother : x ∉ (s₂.resolve u).names := fun h => hu x h hx
    have hs₂ : s₂.Acyclic := hs
    intro s' hs'
    rcases List.mem_pair.1 hs' with rfl | rfl
    · obtain ⟨hb, hd⟩ := hs₂.unify_untouched hfirst hother
      exact ⟨hb.trans hcopy.2, hd⟩
    · obtain ⟨hb, hd⟩ := hs₂.unify_untouched hother hfirst
      exact ⟨hb.trans hcopy.2, hd⟩

/-- With `m` pinned, `Num` demanded of `a` and `g` bound to `Maybe a`, the type `g -> m -> a` is copied
twice. Unifying the first copy with `Maybe Bool -> Maybe x -> Int` binds `t0` and `m` before it fails;
`a` and the `t1` of the second copy are as they were. -/
theorem instantiate_twice_isolated_failure :
    let num : Symbol := .unqualified "Num"
    let maybe := fun u => Ty.sum (.unqualified "Maybe") [u]
    let bool : Ty := .sum (.unqualified "Bool") []
    let int : Ty := .sum (.unqualified "Int") []
    let m : Ty := .var (.ofName "m")
    let a : Ty := .var (.ofName "a")
    let g : Ty := .var (.ofName "g")
    let t : Ty := .fn g (.fn m a)
    let u : Ty := .fn (maybe bool) (.fn (maybe (.var (.ofName "x"))) int)
    let s := ((((empty "t").pin m).2.demand a {num}).unify g (maybe a)).2
    let s₂ := ((s.instantiate t).2.instantiate t).2
    let s' := (s₂.unify (s.instantiate t).1 u).2
    s.Acyclic ∧ (∀ x, s.Knows x → s.Behind x) ∧ (∀ x ∈ t.names, s.Behind x) ∧
      (s.instantiate t).1 =
        .fn (maybe (.var ⟨"t0", {num}⟩)) (.fn m (.var ⟨"t0", {num}⟩)) ∧
      (s₂.unify (s.instantiate t).1 u).1 = .error (.mismatch bool int) ∧
      s'.isBound "t0" = true ∧ s'.isBound "m" = true ∧
      (s'.bindings["a"]? = none ∧ s'.demands["a"]? = some {num}) ∧
      s'.bindings["t1"]? = none ∧ s'.demands["t1"]? = none := by
  have hbehind : ∀ x ∈ ["m", "a", "g"], (empty "t").Behind x := by
    intro x hx n hn
    simp only [List.mem_cons, List.not_mem_nil, or_false] at hx
    rcases hx with rfl | rfl | rfl <;> simpa [freshName, empty] using congrArg String.toList hn
  have hpinned : ((empty "t").pin (.var (.ofName "m"))).2.Within (empty "t").Behind :=
    (within_empty _ "t").pin fun x hx => hbehind x (by revert x; decide)
  have hdemanded := hpinned.demand (t := .var (.ofName "a"))
    (fun x hx => hbehind x (by revert x; decide)) {.unqualified "Num"}
  refine ⟨?hs, ?hstore, ?ht, rfl, rfl, by decide +kernel, by decide +kernel,
    (instantiate_twice_isolated ?hs ?hstore ?ht).2.2 _ (by decide +kernel) "a" (by decide +kernel) _
      List.mem_cons_self,
    (instantiate_twice_isolated ?hs ?hstore ?ht).2.2 _ (by decide +kernel) "t1" (by decide +kernel) _
      List.mem_cons_self⟩
  case hs => exact Acyclic.acyclic_unify (by exact acyclic_empty "t") _ _
  case ht => exact fun x hx => hbehind x (by revert x; decide)
  case hstore =>
    have hunified := (hdemanded.call
      (c := .unify (.var (.ofName "g")) (.sum (.unqualified "Maybe") [.var (.ofName "a")]))
      fun x hx => hbehind x (by revert x; decide)).1
    exact within_iff.1 hunified

end Store

end TypeEngine
