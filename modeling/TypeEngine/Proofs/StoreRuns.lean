import TypeEngine.Proofs.Termination
import TypeEngine.Store.Classes
import TypeEngine.Store.Polymorphism

/-! # Runs of a store

Everything that can be asked of a store is a `Call`, and a run is a list of calls. Bindings are written by
unification, which keeps them acyclic also when it fails half way, and by hand. As long as no variable is
bound by hand that is bound already (`BindsUnbound`), bindings stay acyclic, and whatever the store has
learned stays (`Precedes`). One call of unification changes little: it binds variables that are left in the
two resolved types, it may record further demands, and it leaves everything else as it was. -/

namespace TypeEngine

namespace Store

/-! ### Calls -/

/-- Everything that can be asked of a store, queries and bindings made by hand included. -/
inductive Call where
  | reserve (context : SymbolSet)
  | isBound (v : TyVar)
  | target (t : Ty)
  | bind (v : TyVar) (t : Ty)
  | resolve (t : Ty)
  | unify (expected actual : Ty)
  | align (formal actual : Ty)
  | instantiate (t : Ty)
  | pin (t : Ty)
  | unpinType (t : Ty)
  | unpin (names : List String)
  | isGeneric (v : TyVar)
  | demand (t : Ty) (classes : SymbolSet)
  | classesOf (t : Ty)
  | implement (c : Symbol) (head : Ty)
  | implements (c : Symbol) (t : Ty)
  | unsatisfied (t : Ty)

/-- What a store answers. -/
inductive Answer where
  | done
  | truth (holds : Bool)
  | ty (t : Ty)
  | region (names : List String)
  | classes (cs : SymbolSet)
  | positions (pairs : Option (List (Ty × Ty)))
  | missing (instances : List (Symbol × Ty))
  | failure (err : UnifyError)

/-- The answer to a call and the store after it. -/
def call (s : Store) : Call → Answer × Store
  | .reserve context => (.ty (s.reserve context).1, (s.reserve context).2)
  | .isBound v => (.truth (s.isBound v.name), s)
  | .target t => (.ty (s.target t), s)
  | .bind v t =>
    match s.bind v t with
    | .ok s' => (.done, s')
    | .error err => (.failure err, s)
  | .resolve t => (.ty (s.resolve t), s)
  | .unify expected actual =>
    match s.unify expected actual with
    | (.ok t, s') => (.ty t, s')
    | (.error err, s') => (.failure err, s')
  | .align formal actual => (.positions (s.align formal actual), s)
  | .instantiate t => (.ty (s.instantiate t).1, (s.instantiate t).2)
  | .pin t => (.region (s.pin t).1, (s.pin t).2)
  | .unpinType t => (.done, s.unpinType t)
  | .unpin names => (.done, s.unpin names)
  | .isGeneric v => (.truth (s.isGeneric v.name), s)
  | .demand t classes => (.done, s.demand t classes)
  | .classesOf t => (.classes (s.classesOf t), s)
  | .implement c head => (.done, s.implement c head)
  | .implements c t => (.truth (s.implements c t), s)
  | .unsatisfied t => (.missing (s.unsatisfied t), s)

/-- The store after a sequence of calls; the answers are not looked at. -/
def callAll (s : Store) (calls : List Call) : Store := calls.foldl (fun s c => (s.call c).2) s

/-- Variables are bound by hand only while they are not bound. -/
def BindsUnbound : Store → List Call → Prop
  | _, [] => True
  | s, c :: calls =>
    (∀ v t, c = .bind v t → s.bindings[v.name]? = none) ∧ (s.call c).2.BindsUnbound calls

/-! ### One call of unification -/

theorem snd_call_unify (s : Store) (e a : Ty) : (s.call (.unify e a)).2 = (s.unify e a).2 := by
  simp only [call]
  split <;> rename_i h <;> rw [h]

theorem mentions_singleton {s : Store} {e a : Ty} {x : String} :
    s.Mentions [(e, a)] x ↔ x ∈ (s.resolve e).names ∨ x ∈ (s.resolve a).names := by
  simp [Mentions]

theorem Acyclic.learns_unify {s : Store} (hs : s.Acyclic) (e a : Ty) :
    s.Learns (fun x => x ∈ (s.resolve e).names ∨ x ∈ (s.resolve a).names) (s.unify e a).2 :=
  ((hs.solving_unify e a).learns hs).2.mono fun _ => mentions_singleton.1

theorem Learns.toExtends {s s' : Store} {p : String → Prop} (h : s.Learns p s') : s.Extends s' :=
  ⟨h.kept, h.demands⟩

theorem mem_demands_demand (s : Store) (t : Ty) (classes : SymbolSet) {x : String} {c : Symbol}
    (h : c ∈ s.demands.getD x ∅) : c ∈ (s.demand t classes).demands.getD x ∅ := by
  refine List.foldlRecOn (motive := fun d : Demands => c ∈ d.getD x ∅) _ _ h ?_
  exact fun d hd name _ => Demands.mem_getD_add.2 (.inl hd)

/-! ### What a later store keeps -/

/-- What a later store keeps: bindings, recorded demands and instance heads. -/
structure Precedes (s s' : Store) : Prop extends s.Extends s' where
  acyclic : s'.Acyclic
  heads : ∀ {c : Symbol} {head : Ty}, head ∈ s.heads.getD c [] → head ∈ s'.heads.getD c []

theorem Acyclic.precedes_self {s : Store} (hs : s.Acyclic) : s.Precedes s := ⟨⟨id, id⟩, hs, id⟩

theorem Precedes.trans {s s₁ s' : Store} (h : s.Precedes s₁) (h' : s₁.Precedes s') :
    s.Precedes s' where
  bindings hx := h'.bindings (h.bindings hx)
  demands hc := h'.demands (h.demands hc)
  acyclic := h'.acyclic
  heads hc := h'.heads (h.heads hc)

theorem Acyclic.precedes_bind {s s' : Store} (hs : s.Acyclic) {v : TyVar} {t : Ty}
    (hv : s.bindings[v.name]? = none) (h : s.bind v t = .ok s') : s.Precedes s' := by
  unfold bind at h
  split at h
  · cases h
    exact hs.precedes_self
  · split at h
    · cases h
    · rename_i hloop
      cases h
      refine ⟨⟨fun {x u} hx => ?_, mem_demandsAfterBinding⟩, ?_, id⟩
      · have hne : x ≠ v.name := by
          rintro rfl
          rw [hv] at hx
          cases hx
        simpa only [Bindings.lookup_insert, if_neg hne] using hx
      · refine Bindings.Acyclic.insert hs fun y hy hreach => hloop ?_
        -- a path from `t` to `v` ends at the unbound `v`, so `t` resolves to a type with `v` in it
        have hmem := hs.mem_names_resolve.2 ⟨hv, y, hy, hreach⟩
        rw [wouldLoop, Ty.mentions_iff.2 hmem, Bool.or_true]

theorem Acyclic.precedes_call {s : Store} (hs : s.Acyclic) {c : Call}
    (hc : ∀ v t, c = .bind v t → s.bindings[v.name]? = none) : s.Precedes (s.call c).2 := by
  cases c with
  | bind v t =>
    simp only [call]
    split
    · rename_i hbind
      exact hs.precedes_bind (hc v t rfl) hbind
    · exact hs.precedes_self
  | unify e a =>
    have hlearns := hs.learns_unify e a
    rw [snd_call_unify]
    exact ⟨hlearns.toExtends, hs.acyclic_unify e a, fun hc => hlearns.heads ▸ hc⟩
  | demand t classes => exact ⟨⟨id, s.mem_demands_demand t classes⟩, hs, id⟩
  | implement d head =>
    refine ⟨⟨id, id⟩, hs, fun {c head'} hmem => ?_⟩
    simp only [call, Store.implement, Std.ExtTreeMap.getD_insert]
    split
    · rename_i hd
      rw [Std.LawfulEqCmp.eq_of_compare hd]
      exact List.mem_append_left _ hmem
    · exact hmem
  | _ => exact ⟨⟨id, id⟩, hs, id⟩

theorem Acyclic.precedes_callAll {s : Store} (hs : s.Acyclic) {calls : List Call}
    (h : s.BindsUnbound calls) : s.Precedes (s.callAll calls) := by
  induction calls generalizing s with
  | nil => exact hs.precedes_self
  | cons c calls ih =>
    have hcall := hs.precedes_call h.1
    exact hcall.trans (ih hcall.acyclic h.2)

theorem Acyclic.acyclic_callAll {s : Store} (hs : s.Acyclic) {calls : List Call}
    (h : s.BindsUnbound calls) : (s.callAll calls).Acyclic :=
  (hs.precedes_callAll h).acyclic

/-- In every store reached from the empty one, by calls that bind no bound variable by hand, the bindings are
acyclic, and there a call of unification, however it ends, keeps all bindings, binds unbound variables left in
the two resolved types and no others, takes no recorded demand back, and leaves pins, instances, counter and
stem. -/
theorem callAll_empty_acyclic_and_learns (stem : String) (calls : List Call)
    (h : (empty stem).BindsUnbound calls) :
    let s := (empty stem).callAll calls
    s.Acyclic ∧ ∀ e a : Ty,
      s.Learns (fun x => x ∈ (s.resolve e).names ∨ x ∈ (s.resolve a).names) (s.unify e a).2 := by
  intro s
  have hs : s.Acyclic := (acyclic_empty stem).acyclic_callAll h
  exact ⟨hs, fun e a => hs.learns_unify e a⟩

/-- `w` is bound to `Maybe v` by hand, and `v` by a unification that fails afterwards. A fresh variable is then
unified with `w`. -/
theorem callAll_empty_acyclic_and_learns_after_failure :
    let int := Ty.sum (.unqualified "Int") []
    let bool := Ty.sum (.unqualified "Bool") []
    let v := Ty.var (.ofName "v")
    let w := Ty.var (.ofName "w")
    let t := Ty.var (.ofName "t0")
    let maybe := fun u => Ty.sum (.unqualified "Maybe") [u]
    let calls : List Call :=
      [.bind (.ofName "w") (maybe v), .unify (.fn v v) (.fn int bool), .pin w, .reserve ∅]
    let s := (empty "t").callAll calls
    (empty "t").BindsUnbound calls ∧ s.resolve w = maybe int ∧ s.Acyclic ∧
      s.Learns (fun x => x ∈ (s.resolve t).names ∨ x ∈ (s.resolve w).names) (s.unify t w).2 ∧
      (s.unify t w).2.resolve t = maybe int := by
  refine ⟨?hbinds, by decide +kernel, (callAll_empty_acyclic_and_learns "t" _ ?hbinds).1,
    (callAll_empty_acyclic_and_learns "t" _ ?hbinds).2 _ _, by decide +kernel⟩
  refine ⟨fun _ _ h => ?_, nofun, nofun, nofun, trivial⟩
  cases h
  decide +kernel

end Store

end TypeEngine
