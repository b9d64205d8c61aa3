import TypeEngine.Proofs.ClassRetention
import TypeEngine.Proofs.Symmetry

/-! # Which known instances stay known

The variables of an instance head are variables of the store like all others, so a binding can narrow
what the head covers. A head covers a type without variables if the two line up (`Ty.Fits`). It still
does with other variables in it (`Ty.Fits.mapVars`), but once all of its variables are gone, it covers
a single type (`Ty.Fits.eq_of_ground`). -/

namespace TypeEngine

/-! ### Types that line up -/

namespace Ty

theorem subst_of_ground {t : Ty} (h : t.names = []) (f : TyVar → Ty) : t.subst f = t.flatten := by
  refine subst_congr fun v hv => ?_
  have hmem : v.name ∈ t.names := mem_names.2 ⟨v, hv, rfl⟩
  rw [h] at hmem
  cases hmem

theorem simplify_of_ground {t : Ty} (h : t.names = []) : t.simplify = t.flatten :=
  subst_of_ground h _

theorem names_simplify (t : Ty) : t.simplify.names = t.names :=
  names_mapVars TyVar.bare t

theorem names_flatten (t : Ty) : t.flatten.names = t.names :=
  names_mapVars id t

/-- The formal type lines up with the actual one. -/
def Fits (formal actual : Ty) : Prop := (formal.align actual).isSome = true

theorem fits_var (v : TyVar) (u : Ty) : (Ty.var v).Fits u := by
  rw [Fits, align]
  rfl

theorem fits_fn {a r u : Ty} :
    (Ty.fn a r).Fits u ↔ ∃ b q, u = .fn b q ∧ a.Fits b ∧ r.Fits q := by
  cases u with
  | fn b q =>
    have hparts : (Ty.fn a r).Fits (.fn b q) ↔ a.Fits b ∧ r.Fits q := by
      simp only [Fits, align]
      cases a.align b <;> cases r.align q <;> simp
    simp [hparts]
  | _ => simp [Fits, align]

theorem forall₂_imp_of_mem {R S : Ty → Ty → Prop} {ps qs : List Ty} (h : List.Forall₂ R ps qs)
    (himp : ∀ p ∈ ps, ∀ q ∈ qs, R p q → S p q) : List.Forall₂ S ps qs := by
  obtain ⟨hlength, hzip⟩ := List.forall₂_iff_zip.1 h
  refine List.forall₂_iff_zip.2 ⟨hlength, fun hpq => ?_⟩
  obtain ⟨hp, hq⟩ := List.of_mem_zip hpq
  exact himp _ hp _ hq (hzip hpq)

theorem isSome_alignAll {ps qs : List Ty} :
    (alignAll ps qs).isSome = true ↔ List.Forall₂ Fits ps qs := by
  induction ps generalizing qs with
  | nil => cases qs <;> simp [alignAll]
  | cons p ps ih =>
    cases qs with
    | nil => simp [alignAll]
    | cons q qs =>
      rw [List.forall₂_cons, ← ih, Fits, alignAll]
      cases p.align q <;> cases alignAll ps qs <;> simp

theorem fits_sum {c : Symbol} {ps : List Ty} {u : Ty} :
    (Ty.sum c ps).Fits u ↔
      ∃ d qs, u = .sum d qs ∧
        ((Ty.sum c ps).simplify = (Ty.sum d qs).simplify ∨ c = d ∧ List.Forall₂ Fits ps qs) := by
  cases u with
  | sum d qs =>
    simp only [Fits, align, sum.injEq, ← isSome_alignAll]
    split
    · simp_all
    · split <;> simp_all
  | _ => simp [Fits, align]

theorem fits_app {h a u : Ty} :
    (Ty.app h a).Fits u ↔
      (∃ d qs q, u = .sum d (qs ++ [q]) ∧ h.Fits (.sum d qs) ∧ a.Fits q) ∨
        ∃ g b, u = .app g b ∧ h.Fits g ∧ a.Fits b := by
  cases u with
  | sum d qs =>
    rcases List.eq_nil_or_concat qs with rfl | ⟨init, q, rfl⟩
    · simp [Fits, align]
    · rw [List.concat_eq_append]
      have hparts : (Ty.app h a).Fits (.sum d (init ++ [q])) ↔ h.Fits (.sum d init) ∧ a.Fits q := by
        simp only [Fits, align, List.getLast?_concat, List.dropLast_concat]
        cases h.align (.sum d init) <;> cases a.align q <;> simp
      simp [hparts]
  | app g b =>
    have hparts : (Ty.app h a).Fits (.app g b) ↔ h.Fits g ∧ a.Fits b := by
      simp only [Fits, align]
      cases h.align g <;> cases a.align b <;> simp
    simp [hparts]
  | _ => simp [Fits, align]

theorem names_sum_eq_nil {c : Symbol} {ts : List Ty} :
    (Ty.sum c ts).names = [] ↔ ∀ t ∈ ts, t.names = [] := by
  simp only [List.eq_nil_iff_forall_not_mem, mem_names_sum]
  exact ⟨fun h t ht x hx => h x ⟨t, ht, hx⟩, fun h x ⟨t, ht, hx⟩ => h t ht x hx⟩

theorem Collapsed.param {c : Symbol} {ts : List Ty} (h : (Ty.sum c ts).Collapsed) :
    ∀ t ∈ ts, t.Collapsed := by
  have hflat : Ty.sum c (ts.map flatten) = .sum c (ts.map id) := by
    rw [List.map_id]
    exact (flatten_sum c ts).symm.trans h
  injection hflat with _ hts
  exact List.map_inj_left.1 hts

theorem Collapsed.arg {g a : Ty} (h : (Ty.app g a).Collapsed) : a.Collapsed := by
  have hmap := h.app.2 id
  have hflat : (Ty.app g a).flatten = .app g.flatten a.flatten := hmap
  rw [h] at hflat
  injection hflat with _ ha
  exact ha.symm

/-- Putting other variables into the formal type does not disturb it: each is paired with whatever
stands in its place. -/
theorem Fits.mapVars {t u : Ty} (h : t.Fits u) (ht : t.Collapsed) (hu : u.names = [])
    (f : TyVar → TyVar) : (t.mapVars f).Fits u := by
  induction t generalizing u with
  | var v => exact fits_var _ u
  | fn a r iha ihr =>
    obtain ⟨b, q, rfl, ha, hr⟩ := fits_fn.1 h
    injection ht with hta htr
    rw [names_fn, List.append_eq_nil_iff] at hu
    exact fits_fn.2 ⟨b, q, rfl, iha ha hta hu.1, ihr hr htr hu.2⟩
  | sum c ps ih =>
    obtain ⟨d, qs, rfl, heq | ⟨rfl, hall⟩⟩ := fits_sum.1 h
    · have hground : (Ty.sum c ps).names = [] := by rw [← names_simplify, heq, names_simplify, hu]
      have hsame : (Ty.sum c ps).mapVars f = .sum c ps := (subst_of_ground hground _).trans ht
      rw [hsame]
      exact h
    · rw [names_sum_eq_nil] at hu
      rw [mapVars_sum]
      refine fits_sum.2 ⟨c, qs, rfl, .inr ⟨rfl, List.forall₂_map_left_iff.2 ?_⟩⟩
      exact forall₂_imp_of_mem hall fun p hp q hq hpq => ih p hp hpq (ht.param p hp) (hu q hq)
  | app g a ihg iha =>
    obtain ⟨hg, happ⟩ := ht.app
    rw [happ]
    rcases fits_app.1 h with ⟨d, qs, q, rfl, hhead, harg⟩ | ⟨k, b, rfl, hhead, harg⟩
    · rw [names_sum_eq_nil, List.forall_mem_append, List.forall_mem_singleton] at hu
      have hinit : (Ty.sum d qs).names = [] := names_sum_eq_nil.2 hu.1
      exact fits_app.2 (.inl ⟨d, qs, q, rfl, ihg hhead hg hinit, iha harg ht.arg hu.2⟩)
    · rw [names_app, List.append_eq_nil_iff] at hu
      exact fits_app.2 (.inr ⟨k, b, rfl, ihg hhead hg hu.1, iha harg ht.arg hu.2⟩)

/-- Without variables to pair, lining up is being the same type. -/
theorem Fits.simplify_eq {t u : Ty} (h : t.Fits u) (ht : t.names = []) : t.simplify = u.simplify := by
  induction t generalizing u with
  | var v => cases ht
  | fn a r iha ihr =>
    obtain ⟨b, q, rfl, ha, hr⟩ := fits_fn.1 h
    rw [names_fn, List.append_eq_nil_iff] at ht
    exact congrArg₂ Ty.fn (iha ha ht.1) (ihr hr ht.2)
  | sum c ps ih =>
    obtain ⟨d, qs, rfl, heq | ⟨rfl, hall⟩⟩ := fits_sum.1 h
    · exact heq
    · have hsame : ps.map simplify = qs.map simplify :=
        map_eq_map_iff_forall₂.2 <| forall₂_imp_of_mem hall fun p hp q _ hpq =>
          ih p hp hpq (names_sum_eq_nil.1 ht p hp)
      rw [simplify_sum, simplify_sum, hsame]
  | app g a ihg iha =>
    rw [names_app, List.append_eq_nil_iff] at ht
    rcases fits_app.1 h with ⟨d, qs, q, rfl, hhead, harg⟩ | ⟨k, b, rfl, hhead, harg⟩
    · have hsum : (Ty.sum d (qs ++ [q])).simplify = (Ty.sum d qs).simplify.apply q.simplify :=
        subst_apply _ (.sum d qs) q
      rw [hsum, ← ihg hhead ht.1, ← iha harg ht.2]
      rfl
    · exact congrArg₂ apply (ihg hhead ht.1) (iha harg ht.2)

theorem Fits.eq_of_ground {t u : Ty} (h : t.Fits u) (hnone : t.names = []) (ht : t.Collapsed)
    (hu : u.Collapsed) : t = u := by
  have hsame := h.simplify_eq hnone
  have hnone' : u.names = [] := by rw [← names_simplify, ← hsame, names_simplify, hnone]
  rwa [simplify_of_ground hnone, simplify_of_ground hnone', ht, hu] at hsame

theorem not_fits_large {t u : Ty} (hnone : u.names = []) (hu : u.Collapsed) {v : TyVar}
    (hv : v ∈ t.vars) : ¬ (t.subst fun _ => .fn u u).Fits u := by
  intro hfits
  have hground : (t.subst fun _ => .fn u u).names = [] := by
    refine List.eq_nil_iff_forall_not_mem.2 fun x hx => ?_
    obtain ⟨w, -, hx⟩ := mem_names_subst.1 hx
    simp [names_fn, hnone] at hx
  have hcollapsed : (t.subst fun _ => .fn u u).Collapsed :=
    collapsed_subst fun _ _ => congrArg₂ Ty.fn hu hu
  have heq := hfits.eq_of_ground hground hcollapsed hu
  have hsize := size_le_size_subst (fun _ => Ty.fn u u) hv
  rw [heq, size] at hsize
  omega

end Ty

namespace Store

/-! ### Instance heads -/

theorem resolve_of_ground (s : Store) {t : Ty} (h : t.names = []) : s.resolve t = t.flatten :=
  Ty.subst_of_ground h _

theorem names_resolve_of_ground (s : Store) {t : Ty} (h : t.names = []) : (s.resolve t).names = [] := by
  rw [s.resolve_of_ground h, Ty.names_flatten, h]

theorem implements_iff {s : Store} {c : Symbol} {t : Ty} :
    s.implements c t = true ↔ ∃ head ∈ s.heads.getD c [], s.covers head (s.resolve t) = true :=
  List.any_eq_true

theorem isSome_align (s : Store) (formal actual : Ty) :
    (s.align formal actual).isSome = true ↔ (s.resolve formal).Fits (s.resolve actual) := by
  rw [Store.align, Option.isSome_map]
  rfl

theorem covers_iff {s : Store} {head t : Ty} :
    s.covers head t = true ↔
      (∃ c ts, head = .sum c [] ∧ t = .sum c ts) ∨ (s.resolve head).Fits (s.resolve t) := by
  unfold covers
  split
  · rename_i c d ts
    constructor
    · intro hcd
      exact .inl ⟨c, ts, rfl, by rw [eq_of_beq hcd]⟩
    · rintro (⟨c', ts', hhead, ht⟩ | hfits)
      · cases hhead
        cases ht
        exact beq_self_eq_true _
      · obtain ⟨d', qs, ht, hor⟩ := Ty.fits_sum.1 hfits
        injection ht with hd
        have hc : c = d' := by
          rcases hor with hsame | ⟨hc, -⟩
          · injection hsame
          · exact hc
        rw [hc, hd]
        exact beq_self_eq_true _
  · rename_i hbare
    rw [isSome_align]
    refine ⟨.inr, fun h => h.resolve_left ?_⟩
    rintro ⟨c, ts, rfl, rfl⟩
    exact hbare c c ts rfl rfl

theorem isVar_expandAll (s : Store) (v : TyVar) :
    (s.expandAll s.bindings v).isVar = (s.resolve (.var (.ofName v.name))).isVar := by
  rcases s.expandAll_ofName v with hsame | ⟨hv, hname⟩
  · rw [hsame]
  · rw [hv, hname]
    rfl

/-- A type whose variables all stand for variables is only renamed. -/
theorem exists_mapVars_of_open (s : Store) {t : Ty}
    (hopen : ∀ x ∈ t.names, (s.resolve (.var (.ofName x))).isVar = true) :
    ∃ f, s.resolve t = t.mapVars f := by
  have hvar : ∀ v ∈ t.vars, ∃ w, s.expandAll s.bindings v = .var w := by
    intro v hv
    have hname := hopen v.name (Ty.mem_names.2 ⟨v, hv, rfl⟩)
    rw [← isVar_expandAll] at hname
    cases hu : s.expandAll s.bindings v with
    | var w => exact ⟨w, rfl⟩
    | _ => simp [hu, Ty.isVar, Ty.asVar?] at hname
  choose! f hf using hvar
  exact ⟨f, Ty.subst_congr hf⟩

/-- A head whose variables still stand for variables covers what it covered. -/
theorem Precedes.covers {s s' : Store} (h : s.Precedes s') (hs : s.Acyclic) {head t : Ty}
    (ht : t.names = [])
    (hopen : ∀ x ∈ (s.resolve head).names, (s'.resolve (.var (.ofName x))).isVar = true)
    (hcovers : s.covers head t = true) : s'.covers head t = true := by
  rcases covers_iff.1 hcovers with hbare | hfits
  · exact covers_iff.2 (.inl hbare)
  · obtain ⟨f, hf⟩ := s'.exists_mapVars_of_open hopen
    have hhead : s'.resolve head = (s.resolve head).mapVars f := by
      rw [← h.toExtends.resolve_resolve hs h.acyclic, hf]
    rw [s.resolve_of_ground ht] at hfits
    rw [covers_iff, hhead, s'.resolve_of_ground ht]
    exact .inr (hfits.mapVars (s.collapsed_resolve head) (by rw [Ty.names_flatten, ht]) f)

theorem Precedes.implements {s s' : Store} (h : s.Precedes s') (hs : s.Acyclic) {c : Symbol}
    {head t : Ty} (ht : t.names = []) (hhead : head ∈ s.heads.getD c [])
    (hcovers : s.covers head (s.resolve t) = true)
    (hopen : ∀ x ∈ (s.resolve head).names, (s'.resolve (.var (.ofName x))).isVar = true) :
    s'.implements c t = true := by
  refine implements_iff.2 ⟨head, h.heads hhead, ?_⟩
  rw [s'.resolve_of_ground ht, ← s.resolve_of_ground ht]
  exact h.covers hs (s.names_resolve_of_ground ht) hopen hcovers

/-! ### Runs that narrow the heads -/

theorem call_bind_ground (s : Store) (x : String) {t : Ty} (ht : t.names = []) :
    (s.call (.bind (.ofName x) t)).2.heads = s.heads ∧
      ∀ y : String, (s.call (.bind (.ofName x) t)).2.bindings[y]? =
        if y = x then some t else s.bindings[y]? := by
  have hresolved := s.names_resolve_of_ground ht
  have hvar : t.asVar? = none := by
    cases t with
    | var w => cases ht
    | _ => rfl
  have hloop : ¬ s.wouldLoop (.ofName x) t = true := by
    simp only [wouldLoop, Bool.or_eq_true, Ty.mentions_iff, ht, hresolved, List.not_mem_nil, or_self,
      not_false_eq_true]
  simp only [call, bind, hvar, Option.any_none, if_neg hloop]
  exact ⟨rfl, Bindings.lookup_insert s.bindings x (t := t)⟩

/-- Variables that are not bound can all be bound to one type without variables. -/
theorem Acyclic.exists_binding_run {s : Store} (hs : s.Acyclic) {t : Ty} (ht : t.names = [])
    {names : List String} (hnames : ∀ x ∈ names, s.bindings[x]? = none) :
    ∃ calls, s.BindsUnbound calls ∧ (s.callAll calls).heads = s.heads ∧
      ∀ x ∈ names, (s.callAll calls).bindings[x]? = some t := by
  induction names generalizing s with
  | nil => exact ⟨[], trivial, rfl, nofun⟩
  | cons x names ih =>
    rw [List.forall_mem_cons] at hnames
    obtain ⟨hx, hrest⟩ := hnames
    by_cases hmem : x ∈ names
    · obtain ⟨calls, hcalls, hheads, hbound⟩ := ih hs hrest
      exact ⟨calls, hcalls, hheads, List.forall_mem_cons.2 ⟨hbound x hmem, hbound⟩⟩
    · obtain ⟨hheads₁, hlookup⟩ := s.call_bind_ground x ht
      have hfirst : ∀ v u, Call.bind (.ofName x) t = .bind v u → s.bindings[v.name]? = none := by
        rintro v u ⟨⟩
        exact hx
      have hs₁ := (hs.precedes_call hfirst).acyclic
      obtain ⟨calls, hcalls, hheads, hbound⟩ := ih hs₁ fun y hy => by
        rw [hlookup, if_neg (ne_of_mem_of_not_mem hy hmem), hrest y hy]
      have hkept := (hs₁.precedes_callAll hcalls).bindings ((hlookup x).trans (if_pos rfl))
      exact ⟨.bind (.ofName x) t :: calls, ⟨hfirst, hcalls⟩, hheads.trans hheads₁,
        List.forall_mem_cons.2 ⟨hkept, hbound⟩⟩

/-- After a suitable run only those heads cover the type that had no variables before it. -/
theorem Acyclic.exists_narrowing_run {s : Store} (hs : s.Acyclic) (c : Symbol) {t : Ty}
    (ht : t.names = []) :
    ∃ calls, s.BindsUnbound calls ∧ (s.callAll calls).heads = s.heads ∧
      ∀ head ∈ s.heads.getD c [], (s.callAll calls).covers head (s.resolve t) = true →
        (s.resolve head).names = [] ∧ s.covers head (s.resolve t) = true := by
  -- a variable bound to this type makes a head too large to cover `t`
  let large := Ty.fn (s.resolve t) (s.resolve t)
  have hground := s.names_resolve_of_ground ht
  have hlarge : large.names = [] := by simp only [large, Ty.names_fn, hground, List.append_nil]
  let names := (s.heads.getD c []).flatMap fun head => (s.resolve head).names
  have hnames : ∀ x ∈ names, s.bindings[x]? = none := by
    intro x hx
    obtain ⟨head, -, hx⟩ := List.mem_flatMap.1 hx
    exact (hs.mem_names_resolve.1 hx).1
  obtain ⟨calls, hcalls, hheads, hbound⟩ := hs.exists_binding_run hlarge hnames
  refine ⟨calls, hcalls, hheads, fun head hhead hcovers => ?_⟩
  have hlater := hs.precedes_callAll hcalls
  have hresolve : (s.callAll calls).resolve head = (s.resolve head).subst fun _ => large := by
    rw [← hlater.toExtends.resolve_resolve hs hlater.acyclic head]
    refine Ty.subst_congr fun v hv => ?_
    have hv' := hbound v.name (List.mem_flatMap.2 ⟨head, hhead, Ty.mem_names.2 ⟨v, hv, rfl⟩⟩)
    rw [hlater.acyclic.expandAll_of_bound hv', resolve_of_ground _ hlarge]
    exact congrArg₂ Ty.fn (s.collapsed_resolve t) (s.collapsed_resolve t)
  rcases covers_iff.1 hcovers with ⟨d, ts, rfl, hd⟩ | hfits
  · exact ⟨rfl, covers_iff.2 (.inl ⟨d, ts, rfl, hd⟩)⟩
  · have hstill : ∀ s' : Store, s'.resolve (s.resolve t) = s.resolve t := fun s' =>
      (s'.resolve_of_ground hground).trans (s.collapsed_resolve t)
    rw [hresolve, hstill] at hfits
    have hnone : (s.resolve head).names = [] := by
      refine List.eq_nil_iff_forall_not_mem.2 fun x hx => ?_
      obtain ⟨v, hv, -⟩ := Ty.mem_names.1 hx
      exact Ty.not_fits_large hground (s.collapsed_resolve t) hv hfits
    rw [Ty.subst_of_ground hnone, s.collapsed_resolve head] at hfits
    exact ⟨hnone, covers_iff.2 (.inr (by rwa [hstill]))⟩

/-- An instance that is known for a type without variables stays known as long as the variables of a
head that covers the type stand for variables. It is known in every later state, whatever is bound,
exactly if a head without variables covers the type. -/
theorem known_instance_kept_by_open_head (stem : String) (before : List Call)
    (hbefore : (empty stem).BindsUnbound before) (c : Symbol) (t : Ty) (ht : t.names = []) :
    let s := (empty stem).callAll before
    (∀ after, s.BindsUnbound after → ∀ head ∈ s.heads.getD c [], s.covers head (s.resolve t) = true →
      (∀ x ∈ (s.resolve head).names, ((s.callAll after).resolve (.var (.ofName x))).isVar = true) →
      (s.callAll after).implements c t = true) ∧
    ((∀ after, s.BindsUnbound after → (s.callAll after).implements c t = true) ↔
      ∃ head ∈ s.heads.getD c [], (s.resolve head).names = [] ∧ s.covers head (s.resolve t) = true) := by
  intro s
  have hs : s.Acyclic := ((acyclic_empty stem).precedes_callAll hbefore).acyclic
  refine ⟨fun after hafter head hhead hcovers hopen => ?_, fun hknown => ?_, ?_⟩
  · exact (hs.precedes_callAll hafter).implements hs ht hhead hcovers hopen
  · obtain ⟨after, hafter, hheads, hnarrow⟩ := hs.exists_narrowing_run c ht
    obtain ⟨head, hhead, hcovers⟩ := implements_iff.1 (hknown after hafter)
    rw [hheads] at hhead
    rw [resolve_of_ground _ ht, ← s.resolve_of_ground ht] at hcovers
    exact ⟨head, hhead, hnarrow head hhead hcovers⟩
  · rintro ⟨head, hhead, hnone, hcovers⟩ after hafter
    have hopen : ∀ x ∈ (s.resolve head).names,
        ((s.callAll after).resolve (.var (.ofName x))).isVar = true := by simp [hnone]
    exact (hs.precedes_callAll hafter).implements hs ht hhead hcovers hopen

/-- The variable of the head is bound to a variable, and what is known for `Maybe Bool` stays known;
for `Int` it does whatever follows. -/
theorem known_instance_kept_by_open_head_maybe :
    let eq : Symbol := .unqualified "Eq"
    let a := Ty.var (.ofName "a")
    let b := Ty.var (.ofName "b")
    let int := Ty.sum (.unqualified "Int") []
    let maybe := Ty.sum (.unqualified "Maybe")
    let t := maybe [.sum (.unqualified "Bool") []]
    let before : List Call := [.implement eq (maybe [a]), .implement eq int]
    let after : List Call := [.unify b a, .bind (.ofName "c") (.fn a int)]
    let s := (empty "t").callAll before
    (empty "t").BindsUnbound before ∧ s.BindsUnbound after ∧ t.names = [] ∧ int.names = [] ∧
      s.covers (maybe [a]) (s.resolve t) = true ∧ (s.callAll after).resolve a = b ∧
      (s.callAll after).implements eq t = true ∧
      ∀ later, s.BindsUnbound later → (s.callAll later).implements eq int = true := by
  refine ⟨?hbefore, ?hafter, rfl, rfl, by decide +kernel, by decide +kernel,
    (known_instance_kept_by_open_head "t" _ ?hbefore _ _ rfl).1 _ ?hafter
      (.sum (.unqualified "Maybe") [.var (.ofName "a")]) (by decide +kernel) (by decide +kernel)
      (by decide +kernel),
    (known_instance_kept_by_open_head "t" _ ?hbefore _ _ rfl).2.2
      ⟨.sum (.unqualified "Int") [], by decide +kernel, by decide +kernel, by decide +kernel⟩⟩
  case hbefore => exact ⟨nofun, nofun, trivial⟩
  case hafter =>
    refine ⟨nofun, fun v u h => ?_, trivial⟩
    cases h
    decide +kernel

/-- `Eq` is implemented for `Maybe a`, hence known for `Maybe Bool`. Then `a` is unified with `Int`, and
the instance is not known for `Maybe Bool` any more. -/
theorem known_instance_lost_by_binding :
    let eq : Symbol := .unqualified "Eq"
    let a := Ty.var (.ofName "a")
    let maybe := Ty.sum (.unqualified "Maybe")
    let t := maybe [.sum (.unqualified "Bool") []]
    let after : List Call := [.unify a (.sum (.unqualified "Int") [])]
    let s := (empty "t").callAll [.implement eq (maybe [a])]
    t.names = [] ∧ s.BindsUnbound after ∧ s.implements eq t = true ∧
      (s.callAll after).implements eq t = false :=
  ⟨rfl, ⟨nofun, trivial⟩, by decide +kernel, by decide +kernel⟩

end Store

end TypeEngine
