import Mathlib.Data.List.Find
import TypeEngine.Proofs.Qualification

/-! # What is visible from a scope

A scope sees the entries on its way out, what modules and the index define, and both through the imports of
its module. Two scopes, of one tree or of two, that agree on the first two see the same (`SeesSame`) as far
as their imports agree. Operations leave the outline of the tree as it is (`Retains`), so the way out of a
scope and its module never change. -/

namespace TypeEngine

namespace Scopes

/-! ### Seeing the same -/

/-- The scope `c'` of `s'` sees the definitions that the scope `c` of `s` sees, imports left aside. -/
structure SeesSame (s s' : Scopes) (c c' : ScopeId) : Prop where
  moduleName?_eq : s'.moduleName? c' = s.moduleName? c
  isDefinedLocally_eq : ∀ q, s'.isDefinedLocally c' q = s.isDefinedLocally c q
  outwards_eq : ∀ q, ((s'.chain c').findSome? fun id => s'.entryIn? id q) =
    (s.chain c).findSome? fun id => s.entryIn? id q
  lookupInUnit?_eq : ∀ q, s'.lookupInUnit? q = s.lookupInUnit? q

namespace SeesSame

variable {s s' : Scopes} {c c' : ScopeId} {symbol q : Symbol}

theorem isDefinedInUnit_eq (h : SeesSame s s' c c') : s'.isDefinedInUnit = s.isDefinedInUnit := by
  funext x
  rw [isDefinedInUnit, isDefinedInUnit, h.lookupInUnit?_eq]

theorem importedAs_eq (h : SeesSame s s' c c') (name : String) : s'.importedAs name = s.importedAs name := by
  funext i
  rw [importedAs, importedAs, h.isDefinedInUnit_eq]

theorem qualify_eq (h : SeesSame s s' c c') (himports : s'.imports c' = s.imports c) (symbol : Symbol) :
    s'.qualify c' symbol = s.qualify c symbol := by
  simp only [qualify, h.moduleName?_eq, himports, h.importedAs_eq, h.isDefinedLocally_eq]

theorem lookup?_of_lookupSymbol_eq (h : SeesSame s s' c c')
    (hsymbol : s'.lookupSymbol c' symbol = s.lookupSymbol c symbol) :
    s'.lookup? c' symbol = s.lookup? c symbol := by
  simp only [lookup?, hsymbol, h.outwards_eq, h.lookupInUnit?_eq]

theorem lookup?_eq (h : SeesSame s s' c c') (himports : s'.imports c' = s.imports c) (symbol : Symbol) :
    s'.lookup? c' symbol = s.lookup? c symbol := by
  refine h.lookup?_of_lookupSymbol_eq ?_
  rw [lookupSymbol, lookupSymbol, h.qualify_eq himports]

/-- Imports that come after all others do not change what is resolved already. -/
theorem qualify_of_extended (h : SeesSame s s' c c') (himports : s.imports c <+: s'.imports c')
    (hq : s.qualify c symbol = some q) : s'.qualify c' symbol = some q := by
  obtain ⟨more, hmore⟩ := himports
  cases symbol with
  | qualified owner name =>
    obtain ⟨hself, hor⟩ := qualify_qualified_eq_some_iff.1 hq
    rw [qualify_qualified_eq_some_iff, h.moduleName?_eq, h.isDefinedInUnit_eq]
    refine ⟨hself, hor.imp_right fun hor => hor.imp_right ?_⟩
    rintro ⟨hdefined, i, hfirst, hexposes⟩
    exact ⟨hdefined, i, by rw [← hmore, List.find?_append, hfirst, Option.some_or], hexposes⟩
  | unqualified name =>
    cases hmodule : s.moduleName? c with
    | none => simp [qualify, hmodule] at hq
    | some module =>
      simp only [qualify, h.moduleName?_eq, hmodule, h.isDefinedLocally_eq, h.importedAs_eq, ← hmore,
        List.findSome?_append] at hq ⊢
      split at hq
      · rename_i hlocal
        rw [if_pos hlocal, hq]
      · rename_i hlocal
        rw [if_neg hlocal, hq, Option.some_or]

theorem lookup?_of_extended (h : SeesSame s s' c c') (himports : s.imports c <+: s'.imports c') {e : Entry}
    (he : s.lookup? c symbol = some e) : s'.lookup? c' symbol = some e := by
  cases symbol with
  | qualified owner name => rw [h.lookup?_of_lookupSymbol_eq rfl, he]
  | unqualified name =>
    rw [lookup?_unqualified] at he ⊢
    obtain ⟨q, hq, he⟩ := Option.bind_eq_some_iff.1 he
    obtain ⟨owner, name', rfl, -⟩ := exists_owner_of_qualify hq
    rw [h.qualify_of_extended himports hq, Option.bind_some, h.lookup?_of_lookupSymbol_eq rfl, he]

end SeesSame

end Scopes

/-! ### The outline of the tree -/

theorem FrameKind.Grows.trans {k k₁ k' : FrameKind} (h : k.Grows k₁) (h' : k₁.Grows k') : k.Grows k' := by
  cases h with
  | root => exact h'
  | child name => exact h'
  | module hname himports =>
    cases h' with
    | module hname' himports' => exact .module (hname'.trans hname) (himports.trans himports')

theorem FrameKind.Grows.isSome_body?_eq {k k' : FrameKind} (h : k.Grows k') :
    k'.body?.isSome = k.body?.isSome := by
  cases h <;> rfl

theorem FrameKind.Grows.eq_child {name : String} {k : FrameKind} (h : (FrameKind.child name).Grows k) :
    k = .child name := by
  cases h
  rfl

theorem FrameKind.Grows.prefix_imports {k k' : FrameKind} (h : k.Grows k') :
    (k.body?.map (·.imports)).getD [] <+: (k'.body?.map (·.imports)).getD [] := by
  cases h with
  | module hname himports => exact himports
  | _ => exact List.prefix_rfl

namespace Scopes

/-- Every scope of `s` is a scope of `s'`, inside of the same scope and of the same kind. -/
def Retains (s s' : Scopes) : Prop :=
  ∀ (id : ScopeId) (f : Frame), s.frame? id = some f →
    ∃ f', s'.frame? id = some f' ∧ f'.parent = f.parent ∧ f.kind.Grows f'.kind

theorem retains_append {s s' : Scopes} {new : Frame} (h : s'.frames = s.frames ++ [new]) :
    s.Retains s' := by
  intro id f hf
  refine ⟨f, ?_, rfl, .refl _⟩
  rw [frame?_append h, if_neg (lt_of_frame? hf).ne, hf]

theorem retains_modifyFrame (s : Scopes) (scope : ScopeId) {g : Frame → Frame}
    (hparent : ∀ f, (g f).parent = f.parent) (hkind : ∀ f : Frame, f.kind.Grows (g f).kind) :
    s.Retains (s.modifyFrame scope g) := by
  intro id f hf
  rw [frame?_modifyFrame, hf, Option.map_some]
  refine ⟨_, rfl, ?_⟩
  split
  · exact ⟨hparent f, hkind f⟩
  · exact ⟨rfl, .refl _⟩

theorem Retains.trans {s s₁ s' : Scopes} (h : s.Retains s₁) (h' : s₁.Retains s') : s.Retains s' := by
  intro id f hf
  obtain ⟨f₁, hf₁, hparent₁, hkind₁⟩ := h id f hf
  obtain ⟨f', hf', hparent, hkind⟩ := h' id f₁ hf₁
  exact ⟨f', hf', hparent.trans hparent₁, hkind₁.trans hkind⟩

theorem Change.retains {s s' : Scopes} (h : s.Change s') : s.Retains s' := by
  cases h with
  | keep store reserved => exact fun id f hf => ⟨f, hf, rfl, .refl _⟩
  | openModule name imports hnew => exact retains_append rfl
  | openScope scope hscope => exact retains_append rfl
  | modifyBody id g hname himports =>
    refine retains_modifyFrame s id (fun f => ?_) fun f => ?_
    · split <;> rfl
    · split
      · rename_i body hk
        rw [hk]
        exact .module (hname body) (himports body)
      · exact .refl _
  | define scope symbol owner d e hsymbol hscope hne he =>
    refine retains_modifyFrame s scope ?_ fun f => ?_
    · exact fun _ => rfl
    · exact .refl f.kind

theorem LeadsTo.retains {s s' : Scopes} (h : s.LeadsTo s') : s.Retains s' := by
  induction h with
  | refl => exact fun id f hf => ⟨f, hf, rfl, .refl _⟩
  | perform _ op hop ih => exact ih.trans (change_perform _ hop).retains

theorem exists_frame_of_mem_chainWithin {s : Scopes} {n : Nat} {c id : ScopeId}
    (h : id ∈ s.chainWithin n c) : ∃ f, s.frame? id = some f := by
  induction n generalizing c with
  | zero => cases h
  | succ n ih =>
    rw [chainWithin] at h
    split at h
    · cases h
    · rename_i f hf
      split at h
      · exact ⟨f, List.mem_singleton.1 h ▸ hf⟩
      · rcases List.mem_cons.1 h with rfl | h
        · exact ⟨f, hf⟩
        · exact ih h

theorem upToModule_congr {s s' : Scopes} {ids : List ScopeId}
    (h : ∀ id ∈ ids, (s'.kind id).body?.isSome = (s.kind id).body?.isSome) :
    s'.upToModule ids = s.upToModule ids := by
  induction ids with
  | nil => rfl
  | cons id ids ih =>
    rw [upToModule, upToModule, h id List.mem_cons_self, ih fun x hx => h x (List.mem_cons_of_mem _ hx)]

theorem findSome?_congr_of_mem {ids : List ScopeId} {look look' : ScopeId → Option Entry}
    (h : ∀ id ∈ ids, look' id = look id) : ids.findSome? look' = ids.findSome? look := by
  induction ids with
  | nil => rfl
  | cons id ids ih =>
    rw [List.findSome?_cons, List.findSome?_cons, h id List.mem_cons_self,
      ih fun x hx => h x (List.mem_cons_of_mem _ hx)]

namespace Retains

variable {s s' : Scopes} {c : ScopeId} {f : Frame}

theorem grows (h : s.Retains s') {id : ScopeId} (hf : s.frame? id = some f) :
    (s.kind id).Grows (s'.kind id) := by
  obtain ⟨f', hf', -, hkind⟩ := h id f hf
  rw [kind_of_frame? hf, kind_of_frame? hf']
  exact hkind

/-- The way out of a scope never changes. -/
theorem chain_eq (h : s.Retains s') (hs : s.Formed) (hs' : s'.Formed) (hf : s.frame? c = some f) :
    s'.chain c = s.chain c := by
  induction c using Nat.strongRecOn generalizing f with
  | ind c ih =>
    obtain ⟨f', hf', hparent, -⟩ := h c f hf
    cases hp : f.parent with
    | none => rw [chain_of_parent_none hf hp, chain_of_parent_none hf' (hparent.trans hp)]
    | some parent =>
      obtain ⟨fp, hfp⟩ := hs.exists_parent_frame hf hp
      rw [hs.chain_of_parent hf hp, hs'.chain_of_parent hf' (hparent.trans hp),
        ih parent (hs.parent_lt hf hp) hfp]

theorem isSome_body?_eq (h : s.Retains s') {id : ScopeId} (hid : id ∈ s.chain c) :
    (s'.kind id).body?.isSome = (s.kind id).body?.isSome := by
  obtain ⟨f, hf⟩ := exists_frame_of_mem_chainWithin hid
  exact (h.grows hf).isSome_body?_eq

theorem moduleScope?_eq (h : s.Retains s') (hs : s.Formed) (hs' : s'.Formed) (hf : s.frame? c = some f) :
    s'.moduleScope? c = s.moduleScope? c := by
  rw [moduleScope?, moduleScope?, h.chain_eq hs hs' hf]
  exact List.find?_congr fun id hid => h.isSome_body?_eq hid

theorem seesSame (h : s.Retains s') (hs : s.Formed) (hs' : s'.Formed) (hf : s.frame? c = some f)
    (hentries : ∀ id ∈ s.chain c, ∀ q, s'.entryIn? id q = s.entryIn? id q)
    (hunit : ∀ q, s'.lookupInUnit? q = s.lookupInUnit? q) : SeesSame s s' c c := by
  have hchain := h.chain_eq hs hs' hf
  have hlocal : s'.localChain c = s.localChain c := by
    rw [localChain, localChain, hchain, upToModule_congr fun id hid => h.isSome_body?_eq hid]
  refine ⟨(h.grows hf).moduleName?_eq, fun q => ?_, fun q => ?_, hunit⟩
  · rw [Bool.eq_iff_iff, isDefinedLocally, isDefinedLocally, List.any_eq_true, List.any_eq_true, hlocal]
    exact exists_congr fun id => and_congr_right fun hid => by rw [hentries id (mem_upToModule hid)]
  · rw [hchain]
    exact findSome?_congr_of_mem fun id hid => hentries id hid q

/-- A module keeps its imports, and further ones come after them. -/
theorem prefix_imports (h : s.Retains s') (hs : s.Formed) (hs' : s'.Formed) (hf : s.frame? c = some f) :
    s.imports c <+: s'.imports c := by
  rw [imports, imports, moduleBody?, moduleBody?, h.moduleScope?_eq hs hs' hf]
  cases hscope : s.moduleScope? c with
  | none => exact List.prefix_rfl
  | some id =>
    obtain ⟨fid, hfid⟩ := exists_frame_of_mem_chainWithin (List.mem_of_find?_eq_some hscope)
    exact (h.grows hfid).prefix_imports

theorem imports_eq (h : s.Retains s') (hs : s.Formed) (hs' : s'.Formed) (hf : s.frame? c = some f)
    (hkind : ∀ id, s.moduleScope? c = some id → s'.kind id = s.kind id) : s'.imports c = s.imports c := by
  rw [imports, imports, moduleBody?, moduleBody?, h.moduleScope?_eq hs hs' hf]
  cases hscope : s.moduleScope? c with
  | none => rfl
  | some id => rw [Option.bind_some, Option.bind_some, hkind id hscope]

end Retains

/-! ### Bodies -/

theorem lookupInUnit?_congr {s s' : Scopes} (hmodules : s'.modules = s.modules) (hindex : s'.index = s.index)
    (hentries : ∀ name id, s.module? name = some id → ∀ q, s'.entryIn? id q = s.entryIn? id q)
    (q : Symbol) : s'.lookupInUnit? q = s.lookupInUnit? q := by
  have hmodule : s'.module? = s.module? := by
    funext name
    rw [module?, module?, hmodules]
  rw [lookupInUnit?, lookupInUnit?, hmodule, hindex]
  cases hid : q.owner?.bind s.module? with
  | none => rfl
  | some id =>
    obtain ⟨name, -, hname⟩ := Option.bind_eq_some_iff.1 hid
    rw [Option.bind_some, Option.bind_some, hentries name id hname]

theorem SeesSame.refl (s : Scopes) (c : ScopeId) : SeesSame s s c c :=
  ⟨rfl, fun _ => rfl, fun _ => rfl, fun _ => rfl⟩

namespace Formed

theorem kind_of_module? {s : Scopes} (h : s.Formed) {name : String} {id : ScopeId}
    (hid : s.module? name = some id) :
    id < s.frames.length ∧ ∃ body, s.kind id = .module body ∧ body.name = name := by
  obtain ⟨f, body, hf, hk, hname⟩ := h.module_frame (h.module?_eq_some_iff.1 hid)
  exact ⟨lt_of_frame? hf, body, by rw [kind_of_frame? hf, hk], hname⟩

theorem moduleName?_of_moduleBody? {s : Scopes} (h : s.Formed) {p : ScopeId} {body : ModuleBody}
    (hbody : s.moduleBody? p = some body) :
    (∃ f, s.frame? p = some f) ∧ s.moduleName? p = some body.name := by
  cases hf : s.frame? p with
  | none =>
    rw [moduleBody?, moduleScope?, chain, chainWithin, hf] at hbody
    cases hbody
  | some f =>
    have hname := h.moduleName_eq hf
    rw [hbody, Option.map_some, Option.getD_some] at hname
    refine ⟨⟨f, rfl⟩, ?_⟩
    rw [moduleName?_of_frame? hf]
    cases h.placed hf with
    | root hid hp hk =>
      have hnone : (s.kind p).body? = none := by rw [kind_of_frame? hf, hk]; rfl
      rw [moduleBody?_of_chain_singleton hnone (chain_of_parent_none hf hp)] at hbody
      cases hbody
    | module body' hid hp hk hmem => rw [hk] at hname ⊢; exact congrArg some hname
    | child parent hid hp hk => rw [hk] at hname ⊢; exact congrArg some hname

/-- What is defined in a body is out of sight from everywhere but that body and the scopes in it. -/
theorem seesSame_record {s : Scopes} (h : s.Formed) {d c : ScopeId} {name : String} {f : Frame}
    (hd : s.kind d = .child name) (hf : s.frame? c = some f) (hc : d ∉ s.chain c) (symbol : Symbol)
    (definition : Definition) :
    SeesSame s (s.perform (.record d symbol definition)) c c ∧
      (s.perform (.record d symbol definition)).imports c = s.imports c := by
  have hlt : d < s.frames.length := by
    have hname : s.moduleName? d = some name := by rw [moduleName?, hd]; rfl
    obtain ⟨fd, hfd⟩ := exists_frame_of_moduleName? hname
    exact lt_of_frame? hfd
  have hchange : s.Change (s.perform (.record d symbol definition)) :=
    s.change_perform fun _ hscope => Option.some.inj hscope ▸ hlt
  have hretains := hchange.retains
  have hs' := h.change hchange
  revert hretains hs'
  simp only [perform, record_eq]
  split
  · rename_i s' hrecord
    obtain ⟨owner, e, -, -, -, -, rfl⟩ := define_eq_ok hrecord
    intro hretains hs'
    constructor
    · refine hretains.seesSame h hs' hf (fun id hid q => ?_) (lookupInUnit?_congr rfl rfl fun m id hm q => ?_)
      · rw [entryIn?_insert, if_neg]
        rintro ⟨rfl, -⟩
        exact hc hid
      · rw [entryIn?_insert, if_neg]
        rintro ⟨rfl, -⟩
        obtain ⟨-, body, hbody, -⟩ := h.kind_of_module? hm
        rw [hd] at hbody
        cases hbody
    · exact hretains.imports_eq h hs' hf fun id _ => kind_modifyFrame s d id fun _ => rfl
  · exact fun _ _ => ⟨.refl s c, rfl⟩

/-- A scope that is opened is out of sight from all others. -/
theorem seesSame_append {s s' : Scopes} (h : s.Formed) (hs' : s'.Formed) {new : Frame}
    (hframes : s'.frames = s.frames ++ [new]) (hunit : ∀ q, s'.lookupInUnit? q = s.lookupInUnit? q)
    {c : ScopeId} {f : Frame} (hf : s.frame? c = some f) :
    SeesSame s s' c c ∧ s'.imports c = s.imports c := by
  have hretains := retains_append hframes
  have hlt : ∀ {c id : ScopeId}, id ∈ s.chain c → id < s.frames.length := by
    intro c id hid
    obtain ⟨fid, hfid⟩ := exists_frame_of_mem_chainWithin hid
    exact lt_of_frame? hfid
  constructor
  · exact hretains.seesSame h hs' hf (fun id hid q => entryIn?_append hframes (hlt hid) q) hunit
  · refine hretains.imports_eq h hs' hf fun id hid => ?_
    rw [kind, kind, frame?_append hframes, if_neg (hlt (List.mem_of_find?_eq_some hid)).ne]

/-- A body in which nothing is defined sees what the scope around it sees. -/
theorem seesSame_child {s : Scopes} (h : s.Formed) {d p : ScopeId} {f : Frame} {name module : String}
    (hf : s.frame? d = some f) (hp : f.parent = some p) (hk : f.kind = .child name)
    (hmodule : s.moduleName? p = some module) (hempty : ∀ q, s.entryIn? d q = none) :
    SeesSame s s p d ∧ s.imports d = s.imports p := by
  have hchain := h.chain_of_parent hf hp
  have hbody : (s.kind d).body? = none := by rw [kind_of_frame? hf, hk]; rfl
  have hlocal : s.localChain d = d :: s.localChain p := by
    rw [localChain, localChain, hchain, upToModule, hbody]
    rfl
  refine ⟨⟨?_, fun q => ?_, fun q => ?_, fun q => rfl⟩, ?_⟩
  · cases h.placed hf with
    | root hid hp' hk' => rw [hk] at hk'; cases hk'
    | module body hid hp' hk' hmem => rw [hk] at hk'; cases hk'
    | child parent hid hp' hk' =>
      obtain rfl : parent = p := Option.some.inj (hp'.symm.trans hp)
      rw [moduleName?_of_frame? hf, hk', hmodule]
      rfl
  · rw [isDefinedLocally, hlocal, List.any_cons, hempty q]
    rfl
  · rw [hchain, List.findSome?_cons, hempty q]
  · rw [imports, imports, moduleBody?_of_parent hbody hchain]

end Formed

theorem frame?_enterScope (s : Scopes) (p : ScopeId) :
    (s.enterScope p).2.frame? (s.enterScope p).1 =
      some ⟨some p, .child ((s.moduleName? p).getD ""), ∅⟩ :=
  frame?_append_self rfl

theorem seesSame_enterScope {s : Scopes} (h : s.Formed) {p c : ScopeId} {f : Frame}
    (hp : p < s.frames.length) (hf : s.frame? c = some f) :
    SeesSame s (s.enterScope p).2 c c ∧ (s.enterScope p).2.imports c = s.imports c := by
  refine h.seesSame_append (h.openScope hp) rfl (lookupInUnit?_congr rfl rfl fun m id hm q => ?_) hf
  exact entryIn?_append rfl (h.kind_of_module? hm).1 q

/-- A body stays in its place in all later scopes, so it sees what the scope around it sees until something
is defined in it. -/
theorem seesSame_body {s s' : Scopes} (hs' : s'.Formed) {p : ScopeId} {fp : Frame}
    (hp : s.frame? p = some fp) {module : String} (hmodule : s.moduleName? p = some module)
    (hrun : (s.enterScope p).2.LeadsTo s') (hempty : ∀ q, s'.entryIn? (s.enterScope p).1 q = none) :
    SeesSame s' s' p (s.enterScope p).1 ∧ s'.imports (s.enterScope p).1 = s'.imports p := by
  obtain ⟨f, hf, hparent, hkind⟩ := hrun.retains _ _ (s.frame?_enterScope p)
  have hretains : s.Retains s' := (retains_append rfl).trans hrun.retains
  have hmodule' : s'.moduleName? p = some module := (hretains.grows hp).moduleName?_eq.trans hmodule
  exact hs'.seesSame_child hf hparent hkind.eq_child hmodule' hempty

/-- A definition in a body is seen from that body and the scopes in it only. A new body in a module sees
what the scope around it sees, as long as nothing is defined in the body. -/
theorem bodies_do_not_leak {index : Index} {options : Options} {s : Scopes}
    (h : Reachable index options s) :
    (∀ d name, s.kind d = .child name → ∀ symbol definition, ∀ c < s.frames.length, d ∉ s.chain c → ∀ x,
      (s.perform (.record d symbol definition)).qualify c x = s.qualify c x ∧
      (s.perform (.record d symbol definition)).lookup? c x = s.lookup? c x) ∧
    ∀ p body, s.moduleBody? p = some body →
      (∀ x, (s.enterScope p).2.qualify (s.enterScope p).1 x = s.qualify p x ∧
        (s.enterScope p).2.lookup? (s.enterScope p).1 x = s.lookup? p x) ∧
      ∀ s', (s.enterScope p).2.LeadsTo s' → (∀ q, s'.entryIn? (s.enterScope p).1 q = none) → ∀ x,
        s'.qualify (s.enterScope p).1 x = s'.qualify p x ∧
        s'.lookup? (s.enterScope p).1 x = s'.lookup? p x := by
  refine ⟨fun d name hd symbol definition c hc hout x => ?_, fun p body hbody => ?_⟩
  · obtain ⟨f, hf⟩ : ∃ f, s.frame? c = some f := ⟨_, List.getElem?_eq_getElem hc⟩
    obtain ⟨hsees, himports⟩ := h.formed.seesSame_record hd hf hout symbol definition
    exact ⟨hsees.qualify_eq himports x, hsees.lookup?_eq himports x⟩
  · obtain ⟨⟨fp, hfp⟩, hmodule⟩ := h.formed.moduleName?_of_moduleBody? hbody
    have hopened : Reachable index options (s.enterScope p).2 :=
      h.perform (.enterScope p) fun _ hscope => Option.some.inj hscope ▸ lt_of_frame? hfp
    have hlater : ∀ s', (s.enterScope p).2.LeadsTo s' → (∀ q, s'.entryIn? (s.enterScope p).1 q = none) →
        ∀ x, s'.qualify (s.enterScope p).1 x = s'.qualify p x ∧
          s'.lookup? (s.enterScope p).1 x = s'.lookup? p x := by
      intro s' hrun hempty x
      obtain ⟨hsees, himports⟩ := seesSame_body (hopened.leadsTo hrun).formed hfp hmodule hrun hempty
      exact ⟨hsees.qualify_eq himports x, hsees.lookup?_eq himports x⟩
    refine ⟨fun x => ?_, hlater⟩
    have hempty : ∀ q, (s.enterScope p).2.entryIn? (s.enterScope p).1 q = none := by
      intro q
      rw [entryIn?_of_frame? (s.frame?_enterScope p), Std.ExtTreeMap.getElem?_empty]
    obtain ⟨hsees, himports⟩ := seesSame_enterScope h.formed (lt_of_frame? hfp) hfp
    obtain ⟨hqualify, hlookup⟩ := hlater _ .refl hempty x
    exact ⟨hqualify.trans (hsees.qualify_eq himports x), hlookup.trans (hsees.lookup?_eq himports x)⟩

/-- Two bodies of `M`, and a definition in the first. The second does not see it, a body opened in the first
does, and still does after the module was entered again. -/
theorem bodies_do_not_leak_to_sibling :
    let x := Symbol.unqualified "x"
    let q := Symbol.qualified "M" "x"
    let t := Definition.value (.var (.ofName "t"))
    let s₁ := (new .empty .default).perform (.enterModule "M" [])
    let s := (s₁.perform (.enterScope 1)).perform (.enterScope 1)
    let s₂ := s.perform (.record 2 q t)
    let s' := (s₂.enterScope 2).2.perform (.enterModule "M" [⟨"a", none⟩])
    Reachable .empty .default s ∧ s.kind 2 = .child "M" ∧ 2 ∉ s.chain 3 ∧ s.qualify 3 x = none ∧
      s₂.qualify 2 x = some q ∧ s₂.qualify 3 x = s.qualify 3 x ∧ s₂.lookup? 3 q = s.lookup? 3 q ∧
      (s₂.enterScope 2).2.LeadsTo s' ∧ s'.qualify 4 x = s'.qualify 2 x ∧ s'.qualify 2 x = some q := by
  have hs : Reachable .empty .default ((((new .empty .default).perform (.enterModule "M" [])).perform
      (.enterScope 1)).perform (.enterScope 1)) := by
    refine .perform (.perform (.perform .new _ ?_) _ ?_) _ ?_ <;> decide +kernel
  intro x q t s₁ s s₂ s'
  have hout : 2 ∉ s.chain 3 := by decide +kernel
  have hlt : 3 < s.frames.length := by decide +kernel
  have hunseen := (bodies_do_not_leak hs).1 2 "M" rfl q t 3 hlt hout
  have hs₂ : Reachable .empty .default s₂ := hs.perform _ (by decide +kernel)
  have hrun : (s₂.enterScope 2).2.LeadsTo s' := .perform .refl _ nofun
  obtain ⟨body, hbody⟩ : ∃ body, s₂.moduleBody? 2 = some body :=
    Option.isSome_iff_exists.1 (by decide +kernel)
  have hempty : ∀ y, s'.entryIn? 4 y = none := fun _ => rfl
  refine ⟨hs, rfl, hout, ?_, ?_, (hunseen x).1, (hunseen q).2, hrun,
    (((bodies_do_not_leak hs₂).2 2 body hbody).2 s' hrun hempty x).1, ?_⟩ <;> decide +kernel

end Scopes

end TypeEngine
