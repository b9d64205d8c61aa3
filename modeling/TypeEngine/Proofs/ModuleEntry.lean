import TypeEngine.Proofs.Visibility

/-! # Entering modules

A module that is entered for the first time comes without definitions, so it hides nothing of what the index
knows about it. One that is entered again gets its new imports behind the old ones, where they resolve only
what was not resolved before. -/

namespace TypeEngine

namespace Scopes

/-! ### Imports -/

theorem mem_addImport (old : List Import) (i : Import) : i ∈ addImport old i := by
  unfold addImport
  split
  · rename_i hmem
    exact List.contains_iff_mem.1 hmem
  · exact List.mem_append_right _ (List.mem_singleton.2 rfl)

theorem subset_foldl_addImport (imports old : List Import) : imports ⊆ imports.foldl addImport old := by
  induction imports generalizing old with
  | nil => exact List.nil_subset _
  | cons i imports ih =>
    rw [List.foldl_cons]
    refine List.cons_subset.2 ⟨?_, ih _⟩
    exact (prefix_foldl_addImport imports (addImport old i)).subset (mem_addImport old i)

theorem foldl_addImport_of_subset {imports old : List Import} (h : imports ⊆ old) :
    imports.foldl addImport old = old := by
  induction imports with
  | nil => rfl
  | cons i imports ih =>
    obtain ⟨hi, himports⟩ := List.cons_subset.1 h
    rw [List.foldl_cons, addImport, if_pos (List.contains_iff_mem.2 hi), ih himports]

/-! ### What stays visible -/

theorem change_enterModule (s : Scopes) (name : String) (imports : List Import) :
    s.Change (s.enterModule name imports).2 := by
  have hchange : s.Change (s.perform (.enterModule name imports)) := s.change_perform nofun
  exact hchange

theorem kind_modifyBody_of_ne (s : Scopes) {scope id : ScopeId} (hid : id ≠ scope)
    (g : ModuleBody → ModuleBody) : (s.modifyBody scope g).kind id = s.kind id := by
  rw [kind, kind, modifyBody, frame?_modifyFrame]
  simp only [hid.symm, if_false, Option.map_id']

namespace Formed

theorem lookupInUnit?_openModule {s : Scopes} (h : s.Formed) {name : String} (imports : List Import)
    (q : Symbol) :
    lookupInUnit?
      { s with
        frames := s.frames ++ [⟨some root, .module ⟨name, imports, ∅, []⟩, ∅⟩]
        modules := s.modules ++ [(name, s.frames.length)] } q = s.lookupInUnit? q := by
  cases howner : q.owner? with
  | none => rw [lookupInUnit?, lookupInUnit?, howner]; rfl
  | some owner =>
    rw [lookupInUnit?, lookupInUnit?, howner, Option.bind_some, Option.bind_some, module?, List.lookup_append]
    cases hid : s.modules.lookup owner with
    | some id =>
      rw [Option.some_or, module?, hid, Option.bind_some, Option.bind_some,
        entryIn?_append rfl (h.kind_of_module? hid).1]
    | none =>
      rw [Option.none_or, module?, hid, List.lookup_cons]
      split
      · rw [Option.bind_some, entryIn?_of_frame? (frame?_append_self rfl), Std.ExtTreeMap.getElem?_empty]
        rfl
      · rfl

theorem seesSame_enterModule {s : Scopes} (h : s.Formed) (name : String) (imports : List Import)
    {c : ScopeId} {f : Frame} (hf : s.frame? c = some f) :
    SeesSame s (s.enterModule name imports).2 c c ∧
      ((s.moduleBody? c).map (·.name) ≠ some name →
        (s.enterModule name imports).2.imports c = s.imports c) := by
  have hretains := (s.change_enterModule name imports).retains
  have hs' := h.change (s.change_enterModule name imports)
  cases hmodule : s.module? name with
  | none =>
    rw [enterModule_of_new hmodule] at hs' ⊢
    obtain ⟨hsees, himports⟩ := h.seesSame_append hs' rfl (h.lookupInUnit?_openModule imports) hf
    exact ⟨hsees, fun _ => himports⟩
  | some id =>
    rw [enterModule_of_entered hmodule] at hretains hs' ⊢
    constructor
    · refine hretains.seesSame h hs' hf (fun id' _ q => entryIn?_modifyBody s id id' _ q) ?_
      exact lookupInUnit?_congr rfl rfl fun _ id' _ q => entryIn?_modifyBody s id id' _ q
    · intro hother
      refine hretains.imports_eq h hs' hf fun id' hid' => s.kind_modifyBody_of_ne ?_ _
      rintro rfl
      obtain ⟨-, body, hkind, hname⟩ := h.kind_of_module? hmodule
      apply hother
      rw [moduleBody?, hid', Option.bind_some, hkind, ← hname]
      rfl

end Formed

/-! ### Entering again -/

theorem enterModule_of_imported {s : Scopes} {name : String} {id : ScopeId} {body : ModuleBody}
    {imports : List Import} (hmodule : s.module? name = some id) (hkind : s.kind id = .module body)
    (himports : imports ⊆ body.imports) : s.enterModule name imports = (id, s) := by
  have hself : (s.modifyBody id fun body =>
      { body with imports := imports.foldl addImport body.imports }) = s := by
    refine modifyFrame_eq_self fun f hf => ?_
    rw [kind_of_frame? hf] at hkind
    obtain ⟨parent, kind, entries⟩ := f
    cases hkind
    simp only [foldl_addImport_of_subset himports]
  rw [enterModule_of_entered hmodule, hself]

theorem Change.mem_modules {s s' : Scopes} (h : s.Change s') {m : String × ScopeId} (hm : m ∈ s.modules) :
    m ∈ s'.modules := by
  cases h with
  | openModule name imports hnew => exact List.mem_append_left _ hm
  | _ => exact hm

theorem LeadsTo.mem_modules {s s' : Scopes} (h : s.LeadsTo s') {m : String × ScopeId}
    (hm : m ∈ s.modules) : m ∈ s'.modules := by
  induction h with
  | refl => exact hm
  | perform _ op hop ih => exact (change_perform _ hop).mem_modules ih

theorem Formed.imported_enterModule {s : Scopes} (h : s.Formed) (name : String) (imports : List Import) :
    (name, (s.enterModule name imports).1) ∈ (s.enterModule name imports).2.modules ∧
      ∃ f body, (s.enterModule name imports).2.frame? (s.enterModule name imports).1 = some f ∧
        f.kind = .module body ∧ imports ⊆ body.imports := by
  cases hmodule : s.module? name with
  | none =>
    rw [enterModule_of_new hmodule]
    exact ⟨List.mem_append_right _ (List.mem_singleton.2 rfl), _, ⟨name, imports, ∅, []⟩,
      frame?_append_self rfl, rfl, List.Subset.refl imports⟩
  | some id =>
    rw [enterModule_of_entered hmodule]
    have hmem := h.module?_eq_some_iff.1 hmodule
    obtain ⟨f, body, hf, hk, -⟩ := h.module_frame hmem
    refine ⟨hmem, { f with kind := .module { body with imports := imports.foldl addImport body.imports } },
      _, ?_, rfl, subset_foldl_addImport imports body.imports⟩
    rw [Scopes.modifyBody, frame?_modifyFrame, hf, Option.map_some, if_pos rfl, hk]

/-- Once a module has its imports, entering it with them again changes nothing, however much later. -/
theorem enterModule_again {index : Index} {options : Options} {s s' : Scopes} (h : Reachable index options s)
    {name : String} {imports : List Import} (hrun : (s.enterModule name imports).2.LeadsTo s') :
    s'.enterModule name imports = ((s.enterModule name imports).1, s') := by
  have hs' : Reachable index options s' := (h.perform (.enterModule name imports) nofun).leadsTo hrun
  obtain ⟨hmem, f, body, hf, hk, himports⟩ := h.formed.imported_enterModule name imports
  have hmodule := hs'.formed.module?_eq_some_iff.2 (hrun.mem_modules hmem)
  have hgrows := hrun.retains.grows hf
  rw [kind_of_frame? hf, hk] at hgrows
  obtain ⟨body', hkind, -, hprefix⟩ := hgrows.exists_body
  exact enterModule_of_imported hmodule hkind (List.Subset.trans himports hprefix.subset)

/-- Entering a module keeps what is resolved, from every scope, and outside of that module it changes
nothing of what can be seen. Entering it with the same imports again changes nothing at all. -/
theorem enterModule_keeps_resolved {index : Index} {options : Options} {s : Scopes}
    (h : Reachable index options s) (name : String) (imports : List Import) :
    (∀ c < s.frames.length, ∀ x,
      (∀ q, s.qualify c x = some q → (s.enterModule name imports).2.qualify c x = some q) ∧
      (∀ e, s.lookup? c x = some e → (s.enterModule name imports).2.lookup? c x = some e) ∧
      ((s.moduleBody? c).map (·.name) ≠ some name →
        (s.enterModule name imports).2.qualify c x = s.qualify c x ∧
        (s.enterModule name imports).2.lookup? c x = s.lookup? c x)) ∧
    ∀ s', (s.enterModule name imports).2.LeadsTo s' →
      s'.enterModule name imports = ((s.enterModule name imports).1, s') := by
  refine ⟨fun c hc x => ?_, fun s' hrun => enterModule_again h hrun⟩
  obtain ⟨f, hf⟩ : ∃ f, s.frame? c = some f := ⟨_, List.getElem?_eq_getElem hc⟩
  have hchange := s.change_enterModule name imports
  have hprefix := hchange.retains.prefix_imports h.formed (h.formed.change hchange) hf
  obtain ⟨hsees, hother⟩ := h.formed.seesSame_enterModule name imports hf
  refine ⟨fun q => hsees.qualify_of_extended hprefix, fun e => hsees.lookup?_of_extended hprefix,
    fun hc => ?_⟩
  exact ⟨hsees.qualify_eq (hother hc) x, hsees.lookup?_eq (hother hc) x⟩

/-- The modules `a` and `b` both have an `x`. A body of `M` goes on to see that of `a` when `b` is imported
later, and `y` of `b` from then on. In `N` nothing changes. -/
theorem enterModule_keeps_resolved_after_import :
    let x := Symbol.unqualified "x"
    let y := Symbol.unqualified "y"
    let i : Index := .ofRegistrations [.entry (.empty (.qualified "a" "x")),
      .entry (.empty (.qualified "b" "x")), .entry (.empty (.qualified "b" "y"))]
    let s₁ := ((new i .default).perform (.enterModule "M" [⟨"a", none⟩])).perform (.enterScope 1)
    let s := s₁.perform (.enterModule "N" [⟨"a", some ["y"]⟩])
    let s' := (s.enterModule "M" [⟨"a", none⟩, ⟨"b", none⟩]).2
    Reachable i .default s ∧ s.qualify 2 x = some (.qualified "a" "x") ∧
      s'.qualify 2 x = some (.qualified "a" "x") ∧ s.qualify 2 y = none ∧
      s'.qualify 2 y = some (.qualified "b" "y") ∧ (s.moduleBody? 3).map (·.name) ≠ some "M" ∧
      s'.qualify 3 y = s.qualify 3 y ∧ s'.enterModule "M" [⟨"a", none⟩, ⟨"b", none⟩] = (1, s') := by
  refine ⟨?hs, ?hx, ((enterModule_keeps_resolved ?hs _ _).1 2 ?_ _).1 _ ?hx, ?_, ?_, ?hN,
    (((enterModule_keeps_resolved ?hs _ _).1 3 ?_ _).2.2 ?hN).1,
    (enterModule_keeps_resolved ?hs _ _).2 _ .refl⟩
  case hs =>
    refine .perform (.perform (.perform .new _ ?_) _ ?_) _ ?_ <;> decide +kernel
  all_goals decide +kernel

end Scopes

end TypeEngine
