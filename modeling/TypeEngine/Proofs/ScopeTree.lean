import TypeEngine.Proofs.UnitRuns

/-! # The tree of scopes

An operation opens a scope, or it changes what belongs to a module, or one entry of one scope, or none of
these (`Change`). Each keeps a few facts about single scopes: where a scope stands (`Placed`) and how its
entries are filed (`Entry.Filed`). All else follows by induction along the scopes outwards, which have
ever smaller numbers: the way out ends at the root, and the name of the module that is kept in the scope
of a body is the name of the module met on the way. A map from names to modules and a list of the names that
are kept along with the scopes, each on its own, stay in step (`ModuleTable`). -/

namespace TypeEngine

/-! ### Entries -/

/-- The entry is filed under its own symbol, which `module?` owns, and the getter is that of its value. -/
structure Entry.Filed (e : Entry) (symbol : Symbol) (module? : Option String) : Prop where
  symbol_eq : e.symbol = symbol
  owned : ∃ owner, owner ≠ "" ∧ symbol.owner? = some owner ∧ module? = some owner
  getter_eq : e.getter = e.value.map (.ofValue e.symbol)

theorem SlotConflict.exists_of_map_eq_ok {α : Type} {slot : Except SlotConflict α} {f : α → Entry}
    {e : Entry} (h : slot.map f = .ok e) : ∃ x, f x = e := by
  cases slot with
  | error c => cases h
  | ok x => exact ⟨x, Except.ok.inj h⟩

namespace Scopes

def Definition.change (symbol : Symbol) : Definition → Entry → Except SlotConflict Entry
  | .value t, e => .ok (e.setValue t (.ofValue symbol t))
  | .signature t, e => .ok (e.setSignature t)
  | .operator o, e => e.defineOperator o
  | .dataType d, e => e.defineDataType d
  | .dataConstructor d, e => e.defineDataConstructor d
  | .typeClass c, e => e.defineTypeClass c
  | .memberOf c, e => e.defineMemberOf c

theorem record_eq (s : Scopes) (scope : ScopeId) (symbol : Symbol) (d : Definition) :
    s.record scope symbol d = s.define scope symbol (d.change symbol) := by
  cases d <;> rfl

theorem Definition.filed_change {symbol : Symbol} {module? : Option String} {d : Definition}
    {e e' : Entry} (he : e.Filed symbol module?) (h : d.change symbol e = .ok e') :
    e'.Filed symbol module? := by
  obtain ⟨hsymbol, howned, hgetter⟩ := he
  cases d with
  | value t =>
    cases h
    exact ⟨hsymbol, howned, by simp [Entry.setValue, hsymbol]⟩
  | signature t =>
    cases h
    exact ⟨hsymbol, howned, hgetter⟩
  | _ =>
    obtain ⟨slot, rfl⟩ := SlotConflict.exists_of_map_eq_ok h
    exact ⟨hsymbol, howned, hgetter⟩

/-! ### What an operation can do -/

/-- The scopes after one operation on `s`; one that is about types, hands out a symbol or fails keeps the tree. -/
inductive Change (s : Scopes) : Scopes → Prop
  | keep (store : Store) (reserved : Nat) : Change s { s with store := store, reserved := reserved }
  | openModule (name : String) (imports : List Import) (hnew : s.module? name = none) :
      Change s
        { s with
          frames := s.frames ++ [⟨some root, .module ⟨name, imports, ∅, []⟩, ∅⟩]
          modules := s.modules ++ [(name, s.frames.length)] }
  | openScope (scope : ScopeId) (hscope : scope < s.frames.length) : Change s (s.enterScope scope).2
  | modifyBody (id : ScopeId) (f : ModuleBody → ModuleBody) (hname : ∀ body, (f body).name = body.name)
      (himports : ∀ body, body.imports <+: (f body).imports) : Change s (s.modifyBody id f)
  | define (scope : ScopeId) (symbol : Symbol) (owner : String) (d : Definition) (e : Entry)
      (hsymbol : symbol.owner? = some owner) (hscope : s.moduleName? scope = some owner)
      (hne : owner ≠ "")
      (he : d.change symbol ((s.entryIn? scope symbol).getD (.empty symbol)) = .ok e) :
      Change s (s.modifyFrame scope fun f => { f with entries := f.entries.insert symbol e })

theorem Change.refl (s : Scopes) : s.Change s := .keep s.store s.reserved

/-- The name taken for a scope outside of every module is the empty one. -/
theorem moduleName?_eq_some_of_getD {s : Scopes} {scope : ScopeId} {owner : String}
    (hsame : owner = (s.moduleName? scope).getD "") (hne : owner ≠ "") :
    s.moduleName? scope = some owner := by
  cases hname : s.moduleName? scope with
  | none => exact absurd (by rw [hsame, hname]; rfl) hne
  | some name => rw [hsame, hname]; rfl

theorem define_eq_ok {s s' : Scopes} {scope : ScopeId} {symbol : Symbol}
    {change : Entry → Except SlotConflict Entry} (h : s.define scope symbol change = .ok s') :
    ∃ owner e, symbol.owner? = some owner ∧ s.moduleName? scope = some owner ∧ owner ≠ "" ∧
      change ((s.entryIn? scope symbol).getD (.empty symbol)) = .ok e ∧
      s' = s.modifyFrame scope fun f => { f with entries := f.entries.insert symbol e } := by
  unfold define at h
  dsimp only at h
  split at h
  · cases h
  · rename_i owner howner
    split at h
    · cases h
    · rename_i hmodule
      split at h
      · cases h
      · rename_i e he
        cases h
        obtain ⟨hsame, hne⟩ := not_or.1 hmodule
        have hsame : owner = (s.moduleName? scope).getD "" := not_not.1 hsame
        rw [← hsame] at hne
        exact ⟨owner, e, howner, moduleName?_eq_some_of_getD hsame hne, hne, he, rfl⟩

theorem change_modifyModuleOf (s : Scopes) (scope : ScopeId) {f : ModuleBody → ModuleBody}
    (hname : ∀ body, (f body).name = body.name) (himports : ∀ body, body.imports <+: (f body).imports) :
    s.Change (s.modifyModuleOf scope f) := by
  unfold modifyModuleOf
  split
  · exact .modifyBody _ f hname himports
  · exact .refl s

theorem prefix_foldl_addImport (imports old : List Import) : old <+: imports.foldl addImport old := by
  refine List.foldlRecOn (motive := fun l => old <+: l) imports _ List.prefix_rfl fun l hl i _ => ?_
  unfold addImport
  split
  · exact hl
  · exact hl.trans (List.prefix_append l [i])

theorem change_perform (s : Scopes) {op : Operation}
    (hop : ∀ scope ∈ op.scope?, scope < s.frames.length) : s.Change (s.perform op) := by
  cases op with
  | types call => exact .keep _ _
  | enterModule name imports =>
    simp only [perform, enterModule]
    split
    · exact .modifyBody _ _ (fun _ => rfl) fun body => prefix_foldl_addImport imports body.imports
    · rename_i hnew
      exact .openModule name imports hnew
  | enterScope scope => exact .openScope scope (hop scope rfl)
  | record scope symbol d =>
    simp only [perform, record_eq]
    split
    · rename_i s' hdefine
      obtain ⟨owner, e, howner, hscope, hne, he, rfl⟩ := define_eq_ok hdefine
      exact .define scope symbol owner d e howner hscope hne he
    · exact .refl s
  | implement c t => exact .keep _ _
  | addCase scope symbol c => exact s.change_modifyModuleOf scope (fun _ => rfl) fun _ => List.prefix_rfl
  | addDependency scope symbol =>
    simp only [perform, addDependency]
    split
    · exact .refl s
    · exact s.change_modifyModuleOf scope (fun _ => rfl) fun _ => List.prefix_rfl
  | reserveSymbol scope nestings => exact .keep _ _
  | signature scope symbol =>
    simp only [perform]
    split
    · rename_i hsig
      obtain ⟨u, -, hu⟩ := Option.map_eq_some_iff.1 hsig
      cases hu
      exact .keep _ _
    · exact .refl s

/-- The symbol that an operation reserves. -/
def handsOut? (s : Scopes) : Operation → Option Symbol
  | .reserveSymbol scope nestings => some (s.reserveSymbol scope nestings).1
  | _ => none

theorem exists_modifyModuleOf_eq (s : Scopes) (scope : ScopeId) (f : ModuleBody → ModuleBody) :
    ∃ frames, s.modifyModuleOf scope f = { s with frames := frames } := by
  unfold modifyModuleOf
  split
  · exact ⟨_, rfl⟩
  · exact ⟨s.frames, rfl⟩

/-- An operation that reserves a symbol takes one number, and any other one none. The modules stay unless one is
entered, and the stem stays. -/
theorem exists_perform_eq (s : Scopes) (op : Operation) :
    ∃ frames modules store,
      s.perform op =
        { s with
          frames := frames, modules := modules, store := store
          reserved := s.reserved + (s.handsOut? op).toList.length } ∧
      ((∀ name imports, op ≠ .enterModule name imports) → modules = s.modules) := by
  cases op with
  | types call => exact ⟨_, _, _, rfl, fun _ => rfl⟩
  | enterModule name imports =>
    simp only [perform, enterModule]
    split <;> exact ⟨_, _, _, rfl, fun h => absurd rfl (h name imports)⟩
  | enterScope scope => exact ⟨_, _, _, rfl, fun _ => rfl⟩
  | record scope symbol d =>
    simp only [perform, record_eq]
    split
    · rename_i s' hdefine
      obtain ⟨owner, e, -, -, -, -, rfl⟩ := define_eq_ok hdefine
      exact ⟨_, _, _, rfl, fun _ => rfl⟩
    · exact ⟨_, _, _, rfl, fun _ => rfl⟩
  | implement c t => exact ⟨_, _, _, rfl, fun _ => rfl⟩
  | addCase scope symbol c =>
    obtain ⟨frames, hframes⟩ := s.exists_modifyModuleOf_eq scope fun body =>
      { body with cases := body.cases.add symbol c }
    exact ⟨_, _, _, hframes, fun _ => rfl⟩
  | addDependency scope symbol =>
    simp only [perform, addDependency]
    split
    · exact ⟨_, _, _, rfl, fun _ => rfl⟩
    · obtain ⟨frames, hframes⟩ := s.exists_modifyModuleOf_eq scope fun body =>
        { body with dependencies := body.dependencies.insert symbol }
      exact ⟨_, _, _, hframes, fun _ => rfl⟩
  | reserveSymbol scope nestings => exact ⟨_, _, _, rfl, fun _ => rfl⟩
  | signature scope symbol =>
    simp only [perform]
    split
    · rename_i hsig
      obtain ⟨u, -, hu⟩ := Option.map_eq_some_iff.1 hsig
      cases hu
      exact ⟨_, _, _, rfl, fun _ => rfl⟩
    · exact ⟨_, _, _, rfl, fun _ => rfl⟩

theorem modules_perform (s : Scopes) {op : Operation} (hop : ∀ name imports, op ≠ .enterModule name imports) :
    (s.perform op).modules = s.modules := by
  obtain ⟨frames, modules, store, h, hmodules⟩ := s.exists_perform_eq op
  rw [h]
  exact hmodules hop

theorem enterModule_of_new {s : Scopes} {name : String} (hnew : s.module? name = none)
    (imports : List Import) :
    s.enterModule name imports =
      (s.frames.length,
        { s with
          frames := s.frames ++ [⟨some root, .module ⟨name, imports, ∅, []⟩, ∅⟩]
          modules := s.modules ++ [(name, s.frames.length)] }) := by
  rw [enterModule, hnew]
  rfl

theorem enterModule_of_entered {s : Scopes} {name : String} {id : ScopeId}
    (hid : s.module? name = some id) (imports : List Import) :
    s.enterModule name imports =
      (id, s.modifyBody id fun body =>
        { body with imports := imports.foldl addImport body.imports }) := by
  rw [enterModule, hid]

theorem Change.index_eq {s s' : Scopes} (h : s.Change s') : s'.index = s.index := by
  cases h <;> rfl

theorem Reachable.index_eq {index : Index} {options : Options} {s : Scopes}
    (h : Reachable index options s) : s.index = index := by
  induction h with
  | new => rfl
  | perform hs op hop ih => rw [(change_perform _ hop).index_eq, ih]

/-! ### Frames -/

theorem frame?_modifyFrame (s : Scopes) (scope id : ScopeId) (g : Frame → Frame) :
    (s.modifyFrame scope g).frame? id = (s.frame? id).map fun f => if scope = id then g f else f :=
  List.getElem?_modify g scope s.frames id

theorem modifyFrame_eq_self {s : Scopes} {scope : ScopeId} {g : Frame → Frame}
    (h : ∀ f, s.frame? scope = some f → g f = f) : s.modifyFrame scope g = s := by
  have hframes : s.frames.modify scope g = s.frames := by
    refine List.ext_getElem? fun id => ?_
    rw [List.getElem?_modify]
    cases hf : s.frames[id]? with
    | none => rfl
    | some f =>
      rw [Option.map_eq_map, Option.map_some]
      split
      · rename_i hid
        subst hid
        rw [h f hf]
      · rfl
  rw [modifyFrame, hframes]

theorem lt_of_frame? {s : Scopes} {id : ScopeId} {f : Frame} (h : s.frame? id = some f) :
    id < s.frames.length :=
  (List.getElem?_eq_some_iff.1 h).1

theorem frame?_append {s s' : Scopes} {new : Frame} (h : s'.frames = s.frames ++ [new]) {id : ScopeId} :
    s'.frame? id = if id = s.frames.length then some new else s.frame? id := by
  rw [frame?, frame?, h, List.getElem?_append, List.getElem?_singleton]
  split
  · rename_i hlt
    rw [if_neg hlt.ne]
  · rename_i hge
    have hle := not_lt.1 hge
    rw [List.getElem?_eq_none hle]
    exact if_congr (Nat.sub_eq_zero_iff_le.trans ⟨hle.antisymm', Eq.le⟩) rfl rfl

theorem frame?_append_self {s s' : Scopes} {new : Frame} (h : s'.frames = s.frames ++ [new]) :
    s'.frame? s.frames.length = some new := by
  rw [frame?_append h, if_pos rfl]

theorem kind_of_frame? {s : Scopes} {id : ScopeId} {f : Frame} (h : s.frame? id = some f) :
    s.kind id = f.kind := by
  rw [kind, h]
  rfl

theorem moduleName?_of_frame? {s : Scopes} {id : ScopeId} {f : Frame} (h : s.frame? id = some f) :
    s.moduleName? id = f.kind.moduleName? := by
  rw [moduleName?, kind_of_frame? h]

theorem kind_modifyFrame (s : Scopes) (scope id : ScopeId) {g : Frame → Frame}
    (hkind : ∀ f, (g f).kind = f.kind) : (s.modifyFrame scope g).kind id = s.kind id := by
  rw [kind, kind, frame?_modifyFrame]
  cases s.frame? id with
  | none => rfl
  | some f =>
    rw [Option.map_some, Option.map_some, Option.map_some]
    split
    · rw [hkind f]
    · rfl

theorem exists_frame_of_moduleName? {s : Scopes} {id : ScopeId} {name : String}
    (h : s.moduleName? id = some name) : ∃ f, s.frame? id = some f := by
  cases hf : s.frame? id with
  | none =>
    rw [moduleName?, kind, hf] at h
    cases h
  | some f => exact ⟨f, rfl⟩

theorem moduleName?_append {s s' : Scopes} {new : Frame} (h : s'.frames = s.frames ++ [new])
    {id : ScopeId} (hid : id < s.frames.length) : s'.moduleName? id = s.moduleName? id := by
  rw [moduleName?, moduleName?, kind, kind, frame?_append h, if_neg hid.ne]

theorem entryIn?_of_frame? {s : Scopes} {id : ScopeId} {f : Frame} (h : s.frame? id = some f)
    (symbol : Symbol) : s.entryIn? id symbol = f.entries[symbol]? := by
  rw [entryIn?, h, Option.bind_some]

theorem entryIn?_append {s s' : Scopes} {new : Frame} (h : s'.frames = s.frames ++ [new]) {id : ScopeId}
    (hid : id < s.frames.length) (symbol : Symbol) : s'.entryIn? id symbol = s.entryIn? id symbol := by
  rw [entryIn?, entryIn?, frame?_append h, if_neg hid.ne]

theorem entryIn?_modifyBody (s : Scopes) (scope id : ScopeId) (g : ModuleBody → ModuleBody)
    (symbol : Symbol) : (s.modifyBody scope g).entryIn? id symbol = s.entryIn? id symbol := by
  rw [entryIn?, entryIn?, modifyBody, frame?_modifyFrame]
  cases s.frame? id with
  | none => rfl
  | some f =>
    rw [Option.map_some, Option.bind_some, Option.bind_some]
    split
    · split <;> rfl
    · rfl

theorem entryIn?_insert (s : Scopes) (scope id : ScopeId) (symbol other : Symbol) (e : Entry) :
    (s.modifyFrame scope fun f => { f with entries := f.entries.insert symbol e }).entryIn? id other =
      if scope = id ∧ symbol = other then (s.frame? id).map fun _ => e else s.entryIn? id other := by
  rw [entryIn?, entryIn?, frame?_modifyFrame]
  cases s.frame? id with
  | none => simp
  | some f =>
    by_cases hid : scope = id
    · simp [hid, Std.ExtTreeMap.getElem?_insert]
    · simp [hid]

end Scopes

/-- The kind of one scope, earlier and later: a module keeps its name and its imports. -/
inductive FrameKind.Grows : FrameKind → FrameKind → Prop
  | root : Grows .root .root
  | module {body body' : ModuleBody} (hname : body'.name = body.name)
      (himports : body.imports <+: body'.imports) : Grows (.module body) (.module body')
  | child (name : String) : Grows (.child name) (.child name)

theorem FrameKind.Grows.refl (k : FrameKind) : k.Grows k := by
  cases k with
  | root => exact .root
  | module body => exact .module rfl List.prefix_rfl
  | child name => exact .child name

theorem FrameKind.Grows.moduleName?_eq {k k' : FrameKind} (h : k.Grows k') :
    k'.moduleName? = k.moduleName? := by
  cases h with
  | root => rfl
  | module hname _ => exact congrArg some hname
  | child name => rfl

theorem FrameKind.Grows.exists_body {body : ModuleBody} {k : FrameKind}
    (h : (FrameKind.module body).Grows k) :
    ∃ body', k = .module body' ∧ body'.name = body.name ∧ body.imports <+: body'.imports := by
  cases h with
  | module hname himports => exact ⟨_, rfl, hname, himports⟩

namespace Scopes

/-! ### Facts about single scopes -/

/-- What kind of scope the frame number `id` is, and what is around it. -/
inductive Placed (s : Scopes) (id : ScopeId) (f : Frame) : Prop
  | root (hid : id = Scopes.root) (hparent : f.parent = none) (hkind : f.kind = .root)
  | module (body : ModuleBody) (hid : Scopes.root < id) (hparent : f.parent = some Scopes.root)
      (hkind : f.kind = .module body) (hmem : (body.name, id) ∈ s.modules)
  | child (parent : ScopeId) (hid : parent < id) (hparent : f.parent = some parent)
      (hkind : f.kind = .child ((s.moduleName? parent).getD ""))

theorem Placed.mono {s s' : Scopes} {id : ScopeId} {f f' : Frame} (h : s.Placed id f)
    (hparent : f'.parent = f.parent) (hkind : f.kind.Grows f'.kind)
    (hnames : ∀ parent < id, s'.moduleName? parent = s.moduleName? parent)
    (hmodules : ∀ m ∈ s.modules, m ∈ s'.modules) : s'.Placed id f' := by
  obtain ⟨parent', kind', entries'⟩ := f'
  dsimp only at hparent hkind
  cases h with
  | root hid hp hk =>
    rw [hk] at hkind
    cases hkind
    exact .root hid (hparent.trans hp) rfl
  | module body hid hp hk hmem =>
    rw [hk] at hkind
    cases hkind with
    | module hname _ => exact .module _ hid (hparent.trans hp) rfl (hname ▸ hmodules _ hmem)
  | child parent hid hp hk =>
    rw [hk] at hkind
    cases hkind
    exact .child parent hid (hparent.trans hp) (by rw [hnames parent hid])

/-- The facts about single scopes, and about the list of modules, that every operation keeps. -/
structure Formed (s : Scopes) : Prop where
  root_lt : root < s.frames.length
  placed : ∀ {id : ScopeId} {f : Frame}, s.frame? id = some f → s.Placed id f
  filed : ∀ {id : ScopeId} {f : Frame} {symbol : Symbol} {e : Entry}, s.frame? id = some f →
    f.entries[symbol]? = some e → e.Filed symbol f.kind.moduleName?
  names_nodup : (s.modules.map (·.1)).Nodup
  module_frame : ∀ {name : String} {id : ScopeId}, (name, id) ∈ s.modules →
    ∃ f body, s.frame? id = some f ∧ f.kind = .module body ∧ body.name = name

theorem formed_new (index : Index) (options : Options) : (new index options).Formed where
  root_lt := Nat.one_pos
  placed {id f} hf := by
    obtain ⟨hid, rfl⟩ := List.getElem?_eq_some_iff.1 hf
    obtain rfl : id = 0 := Nat.lt_one_iff.1 hid
    exact .root rfl rfl rfl
  filed {id f symbol e} hf he := by
    obtain ⟨hid, rfl⟩ := List.getElem?_eq_some_iff.1 hf
    obtain rfl : id = 0 := Nat.lt_one_iff.1 hid
    simp [new] at he
  names_nodup := List.nodup_nil
  module_frame := nofun

namespace Formed

theorem parent_lt {s : Scopes} (h : s.Formed) {id parent : ScopeId} {f : Frame}
    (hf : s.frame? id = some f) (hparent : f.parent = some parent) : parent < id := by
  cases h.placed hf with
  | root hid hp hk => rw [hp] at hparent; cases hparent
  | module body hid hp hk hmem => rw [hp] at hparent; cases hparent; exact hid
  | child parent' hid hp hk => rw [hp] at hparent; cases hparent; exact hid

theorem keep {s : Scopes} (h : s.Formed) (store : Store) (reserved : Nat) :
    Formed { s with store := store, reserved := reserved } where
  root_lt := h.root_lt
  placed hf := (h.placed hf).mono rfl (.refl _) (fun _ _ => rfl) fun _ => id
  filed := h.filed
  names_nodup := h.names_nodup
  module_frame := h.module_frame

/-- A change inside of one scope that keeps its outline and files what it adds. -/
theorem modifyFrame {s : Scopes} (h : s.Formed) {scope : ScopeId} {g : Frame → Frame}
    (hparent : ∀ f, (g f).parent = f.parent) (hkind : ∀ f : Frame, f.kind.Grows (g f).kind)
    (hentries : ∀ {f : Frame} {symbol : Symbol} {e : Entry}, s.frame? scope = some f →
      (g f).entries[symbol]? = some e → f.entries[symbol]? = some e ∨ e.Filed symbol f.kind.moduleName?) :
    (s.modifyFrame scope g).Formed := by
  have houtline : ∀ (id : ScopeId) (f : Frame), (if scope = id then g f else f).parent = f.parent ∧
      f.kind.Grows (if scope = id then g f else f).kind := by
    intro id f
    split
    · exact ⟨hparent f, hkind f⟩
    · exact ⟨rfl, .refl _⟩
  have hnames : ∀ id, (s.modifyFrame scope g).moduleName? id = s.moduleName? id := by
    intro id
    rw [moduleName?, moduleName?, kind, kind, frame?_modifyFrame]
    cases s.frame? id with
    | none => rfl
    | some f => exact (houtline id f).2.moduleName?_eq
  refine ⟨?_, fun {id f'} hf' => ?_, fun {id f' symbol e} hf' he => ?_, h.names_nodup,
    fun {name id} hmem => ?_⟩
  · exact (List.length_modify g s.frames scope).symm ▸ h.root_lt
  · rw [frame?_modifyFrame] at hf'
    obtain ⟨f, hf, rfl⟩ := Option.map_eq_some_iff.1 hf'
    obtain ⟨hp, hk⟩ := houtline id f
    exact (h.placed hf).mono hp hk (fun parent _ => hnames parent) fun _ hm => hm
  · rw [frame?_modifyFrame] at hf'
    obtain ⟨f, hf, rfl⟩ := Option.map_eq_some_iff.1 hf'
    rw [(houtline id f).2.moduleName?_eq]
    split at he
    · rename_i hid
      subst hid
      exact (hentries hf he).elim (h.filed hf) fun hfiled => hfiled
    · exact h.filed hf he
  · obtain ⟨f, body, hf, hk, hname⟩ := h.module_frame hmem
    have hk' := (houtline id f).2
    rw [hk] at hk'
    obtain ⟨body', hk', hname', -⟩ := hk'.exists_body
    exact ⟨_, body', by rw [frame?_modifyFrame, hf, Option.map_some], hk', hname'.trans hname⟩

theorem modifyBody {s : Scopes} (h : s.Formed) (id : ScopeId) {f : ModuleBody → ModuleBody}
    (hname : ∀ body, (f body).name = body.name) (himports : ∀ body, body.imports <+: (f body).imports) :
    (s.modifyBody id f).Formed := by
  refine h.modifyFrame (fun frame => ?_) (fun frame => ?_) fun {frame symbol e} _ he => ?_
  · split <;> rfl
  · split
    · rename_i body hk
      rw [hk]
      exact .module (hname body) (himports body)
    · exact .refl _
  · split at he <;> exact .inl he

theorem define {s : Scopes} (h : s.Formed) {scope : ScopeId} {symbol : Symbol} {owner : String}
    {d : Definition} {e : Entry} (hsymbol : symbol.owner? = some owner)
    (hscope : s.moduleName? scope = some owner) (hne : owner ≠ "")
    (he : d.change symbol ((s.entryIn? scope symbol).getD (.empty symbol)) = .ok e) :
    (s.modifyFrame scope fun f => { f with entries := f.entries.insert symbol e }).Formed := by
  refine h.modifyFrame (fun _ => rfl) (fun _ => .refl _) fun {f symbol' e'} hf he' => ?_
  have howner : f.kind.moduleName? = some owner := by rw [← moduleName?_of_frame? hf, hscope]
  have hold : ((s.entryIn? scope symbol).getD (.empty symbol)).Filed symbol f.kind.moduleName? := by
    rw [entryIn?, hf, Option.bind_some]
    cases hentry : f.entries[symbol]? with
    | none => exact ⟨rfl, ⟨owner, hne, hsymbol, howner⟩, rfl⟩
    | some old => exact h.filed hf hentry
  rw [Std.ExtTreeMap.getElem?_insert] at he'
  split at he'
  · rename_i hsame
    cases he'
    rw [← Std.LawfulEqOrd.eq_of_compare hsame]
    exact .inr (Definition.filed_change hold he)
  · exact .inl he'

/-- A scope opened after the others, with nothing defined in it. -/
theorem append {s s' : Scopes} (h : s.Formed) {new : Frame} (hframes : s'.frames = s.frames ++ [new])
    (hentries : new.entries = ∅) (hplaced : s'.Placed s.frames.length new)
    (hmodules : ∀ m ∈ s.modules, m ∈ s'.modules) (hnodup : (s'.modules.map (·.1)).Nodup)
    (hmodule : ∀ {name : String} {id : ScopeId}, (name, id) ∈ s'.modules → (name, id) ∈ s.modules ∨
      id = s.frames.length ∧ ∃ body, new.kind = .module body ∧ body.name = name) : s'.Formed := by
  refine ⟨?_, fun {id f} hf => ?_, fun {id f symbol e} hf he => ?_, hnodup, fun {name id} hmem => ?_⟩
  · rw [hframes, List.length_append]
    exact Nat.lt_add_right 1 h.root_lt
  · rw [frame?_append hframes] at hf
    split at hf
    · rename_i hid
      cases hf
      exact hid ▸ hplaced
    · refine (h.placed hf).mono rfl (.refl _) (fun parent hparent => ?_) hmodules
      exact moduleName?_append hframes (hparent.trans (lt_of_frame? hf))
  · rw [frame?_append hframes] at hf
    split at hf
    · cases hf
      rw [hentries, Std.ExtTreeMap.getElem?_empty] at he
      cases he
    · exact h.filed hf he
  · rw [frame?_append hframes]
    rcases hmodule hmem with hmem | ⟨hid, body, hk, hname⟩
    · obtain ⟨f, body, hf, hk, hname⟩ := h.module_frame hmem
      exact ⟨f, body, by rw [if_neg (lt_of_frame? hf).ne, hf], hk, hname⟩
    · exact ⟨new, body, if_pos hid, hk, hname⟩

theorem openModule {s : Scopes} (h : s.Formed) {name : String} (imports : List Import)
    (hnew : s.module? name = none) :
    Formed
      { s with
        frames := s.frames ++ [⟨some root, .module ⟨name, imports, ∅, []⟩, ∅⟩]
        modules := s.modules ++ [(name, s.frames.length)] } := by
  refine h.append rfl rfl ?_ (fun m hm => List.mem_append_left _ hm) ?_ fun {name' id} hmem => ?_
  · exact .module _ h.root_lt rfl rfl (List.mem_append_right _ (List.mem_singleton.2 rfl))
  · have hfresh : name ∉ s.modules.map (·.1) := by
      intro hmem
      obtain ⟨m, hm, rfl⟩ := List.mem_map.1 hmem
      simpa using List.lookup_eq_none_iff.1 hnew m hm
    rw [List.map_append]
    exact h.names_nodup.append (List.nodup_singleton name) (List.disjoint_singleton.2 hfresh)
  · rcases List.mem_append.1 hmem with hmem | hmem
    · exact .inl hmem
    · cases List.mem_singleton.1 hmem
      exact .inr ⟨rfl, _, rfl, rfl⟩

theorem openScope {s : Scopes} (h : s.Formed) {scope : ScopeId} (hscope : scope < s.frames.length) :
    (s.enterScope scope).2.Formed := by
  have hname : (s.enterScope scope).2.moduleName? scope = s.moduleName? scope :=
    moduleName?_append rfl hscope
  refine h.append rfl rfl (.child scope hscope rfl ?_) (fun _ hm => hm) h.names_nodup .inl
  rw [hname]

theorem change {s s' : Scopes} (h : s.Formed) (hchange : s.Change s') : s'.Formed := by
  cases hchange with
  | keep store reserved => exact h.keep store reserved
  | openModule name imports hnew => exact h.openModule imports hnew
  | openScope scope hscope => exact h.openScope hscope
  | modifyBody id f hname himports => exact h.modifyBody id hname himports
  | define scope symbol owner d e hsymbol hscope hne he => exact h.define hsymbol hscope hne he

end Formed

theorem Reachable.formed {index : Index} {options : Options} {s : Scopes}
    (h : Reachable index options s) : s.Formed := by
  induction h with
  | new => exact formed_new index options
  | perform hs op hop ih => exact ih.change (change_perform _ hop)

/-! ### The way out -/

theorem chain_of_parent_none {s : Scopes} {id : ScopeId} {f : Frame} (hf : s.frame? id = some f)
    (hparent : f.parent = none) : s.chain id = [id] := by
  rw [chain, chainWithin, hf]
  simp only [hparent]

theorem moduleBody?_of_parent {s : Scopes} {id parent : ScopeId} (hbody : (s.kind id).body? = none)
    (hchain : s.chain id = id :: s.chain parent) : s.moduleBody? id = s.moduleBody? parent := by
  rw [moduleBody?, moduleScope?, hchain, List.find?_cons_of_neg (by simp [hbody])]
  rfl

theorem moduleBody?_of_body? {s : Scopes} {id : ScopeId} {body : ModuleBody} {rest : List ScopeId}
    (hbody : (s.kind id).body? = some body) (hchain : s.chain id = id :: rest) :
    s.moduleBody? id = some body := by
  rw [moduleBody?, moduleScope?, hchain, List.find?_cons_of_pos (by simp [hbody]), Option.bind_some, hbody]

theorem moduleBody?_of_chain_singleton {s : Scopes} {id : ScopeId} (hbody : (s.kind id).body? = none)
    (hchain : s.chain id = [id]) : s.moduleBody? id = none := by
  rw [moduleBody?, moduleScope?, hchain, List.find?_cons_of_neg (by simp [hbody])]
  rfl

namespace Formed

theorem chainWithin_eq {s : Scopes} (h : s.Formed) {n : Nat} {id : ScopeId} (hn : id < n) :
    s.chainWithin n id = s.chain id := by
  -- numbers fall on the way out, so the number of a scope bounds the length of the way
  induction id using Nat.strongRecOn generalizing n with
  | ind id ih =>
    obtain ⟨n, rfl⟩ := Nat.exists_eq_succ_of_ne_zero (Nat.ne_zero_of_lt hn)
    rw [chain, chainWithin, chainWithin]
    split
    · rfl
    · rename_i f hf
      split
      · rfl
      · rename_i parent hparent
        have hlt := h.parent_lt hf hparent
        rw [ih parent hlt (hlt.trans_le (Nat.lt_succ_iff.1 hn)), ih parent hlt hlt]

theorem chain_of_parent {s : Scopes} (h : s.Formed) {id parent : ScopeId} {f : Frame}
    (hf : s.frame? id = some f) (hparent : f.parent = some parent) :
    s.chain id = id :: s.chain parent := by
  rw [chain, chainWithin, hf]
  simp only [hparent]
  rw [h.chainWithin_eq (h.parent_lt hf hparent)]

theorem exists_parent_frame {s : Scopes} (h : s.Formed) {id parent : ScopeId} {f : Frame}
    (hf : s.frame? id = some f) (hparent : f.parent = some parent) : ∃ f', s.frame? parent = some f' :=
  ⟨_, List.getElem?_eq_getElem ((h.parent_lt hf hparent).trans (lt_of_frame? hf))⟩

theorem parent_eq_none_iff {s : Scopes} (h : s.Formed) {id : ScopeId} {f : Frame}
    (hf : s.frame? id = some f) : f.parent = none ↔ id = root := by
  cases h.placed hf with
  | root hid hp hk => simp [hid, hp]
  | module body hid hp hk hmem => simp [hp, hid.ne']
  | child parent hid hp hk => simp [hp, (Nat.zero_lt_of_lt hid).ne', root]

theorem getLast?_chain {s : Scopes} (h : s.Formed) {id : ScopeId} {f : Frame}
    (hf : s.frame? id = some f) : (s.chain id).getLast? = some root := by
  induction id using Nat.strongRecOn generalizing f with
  | ind id ih =>
    cases hparent : f.parent with
    | none =>
      rw [chain_of_parent_none hf hparent, (h.parent_eq_none_iff hf).1 hparent]
      rfl
    | some parent =>
      obtain ⟨f', hf'⟩ := h.exists_parent_frame hf hparent
      rw [h.chain_of_parent hf hparent, List.getLast?_cons, ih parent (h.parent_lt hf hparent) hf']
      rfl

/-- The name that a scope has for its module is that of the module met on the way out. -/
theorem moduleName_eq {s : Scopes} (h : s.Formed) {id : ScopeId} {f : Frame}
    (hf : s.frame? id = some f) :
    f.kind.moduleName?.getD "" = ((s.moduleBody? id).map (·.name)).getD "" := by
  induction id using Nat.strongRecOn generalizing f with
  | ind id ih =>
    cases h.placed hf with
    | root hid hp hk =>
      have hbody : (s.kind id).body? = none := by rw [kind_of_frame? hf, hk]; rfl
      rw [moduleBody?_of_chain_singleton hbody (chain_of_parent_none hf hp), hk]
      rfl
    | module body hid hp hk hmem =>
      have hbody : (s.kind id).body? = some body := by rw [kind_of_frame? hf, hk]; rfl
      rw [moduleBody?_of_body? hbody (h.chain_of_parent hf hp), hk]
      rfl
    | child parent hid hp hk =>
      have hbody : (s.kind id).body? = none := by rw [kind_of_frame? hf, hk]; rfl
      obtain ⟨f', hf'⟩ := h.exists_parent_frame hf hp
      rw [moduleBody?_of_parent hbody (h.chain_of_parent hf hp), hk, moduleName?_of_frame? hf']
      exact ih parent hid hf'

theorem module_placed {s : Scopes} (h : s.Formed) {id : ScopeId} {f : Frame} {body : ModuleBody}
    (hf : s.frame? id = some f) (hkind : f.kind = .module body) :
    f.parent = some root ∧ (body.name, id) ∈ s.modules := by
  cases h.placed hf with
  | root hid hp hk => rw [hk] at hkind; cases hkind
  | module body' hid hp hk hmem => rw [hk] at hkind; cases hkind; exact ⟨hp, hmem⟩
  | child parent hid hp hk => rw [hk] at hkind; cases hkind

theorem module?_eq_some_iff {s : Scopes} (h : s.Formed) {name : String} {id : ScopeId} :
    s.module? name = some id ↔ (name, id) ∈ s.modules := by
  have hmem : ∀ {id' : ScopeId}, s.module? name = some id' → (name, id') ∈ s.modules := by
    intro id' hid'
    obtain ⟨front, back, hmodules, -⟩ := List.lookup_eq_some_iff.1 hid'
    rw [hmodules]
    exact List.mem_append_right _ List.mem_cons_self
  refine ⟨hmem, fun hid => ?_⟩
  cases hname : s.module? name with
  | none => simpa using List.lookup_eq_none_iff.1 hname _ hid
  | some id' =>
    have hsame := List.inj_on_of_nodup_map h.names_nodup (hmem hname) hid rfl
    rw [(Prod.mk.inj hsame).2]

end Formed

/-! ### Two tables of modules -/

/-- The scopes of the modules by name, and beside them the names in order of first entry. -/
structure ModuleTable where
  ids : Std.ExtTreeMap String ScopeId compare
  order : List String

namespace ModuleTable

def empty : ModuleTable := ⟨∅, []⟩

/-- Enters a module; `next` is the number of the scope that is opened for a new one. -/
def enter (m : ModuleTable) (name : String) (next : ScopeId) : ScopeId × ModuleTable :=
  match m.ids[name]? with
  | some id => (id, m)
  | none => (next, ⟨m.ids.insert name next, m.order ++ [name]⟩)

/-- The tables after an operation on scopes of which `next` is the next one. -/
def perform (m : ModuleTable) (next : ScopeId) : Operation → ModuleTable
  | .enterModule name _ => (m.enter name next).2
  | _ => m

/-- The modules with their scopes, by a walk along the names. -/
def list (m : ModuleTable) : List (String × ScopeId) :=
  m.order.filterMap fun name => m.ids[name]?.map (name, ·)

end ModuleTable

/-- The scopes and the tables that operations on scopes that exist lead to. -/
inductive Tabled (index : Index) (options : Options) : Scopes → ModuleTable → Prop
  | new : Tabled index options (.new index options) .empty
  | perform {s : Scopes} {m : ModuleTable} (hs : Tabled index options s m) (op : Operation)
      (hop : ∀ scope ∈ op.scope?, scope < s.frames.length) :
      Tabled index options (s.perform op) (m.perform s.frames.length op)

/-- Both tables say what the list of modules says. -/
structure ModuleTable.Agrees (m : ModuleTable) (s : Scopes) : Prop where
  order_eq : m.order = s.modules.map (·.1)
  ids_eq : ∀ name, m.ids[name]? = s.module? name

namespace ModuleTable.Agrees

variable {m : ModuleTable} {s : Scopes}

theorem fst_enter (h : m.Agrees s) (name : String) (imports : List Import) :
    (m.enter name s.frames.length).1 = (s.enterModule name imports).1 := by
  rw [ModuleTable.enter, h.ids_eq, enterModule]
  cases s.module? name <;> rfl

theorem enter (h : m.Agrees s) (name : String) (imports : List Import) :
    (m.enter name s.frames.length).2.Agrees (s.enterModule name imports).2 := by
  rw [ModuleTable.enter, h.ids_eq]
  cases hname : s.module? name with
  | some id =>
    rw [enterModule_of_entered hname]
    exact ⟨h.order_eq, h.ids_eq⟩
  | none =>
    rw [enterModule_of_new hname]
    refine ⟨?_, fun other => ?_⟩
    · rw [List.map_append, h.order_eq]
      rfl
    · rw [Std.ExtTreeMap.getElem?_insert, module?, List.lookup_append, h.ids_eq]
      by_cases hother : name = other
      · subst hother
        rw [← module?, hname]
        simp
      · rw [if_neg fun hsame => hother (Std.LawfulEqOrd.eq_of_compare hsame), List.lookup_cons,
          beq_false_of_ne (Ne.symm hother)]
        exact Option.or_none.symm

theorem perform (h : m.Agrees s) (op : Operation) :
    (m.perform s.frames.length op).Agrees (s.perform op) := by
  by_cases hop : ∃ name imports, op = .enterModule name imports
  · obtain ⟨name, imports, rfl⟩ := hop
    exact h.enter name imports
  · have hmodules := s.modules_perform fun name imports heq => hop ⟨name, imports, heq⟩
    have hsame : m.perform s.frames.length op = m := by
      cases op with
      | enterModule name imports => exact absurd ⟨name, imports, rfl⟩ hop
      | _ => rfl
    rw [hsame]
    exact ⟨hmodules ▸ h.order_eq, fun name => by rw [module?, hmodules, ← module?, h.ids_eq]⟩

theorem list_eq (h : m.Agrees s) (hs : s.Formed) : m.list = s.modules := by
  have hentry : ∀ p ∈ s.modules, (m.ids[p.1]?).map (p.1, ·) = some p := by
    intro p hp
    rw [h.ids_eq, hs.module?_eq_some_iff.2 hp]
    rfl
  rw [list, h.order_eq, List.filterMap_map]
  exact (List.filterMap_congr hentry).trans List.filterMap_some

end ModuleTable.Agrees

theorem Tabled.reachable {index : Index} {options : Options} {s : Scopes} {m : ModuleTable}
    (h : Tabled index options s m) : Reachable index options s := by
  induction h with
  | new => exact .new
  | perform _ op hop ih => exact ih.perform op hop

theorem Tabled.agrees {index : Index} {options : Options} {s : Scopes} {m : ModuleTable}
    (h : Tabled index options s m) : m.Agrees s := by
  induction h with
  | new => exact ⟨rfl, fun name => Std.ExtTreeMap.getElem?_empty⟩
  | perform _ op hop ih => exact ih.perform op

theorem Reachable.exists_tabled {index : Index} {options : Options} {s : Scopes}
    (h : Reachable index options s) : ∃ m, Tabled index options s m := by
  induction h with
  | new => exact ⟨_, .new⟩
  | perform _ op hop ih =>
    obtain ⟨m, hm⟩ := ih
    exact ⟨_, hm.perform op hop⟩

/-- How the parts of a tree of scopes fit together: the scopes and those around them, up to the root; the list of
modules, the scopes found by their names, and the scopes of modules; and what a scope keeps, which is the name of
its module, empty outside of every module, and its entries. -/
structure WellFormed (s : Scopes) : Prop where
  root_lt : root < s.frames.length
  parent_eq_none_iff : ∀ {id : ScopeId} {f : Frame}, s.frame? id = some f →
    (f.parent = none ↔ id = root)
  parent_lt : ∀ {id parent : ScopeId} {f : Frame}, s.frame? id = some f → f.parent = some parent →
    parent < id
  chain_of_parent : ∀ {id parent : ScopeId} {f : Frame}, s.frame? id = some f →
    f.parent = some parent → s.chain id = id :: s.chain parent
  getLast?_chain : ∀ {id : ScopeId} {f : Frame}, s.frame? id = some f →
    (s.chain id).getLast? = some root
  names_nodup : (s.modules.map (·.1)).Nodup
  module?_eq_some_iff : ∀ {name : String} {id : ScopeId},
    s.module? name = some id ↔ (name, id) ∈ s.modules
  mem_modules_iff : ∀ {name : String} {id : ScopeId}, (name, id) ∈ s.modules ↔
    ∃ f body, s.frame? id = some f ∧ f.kind = .module body ∧ body.name = name
  module_parent : ∀ {id : ScopeId} {f : Frame} {body : ModuleBody}, s.frame? id = some f →
    f.kind = .module body → f.parent = some root
  child_name : ∀ {id : ScopeId} {f : Frame} {name : String}, s.frame? id = some f →
    f.kind = .child name → name = ((s.moduleBody? id).map (·.name)).getD ""
  filed : ∀ {id : ScopeId} {f : Frame} {symbol : Symbol} {e : Entry}, s.frame? id = some f →
    f.entries[symbol]? = some e → e.Filed symbol (s.moduleName? id)

theorem Formed.wellFormed {s : Scopes} (h : s.Formed) : s.WellFormed where
  root_lt := h.root_lt
  parent_eq_none_iff := h.parent_eq_none_iff
  parent_lt := h.parent_lt
  chain_of_parent := h.chain_of_parent
  getLast?_chain := h.getLast?_chain
  names_nodup := h.names_nodup
  module?_eq_some_iff := h.module?_eq_some_iff
  mem_modules_iff := by
    refine ⟨h.module_frame, ?_⟩
    rintro ⟨f, body, hf, hk, rfl⟩
    exact (h.module_placed hf hk).2
  module_parent hf hk := (h.module_placed hf hk).1
  child_name hf hk := by rw [← h.moduleName_eq hf, hk]; rfl
  filed hf he := moduleName?_of_frame? hf ▸ h.filed hf he

/-- How the two tables of modules fit together, and to the scopes. -/
structure ModuleTable.InStep (m : ModuleTable) (s : Scopes) : Prop where
  order_nodup : m.order.Nodup
  mem_order_iff : ∀ {name : String}, name ∈ m.order ↔ name ∈ m.ids
  ids_eq_some_iff : ∀ {name : String} {id : ScopeId}, m.ids[name]? = some id ↔
    ∃ f body, s.frame? id = some f ∧ f.kind = .module body ∧ body.name = name ∧ f.parent = some root
  module?_eq : ∀ name, s.module? name = m.ids[name]?
  modules_eq : s.modules = m.list
  enterModule_eq : ∀ name imports, (s.enterModule name imports).1 = (m.enter name s.frames.length).1

theorem ModuleTable.Agrees.inStep {m : ModuleTable} {s : Scopes} (h : m.Agrees s) (hs : s.Formed) :
    m.InStep s where
  order_nodup := h.order_eq ▸ hs.names_nodup
  mem_order_iff {name} := by
    rw [h.order_eq, Std.ExtTreeMap.mem_iff_isSome_getElem?, h.ids_eq, Option.isSome_iff_exists]
    simp only [hs.module?_eq_some_iff, List.mem_map, Prod.exists, exists_and_right, exists_eq_right]
  ids_eq_some_iff {name id} := by
    rw [h.ids_eq, hs.module?_eq_some_iff, hs.wellFormed.mem_modules_iff]
    constructor
    · rintro ⟨f, body, hf, hkind, hname⟩
      exact ⟨f, body, hf, hkind, hname, (hs.module_placed hf hkind).1⟩
    · rintro ⟨f, body, hf, hkind, hname, -⟩
      exact ⟨f, body, hf, hkind, hname⟩
  module?_eq name := (h.ids_eq name).symm
  modules_eq := (h.list_eq hs).symm
  enterModule_eq name imports := (h.fst_enter name imports).symm

/-- Whatever is done with the scopes of a unit, they stay a well-formed tree, and the map of modules and the
list of their names that are kept along with them stay in step. -/
theorem reachable_wellFormed {index : Index} {options : Options} {s : Scopes}
    (h : Reachable index options s) :
    s.WellFormed ∧ (∃ m, Tabled index options s m) ∧ ∀ m, Tabled index options s m → m.InStep s :=
  ⟨h.formed.wellFormed, h.exists_tabled, fun _ hm => hm.agrees.inStep h.formed⟩

/-- A module entered twice with a body and a body in it, a module with the empty name, and a body outside
of every module, in which nothing can be defined. -/
theorem reachable_wellFormed_nested :
    let f := Symbol.qualified "M" "f"
    let s₁ := (new .empty .default).perform (.enterModule "M" [⟨"a", none⟩])
    let s₂ := (s₁.perform (.enterScope 1)).perform (.enterScope 2)
    let s₃ := (s₂.perform (.enterModule "" [])).perform (.enterScope 0)
    let s₄ := (s₃.perform (.record 3 f (.value (.var (.ofName "t"))))).perform
      (.record 5 (.qualified "" "g") (.value (.var (.ofName "t"))))
    let s := (s₄.perform (.enterModule "M" [⟨"b", none⟩])).perform (.addDependency 2 f)
    Reachable .empty .default s ∧ s.WellFormed ∧
      (∃ m, Tabled .empty .default s m ∧ m.InStep s ∧ m.order = ["M", ""] ∧
        m.ids.toList = [("", 4), ("M", 1)]) ∧ s.frames.length = 6 ∧
      s.modules = [("M", 1), ("", 4)] ∧ s.chain 3 = [3, 2, 1, 0] ∧ s.moduleName? 3 = some "M" ∧
      s.moduleName? 5 = some "" ∧ (s.moduleBody? 5).isNone ∧
      (s.entryIn? 3 f).map (·.getter) = some (some (.ofValue f (.var (.ofName "t")))) ∧
      (s.entryIn? 5 (.qualified "" "g")).isNone := by
  intro f s₁ s₂ s₃ s₄ s
  have htabled : ∃ m, Tabled .empty .default s m ∧ m.order = ["M", ""] ∧ m.ids.toList = [("", 4), ("M", 1)] := by
    refine ⟨_, .perform (.perform (.perform (.perform (.perform (.perform (.perform (.perform (.perform .new
      _ ?_) _ ?_) _ ?_) _ ?_) _ ?_) _ ?_) _ ?_) _ ?_) _ ?_, ?_, ?_⟩ <;> decide +kernel
  obtain ⟨m, hm, horder, hids⟩ := htabled
  have hs := hm.reachable
  exact ⟨hs, (reachable_wellFormed hs).1, ⟨m, hm, (reachable_wellFormed hs).2.2 m hm, horder, hids⟩,
    by decide +kernel⟩

end Scopes

end TypeEngine
