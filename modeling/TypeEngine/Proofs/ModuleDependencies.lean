import TypeEngine.Proofs.BuildOrder
import TypeEngine.Proofs.ModuleLog

/-! # Dependencies of modules

Which modules need which after a run, and in what order they can be built. The graph of the modules is made
from what the modules hold, and that can be read off the calls. Which module a scope lies in depends on the
`Outline` of the unit alone, which a recorded dependency leaves as it is; so it does not matter when it is
recorded. -/

namespace TypeEngine

open Relation (TransGen)

namespace Scopes

/-! ### The outline of a unit -/

/-- Where a scope stands: the scope around it, and the name of the module that it is the scope of. -/
structure Place where
  parent : Option ScopeId
  module? : Option String

def placeOf (f : Frame) : Place := ⟨f.parent, f.kind.body?.map (·.name)⟩

/-- The scopes and modules of a unit, without what they hold. -/
structure Outline where
  places : List Place
  modules : List (String × ScopeId)

def outline (s : Scopes) : Outline := ⟨s.frames.map placeOf, s.modules⟩

/-- Entering a module for the first time and opening a scope are all that changes the outline. -/
def Outline.perform (o : Outline) : Operation → Outline
  | .enterModule name _ =>
    if (o.modules.lookup name).isSome then o
    else ⟨o.places ++ [⟨some root, some name⟩], o.modules ++ [(name, o.places.length)]⟩
  | .enterScope scope => { o with places := o.places ++ [⟨some scope, none⟩] }
  | _ => o

theorem outline_modifyFrame (s : Scopes) (id : ScopeId) {g : Frame → Frame} (hg : ∀ f, placeOf (g f) = placeOf f) :
    (s.modifyFrame id g).outline = s.outline := by
  refine congrArg (Outline.mk · s.modules) (List.ext_getElem? fun i => ?_)
  rw [List.getElem?_map, List.getElem?_map]
  change ((s.modifyFrame id g).frame? i).map placeOf = _
  rw [frame?_modifyFrame, Option.map_map]
  refine congrArg (Option.map · s.frames[i]?) (funext fun f => ?_)
  rw [Function.comp_apply]
  split
  · exact hg f
  · rfl

theorem outline_modifyBody (s : Scopes) (id : ScopeId) {f : ModuleBody → ModuleBody}
    (hname : ∀ body, (f body).name = body.name) : (s.modifyBody id f).outline = s.outline := by
  refine s.outline_modifyFrame id fun frame => ?_
  split
  · rename_i body hkind
    rw [placeOf, placeOf, hkind]
    exact congrArg (Place.mk frame.parent <| some ·) (hname body)
  · rfl

theorem outline_modifyModuleOf (s : Scopes) (scope : ScopeId) {f : ModuleBody → ModuleBody}
    (hname : ∀ body, (f body).name = body.name) : (s.modifyModuleOf scope f).outline = s.outline := by
  unfold modifyModuleOf
  split
  · exact s.outline_modifyBody _ hname
  · rfl

theorem outline_perform (s : Scopes) (op : Operation) : (s.perform op).outline = s.outline.perform op := by
  cases op with
  | types call => rfl
  | enterModule name imports =>
    rw [perform, Outline.perform]
    cases hmodule : s.module? name with
    | some id =>
      rw [enterModule_of_entered hmodule, if_pos (by rw [outline, ← module?, hmodule]; rfl)]
      exact s.outline_modifyBody id fun _ => rfl
    | none =>
      rw [enterModule_of_new hmodule, if_neg (by rw [outline, ← module?, hmodule]; exact Bool.false_ne_true)]
      simp [outline, placeOf, FrameKind.body?]
  | enterScope scope => simp [perform, enterScope, addFrame, Outline.perform, outline, placeOf, FrameKind.body?]
  | record scope symbol d =>
    simp only [perform, record_eq]
    split
    · rename_i s' hdefine
      obtain ⟨owner, e, -, -, -, -, rfl⟩ := define_eq_ok hdefine
      exact s.outline_modifyFrame scope fun _ => rfl
    · rfl
  | implement c t => rfl
  | addCase scope symbol c => exact s.outline_modifyModuleOf scope fun _ => rfl
  | addDependency scope symbol =>
    simp only [perform, addDependency]
    split
    · rfl
    · exact s.outline_modifyModuleOf scope fun _ => rfl
  | reserveSymbol scope nestings => rfl
  | signature scope symbol =>
    simp only [perform]
    split
    · rename_i hsig
      obtain ⟨u, -, hu⟩ := Option.map_eq_some_iff.1 hsig
      cases hu
      rfl
    · rfl

theorem outline_run (s : Scopes) (ops : List Operation) :
    (s.run ops).outline = ops.foldl Outline.perform s.outline := by
  induction ops generalizing s with
  | nil => rfl
  | cons op ops ih => rw [List.foldl_cons, ← s.outline_perform op, ← ih, run, List.foldl_cons, run]

/-- The operation records a dependency. -/
def Operation.isDependency : Operation → Bool
  | .addDependency _ _ => true
  | _ => false

theorem Outline.foldl_filter (o : Outline) (ops : List Operation) :
    (ops.filter (!·.isDependency)).foldl perform o = ops.foldl perform o := by
  rw [List.foldl_filter]
  refine congrArg (List.foldl · o ops) (funext₂ fun o op => ?_)
  cases op <;> rfl

section Congr

variable {s s' : Scopes}

theorem placeOf_congr (h : s'.outline = s.outline) (id : ScopeId) :
    (s'.frame? id).map placeOf = (s.frame? id).map placeOf := by
  have hplaces := congrArg (·.places[id]?) h
  simpa only [outline, frame?, List.getElem?_map] using hplaces

theorem chainWithin_congr (h : s'.outline = s.outline) (n : Nat) (scope : ScopeId) :
    s'.chainWithin n scope = s.chainWithin n scope := by
  induction n generalizing scope with
  | zero => rfl
  | succ n ih =>
    have hplace := placeOf_congr h scope
    rw [chainWithin, chainWithin]
    cases hf : s.frame? scope with
    | none =>
      rw [hf, Option.map_none, Option.map_eq_none_iff] at hplace
      rw [hplace]
    | some f =>
      rw [hf, Option.map_some] at hplace
      obtain ⟨f', hf', hsame⟩ := Option.map_eq_some_iff.1 hplace
      have hparent : f'.parent = f.parent := congrArg Place.parent hsame
      rw [hf']
      simp only [hparent, ih]

theorem bodyName?_congr (h : s'.outline = s.outline) (id : ScopeId) :
    (s'.kind id).body?.map (·.name) = (s.kind id).body?.map (·.name) := by
  have hkind : ∀ s : Scopes,
      (s.kind id).body?.map (·.name) = ((s.frame? id).map placeOf).bind (·.module?) := by
    intro s
    rw [kind]
    cases s.frame? id <;> rfl
  rw [hkind, hkind, placeOf_congr h id]

/-- Which module a scope lies in depends on the outline alone. -/
theorem moduleOf?_congr (h : s'.outline = s.outline) (scope : ScopeId) :
    s'.moduleOf? scope = s.moduleOf? scope := by
  have hisSome : ∀ id, (s'.kind id).body?.isSome = (s.kind id).body?.isSome := by
    intro id
    have hsome := congrArg Option.isSome (bodyName?_congr h id)
    rwa [Option.isSome_map, Option.isSome_map] at hsome
  have hscope : s'.moduleScope? scope = s.moduleScope? scope := by
    rw [moduleScope?, moduleScope?, chain, chain, chainWithin_congr h]
    simp only [hisSome]
  rw [moduleOf?, moduleOf?, moduleBody?, moduleBody?, hscope, Option.map_bind, Option.map_bind]
  exact Option.bind_congr fun id _ => bodyName?_congr h id

end Congr

/-! ### Entered modules and recorded dependencies -/

theorem mem_modules_perform (s : Scopes) (op : Operation) (name : String) :
    name ∈ (s.perform op).modules.map (·.1) ↔
      name ∈ s.modules.map (·.1) ∨ ∃ imports, op = .enterModule name imports := by
  have hmodules : (s.perform op).modules = (s.outline.perform op).modules := by
    rw [← outline_perform, outline]
  rw [hmodules]
  cases op with
  | enterModule name' imports =>
    rw [Outline.perform]
    split
    · rename_i hentered
      obtain ⟨p, hp, hname⟩ := List.lookup_isSome_iff.1 hentered
      have hmem : name' ∈ s.modules.map (·.1) := eq_of_beq hname ▸ List.mem_map_of_mem hp
      refine ⟨.inl, ?_⟩
      rintro (h | ⟨imports', h⟩)
      · exact h
      · cases h
        exact hmem
    · simp [outline, eq_comm]
  | _ => simp [Outline.perform, outline]

theorem mem_dependencies_foldl_add (index : Index) (es : List Event) (symbol : Symbol) :
    symbol ∈ (es.foldl (Holdings.add index) ⟨∅, []⟩).dependencies ↔
      .need symbol ∈ es ∧ index.isDefined symbol = false := by
  induction es using List.reverseRecOn with
  | nil => simp
  | append_singleton es e ih =>
    rw [List.foldl_append, List.foldl_cons, List.foldl_nil]
    cases e with
    | case symbol' c => simp [Holdings.add, ih]
    | need symbol' =>
      rw [Holdings.add]
      split
      · grind
      · grind [Std.compare_eq_iff_eq]

theorem mem_modules_run {index : Index} {options : Options} (ops : List Operation) (name : String) :
    name ∈ ((new index options).run ops).modules.map (·.1) ↔ ∃ imports, .enterModule name imports ∈ ops := by
  induction ops using List.reverseRecOn with
  | nil => simp [run, new]
  | append_singleton ops op ih =>
    rw [run_concat, mem_modules_perform, ih]
    simp only [List.mem_append, List.mem_singleton, exists_or, eq_comm]

theorem AllowsAll.mem_dependencies_iff {index : Index} {options : Options} {ops : List Operation}
    (h : (new index options).AllowsAll ops) (name : String) (symbol : Symbol) :
    symbol ∈ (((new index options).run ops).holdings name).dependencies ↔
      (∃ scope, .addDependency scope symbol ∈ ops ∧ ((new index options).run ops).moduleOf? scope = some name) ∧
        index.isDefined symbol = false := by
  rw [h.holdings_eq, mem_dependencies_foldl_add, mem_eventsOf, log, List.mem_flatMap]
  refine and_congr_left fun _ => ⟨?_, ?_⟩
  · rintro ⟨op, hop, hevent⟩
    cases op with
    | addDependency scope symbol' =>
      obtain ⟨name', hname, heq⟩ := List.mem_map.1 hevent
      cases heq
      exact ⟨scope, hop, Option.mem_toList.1 hname⟩
    | addCase scope symbol' c =>
      obtain ⟨name', -, heq⟩ := List.mem_map.1 hevent
      cases heq
    | _ => simp [events] at hevent
  · rintro ⟨scope, hop, hname⟩
    exact ⟨_, hop, List.mem_map.2 ⟨name, Option.mem_toList.2 hname, rfl⟩⟩

/-! ### The graph -/

/-- The calls that make the graph of the modules. -/
def graphCalls (s : Scopes) : List ModuleGraph.Call :=
  s.modules.flatMap fun (name, id) =>
    .addModule name :: ((s.dependencies id).toList.filterMap (·.owner?)).map (.addEdge name)

theorem moduleGraph_eq (s : Scopes) : s.moduleGraph = .ofCalls s.graphCalls := by
  rw [moduleGraph, ModuleGraph.ofCalls, graphCalls, List.foldl_flatMap]
  simp only [List.foldl_cons, List.foldl_map]
  rfl

theorem addModule_mem_graphCalls {s : Scopes} {name : String} :
    .addModule name ∈ s.graphCalls ↔ name ∈ s.modules.map (·.1) := by
  simp [graphCalls]

theorem addModule_mem_of_addEdge_mem {s : Scopes} {a b : String} (h : .addEdge a b ∈ s.graphCalls) :
    .addModule a ∈ s.graphCalls := by
  obtain ⟨⟨name, id⟩, hid, hcall⟩ := List.mem_flatMap.1 h
  rcases List.mem_cons.1 hcall with hcall | hcall
  · cases hcall
  · obtain ⟨target, -, heq⟩ := List.mem_map.1 hcall
    cases heq
    exact addModule_mem_graphCalls.2 (List.mem_map_of_mem hid)

theorem Formed.dependencies_eq {s : Scopes} (h : s.Formed) {name : String} {id : ScopeId}
    (hid : (name, id) ∈ s.modules) : s.dependencies id = (s.holdings name).dependencies := by
  obtain ⟨f, body, hf, hkind, rfl⟩ := h.module_frame hid
  have hparent := (h.module_placed hf hkind).1
  have hbody : (s.kind id).body? = some body := by rw [kind_of_frame? hf, hkind]; rfl
  rw [h.holdings_of_moduleBody? (moduleBody?_of_body? hbody (h.chain_of_parent hf hparent))]

theorem Formed.addEdge_mem_graphCalls {s : Scopes} (h : s.Formed) {a b : String} :
    .addEdge a b ∈ s.graphCalls ↔ ∃ symbol ∈ (s.holdings a).dependencies, symbol.owner? = some b := by
  rw [graphCalls, List.mem_flatMap]
  constructor
  · rintro ⟨⟨name, id⟩, hid, hcall⟩
    rcases List.mem_cons.1 hcall with hcall | hcall
    · cases hcall
    · obtain ⟨target, htarget, heq⟩ := List.mem_map.1 hcall
      cases heq
      obtain ⟨symbol, hsymbol, howner⟩ := List.mem_filterMap.1 htarget
      rw [h.dependencies_eq hid, Std.ExtTreeSet.mem_toList] at hsymbol
      exact ⟨symbol, hsymbol, howner⟩
  · rintro ⟨symbol, hsymbol, howner⟩
    cases hmodule : s.module? a with
    | none =>
      rw [holdings, bodyOf?, hmodule] at hsymbol
      exact absurd hsymbol Std.ExtTreeSet.not_mem_empty
    | some id =>
      have hid := h.module?_eq_some_iff.1 hmodule
      refine ⟨(a, id), hid, List.mem_cons_of_mem _ (List.mem_map_of_mem (List.mem_filterMap.2 ⟨symbol, ?_, howner⟩))⟩
      rw [h.dependencies_eq hid]
      exact Std.ExtTreeSet.mem_toList.2 hsymbol

/-- From a scope of the module `a`, a symbol of another module `b` was recorded that was not compiled elsewhere. -/
def NeedsModule (s : Scopes) (ops : List Operation) (a b : String) : Prop :=
  a ≠ b ∧ ∃ scope symbol, .addDependency scope symbol ∈ ops ∧ s.moduleOf? scope = some a ∧
    symbol.owner? = some b ∧ s.index.isDefined symbol = false

namespace AllowsAll

variable {index : Index} {options : Options} {ops : List Operation} {a b : String}

theorem addEdge_mem_graphCalls (h : (new index options).AllowsAll ops) :
    .addEdge a b ∈ ((new index options).run ops).graphCalls ↔
      ∃ scope symbol, .addDependency scope symbol ∈ ops ∧
        ((new index options).run ops).moduleOf? scope = some a ∧ symbol.owner? = some b ∧
          index.isDefined symbol = false := by
  rw [h.reachable.formed.addEdge_mem_graphCalls]
  simp only [h.mem_dependencies_iff]
  constructor
  · rintro ⟨symbol, ⟨⟨scope, hop, hscope⟩, hdefined⟩, howner⟩
    exact ⟨scope, symbol, hop, hscope, howner, hdefined⟩
  · rintro ⟨scope, symbol, hop, hscope, howner, hdefined⟩
    exact ⟨symbol, ⟨⟨scope, hop, hscope⟩, hdefined⟩, howner⟩

theorem uses_moduleGraph (h : (new index options).AllowsAll ops) :
    ((new index options).run ops).moduleGraph.Uses a b ↔ ((new index options).run ops).NeedsModule ops a b := by
  rw [moduleGraph_eq, ModuleGraph.uses_ofCalls, h.addEdge_mem_graphCalls, NeedsModule, h.reachable.index_eq]

theorem usedBy_moduleGraph (h : (new index options).AllowsAll ops) :
    ((new index options).run ops).moduleGraph.UsedBy b a ↔
      ((new index options).run ops).NeedsModule ops a b := by
  rw [moduleGraph_eq, ModuleGraph.usedBy_ofCalls, h.addEdge_mem_graphCalls, NeedsModule, h.reachable.index_eq]

theorem mem_uses_moduleGraph (h : (new index options).AllowsAll ops) :
    a ∈ ((new index options).run ops).moduleGraph.uses ↔
      (∃ imports, .enterModule a imports ∈ ops) ∨
        ∃ b, ((new index options).run ops).NeedsModule ops b a := by
  simp only [← h.uses_moduleGraph]
  rw [moduleGraph_eq, ModuleGraph.mem_uses_ofCalls, ← mem_modules_run ops, ← addModule_mem_graphCalls]
  constructor
  · rintro (hmodule | ⟨b, hab | hba⟩)
    · exact .inl hmodule
    · exact .inl (addModule_mem_of_addEdge_mem (ModuleGraph.uses_ofCalls.1 hab).2)
    · exact .inr ⟨b, hba⟩
  · rintro (hmodule | ⟨b, hba⟩)
    · exact .inl hmodule
    · exact .inr ⟨b, .inr hba⟩

/-- It does not matter when, in what order or how often dependencies are recorded. -/
theorem moduleGraph_congr (h : (new index options).AllowsAll ops) {ops' : List Operation}
    (h' : (new index options).AllowsAll ops')
    (hothers : ops'.filter (!·.isDependency) = ops.filter (!·.isDependency))
    (hsame : ∀ scope symbol, .addDependency scope symbol ∈ ops' ↔ .addDependency scope symbol ∈ ops) :
    ((new index options).run ops').moduleGraph = ((new index options).run ops).moduleGraph := by
  have houtline : ((new index options).run ops').outline = ((new index options).run ops).outline := by
    rw [outline_run, outline_run, ← Outline.foldl_filter, hothers, Outline.foldl_filter]
  have hmodules : ((new index options).run ops').modules = ((new index options).run ops).modules :=
    congrArg Outline.modules houtline
  rw [moduleGraph_eq, moduleGraph_eq]
  refine ModuleGraph.ofCalls_congr fun c => ?_
  cases c with
  | addModule name => rw [addModule_mem_graphCalls, addModule_mem_graphCalls, hmodules]
  | addEdge a b =>
    rw [h'.addEdge_mem_graphCalls, h.addEdge_mem_graphCalls]
    simp only [hsame, moduleOf?_congr houtline]

end AllowsAll

theorem buildOrder_eq_ok {g : ModuleGraph} {order : List String} (h : buildOrder g = .ok order) :
    g.buildOrder = .ok order := by
  rw [buildOrder] at h
  cases horder : g.buildOrder with
  | ok order' =>
    rw [horder] at h
    cases h
    rfl
  | error a =>
    rw [horder] at h
    cases h

theorem exists_buildOrder_eq_error_iff {g : ModuleGraph} :
    (∃ e, buildOrder g = .error e) ↔ ∃ a, g.buildOrder = .error a := by
  rw [buildOrder]
  cases g.buildOrder <;> simp [Except.mapError]

/-- The graph of the modules has an edge exactly where one module needs another. The build order, if there is
one, lists every module that was entered or is needed once, after all the modules it needs; there is none
exactly if modules need each other in a circle. When the dependencies were recorded, in what order and how
often, makes no difference. -/
theorem build_order_of_calls {index : Index} {options : Options} {ops : List Operation}
    (h : (new index options).AllowsAll ops) :
    let s := (new index options).run ops
    (∀ a b, s.moduleGraph.Uses a b ↔ s.NeedsModule ops a b) ∧
      (∀ a b, s.moduleGraph.UsedBy b a ↔ s.NeedsModule ops a b) ∧
      (∀ order, buildOrder s.moduleGraph = .ok order → order.Nodup ∧
        (∀ m, m ∈ order ↔ (∃ imports, .enterModule m imports ∈ ops) ∨ ∃ a, s.NeedsModule ops a m) ∧
        ∀ a b, s.NeedsModule ops a b → order.idxOf b < order.idxOf a) ∧
      ((∃ e, buildOrder s.moduleGraph = .error e) ↔ ∃ m, TransGen (s.NeedsModule ops) m m) ∧
      ∀ ops' : List Operation, (new index options).AllowsAll ops' →
        ops'.filter (!·.isDependency) = ops.filter (!·.isDependency) →
        (∀ scope symbol, .addDependency scope symbol ∈ ops' ↔ .addDependency scope symbol ∈ ops) →
          ((new index options).run ops').moduleGraph = s.moduleGraph := by
  intro s
  have huses : s.moduleGraph.Uses = s.NeedsModule ops := funext₂ fun a b => propext h.uses_moduleGraph
  have hlists : s.moduleGraph.ListsUsed := moduleGraph_eq s ▸ ModuleGraph.listsUsed_ofCalls _
  refine ⟨fun a b => h.uses_moduleGraph, fun a b => h.usedBy_moduleGraph, fun order horder => ?_, ?_,
    fun ops' h' hothers hsame => h.moduleGraph_congr h' hothers hsame⟩
  · have horder' := buildOrder_eq_ok horder
    have harranged := hlists.arranged_of_buildOrder horder'
    refine ⟨harranged.nodup, fun m => ?_, fun a b hab => ?_⟩
    · rw [hlists.mem_of_buildOrder horder', h.mem_uses_moduleGraph]
    · rw [← huses] at hab
      exact harranged.idxOf_lt ((hlists.mem_of_buildOrder horder').2 (ModuleRelation.mem_of_mem_getD hab)) hab
  · rw [exists_buildOrder_eq_error_iff, hlists.exists_buildOrder_error_iff, huses]

/-- `A` needs `B` from a body and `C`, which is never entered; `B` needs a symbol of `A` that was compiled
elsewhere, and one of its own. With a further symbol of `A` there is no order any more. -/
theorem build_order_of_calls_acyclic_and_circular :
    let index := Index.empty.define (.empty (.qualified "A" "x"))
    let own := Operation.addDependency 2 (.qualified "B" "f")
    let known := Operation.addDependency 2 (.qualified "A" "x")
    let fromBody := Operation.addDependency 3 (.qualified "B" "f")
    let unentered := Operation.addDependency 1 (.qualified "C" "g")
    let ops := [.enterModule "A" [], .enterModule "B" [], own, .enterScope 1, fromBody, known, unentered]
    let ops' := [.enterModule "A" [], unentered, .enterModule "B" [], .enterScope 1, known, fromBody, own]
    let circular := ops ++ [.addDependency 2 (.qualified "A" "y")]
    let s := (new index .default).run ops
    (new index .default).AllowsAll ops ∧ buildOrder s.moduleGraph = .ok ["B", "C", "A"] ∧
      s.NeedsModule ops "A" "B" ∧ ["B", "C", "A"].idxOf "B" < ["B", "C", "A"].idxOf "A" ∧
      ¬ s.NeedsModule ops "B" "A" ∧ ((new index .default).run ops').moduleGraph = s.moduleGraph ∧
      (new index .default).AllowsAll circular ∧
      ∃ m, TransGen (((new index .default).run circular).NeedsModule circular) m m := by
  intro index own known fromBody unentered ops ops' circular s
  have hops : (new index .default).AllowsAll ops := by decide +kernel
  have hcircular : (new index .default).AllowsAll circular := by decide +kernel
  have horder : buildOrder s.moduleGraph = .ok ["B", "C", "A"] := by decide +kernel
  have hneeds : s.NeedsModule ops "A" "B" :=
    ⟨by decide, 3, .qualified "B" "f", by simp [ops, fromBody], by decide +kernel, rfl, by decide +kernel⟩
  obtain ⟨-, -, hlisted, -, hsame⟩ := build_order_of_calls hops
  obtain ⟨-, -, hbefore⟩ := hlisted _ horder
  refine ⟨hops, horder, hneeds, hbefore "A" "B" hneeds, fun hback => absurd (hbefore "B" "A" hback) (by decide),
    hsame ops' (by decide +kernel) rfl (fun scope symbol => ?_), hcircular, ?_⟩
  · grind
  · exact (build_order_of_calls hcircular).2.2.2.1.1 ⟨.cycle "A", by decide +kernel⟩

end Scopes

end TypeEngine
