import TypeEngine.Proofs.ModuleEntry

/-! # What is done for a module

Cases and dependencies are kept for a module as a whole, whichever of its scopes they come from. The
operations of a run make a log of what was done for which module (`log`), and what a module holds in the end
can be read off its part of the log: one operation adds its own events to the module they belong to and leaves
every other module alone (`Formed.holdings_perform`). The cases come out the same when they are kept in a map and
the order of their symbols in a list beside it (`OrderedCases`). -/

namespace TypeEngine

/-! ### Tables of cases -/

namespace CaseTable

/-- The cases by symbol, symbols in order of their first call, and the cases of each in order of the calls. -/
def ofCalls (calls : List (Symbol × Case)) : CaseTable :=
  (calls.map (·.1)).eraseDups.map fun x => (x, (calls.filter (·.1 = x)).map (·.2))

theorem eraseDups_concat (xs : List Symbol) (x : Symbol) :
    (xs ++ [x]).eraseDups = if x ∈ xs then xs.eraseDups else xs.eraseDups ++ [x] := by
  rw [List.eraseDups_append, List.removeAll]
  by_cases h : x ∈ xs <;> simp [h, List.eraseDups_cons]

theorem add_map_of_notMem {x : Symbol} {xs : List Symbol} (h : x ∉ xs) (c : Case) (cases : Symbol → List Case) :
    CaseTable.add x c (xs.map fun y => (y, cases y)) = (xs.map fun y => (y, cases y)) ++ [(x, [c])] := by
  induction xs with
  | nil => rfl
  | cons y ys ih =>
    obtain ⟨hy, hys⟩ := not_or.1 (List.mem_cons.not.1 h)
    rw [List.map_cons, CaseTable.add, if_neg (Ne.symm hy), ih hys, List.cons_append]

theorem add_map_of_mem {x : Symbol} {xs : List Symbol} (hnodup : xs.Nodup) (h : x ∈ xs) (c : Case)
    (cases : Symbol → List Case) :
    CaseTable.add x c (xs.map fun y => (y, cases y)) =
      xs.map fun y => (y, cases y ++ if x = y then [c] else []) := by
  induction xs with
  | nil => cases h
  | cons y ys ih =>
    obtain ⟨hy, hys⟩ := List.nodup_cons.1 hnodup
    rw [List.map_cons, CaseTable.add, List.map_cons]
    by_cases hsame : y = x
    · subst hsame
      have hrest : ∀ z ∈ ys, (z, cases z ++ if y = z then [c] else []) = (z, cases z) := by
        intro z hz
        have hne : y ≠ z := fun h => hy (h ▸ hz)
        rw [if_neg hne, List.append_nil]
      rw [if_pos rfl, if_pos rfl, List.map_congr_left hrest]
    · have hmem : x ∈ ys := (List.mem_cons.1 h).resolve_left (Ne.symm hsame)
      rw [if_neg hsame, if_neg (Ne.symm hsame), List.append_nil, ih hys hmem]

theorem map_fst_ofCalls (calls : List (Symbol × Case)) :
    (ofCalls calls).map (·.1) = (calls.map (·.1)).eraseDups := by
  rw [ofCalls, List.map_map]
  exact List.map_id _

/-- A further call adds its case to those of its symbol. -/
theorem ofCalls_concat (calls : List (Symbol × Case)) (x : Symbol) (c : Case) :
    ofCalls (calls ++ [(x, c)]) = CaseTable.add x c (ofCalls calls) := by
  have hcases : ∀ y, ((calls ++ [(x, c)]).filter (·.1 = y)).map (·.2) =
      (calls.filter (·.1 = y)).map (·.2) ++ if x = y then [c] else [] := by
    intro y
    by_cases h : x = y <;> simp [h]
  rw [ofCalls, List.map_append, List.map_singleton, eraseDups_concat, ofCalls]
  simp only [hcases]
  split
  · rename_i hmem
    rw [add_map_of_mem (nodup_eraseDups _) (List.mem_eraseDups.2 hmem)]
  · rename_i hnew
    have hold : ∀ y ∈ (calls.map (·.1)).eraseDups,
        (y, (calls.filter (·.1 = y)).map (·.2) ++ if x = y then [c] else []) =
          (y, (calls.filter (·.1 = y)).map (·.2)) := by
      intro y hy
      have hne : x ≠ y := fun h => hnew (h ▸ List.mem_eraseDups.1 hy)
      rw [if_neg hne, List.append_nil]
    have hnone : calls.filter (·.1 = x) = [] := by
      refine List.filter_eq_nil_iff.2 fun p hp hsame => hnew ?_
      exact of_decide_eq_true hsame ▸ List.mem_map_of_mem hp
    rw [add_map_of_notMem (List.mem_eraseDups.not.2 hnew), List.map_append, List.map_singleton, if_pos rfl,
      List.map_congr_left hold, hnone, List.map_nil, List.nil_append]

end CaseTable

/-! ### Cases and their order -/

/-- The cases of each symbol, and beside them the symbols in order of their first case. -/
structure OrderedCases where
  lists : Std.ExtTreeMap Symbol (List Case) compare
  order : List Symbol

namespace OrderedCases

/-- Adds a case. A symbol is put in order when the list that it has, or would get, is still empty. -/
def add (o : OrderedCases) (symbol : Symbol) (c : Case) : OrderedCases :=
  let cases := o.lists.getD symbol []
  { lists := o.lists.insert symbol (cases ++ [c])
    order := if cases.isEmpty then o.order ++ [symbol] else o.order }

/-- The cases by symbol, by a walk along the symbols. -/
def table (o : OrderedCases) : CaseTable := o.order.filterMap fun x => o.lists[x]?.map (x, ·)

def ofCalls (calls : List (Symbol × Case)) : OrderedCases :=
  calls.foldl (fun o call => o.add call.1 call.2) ⟨∅, []⟩

theorem ofCalls_concat (calls : List (Symbol × Case)) (x : Symbol) (c : Case) :
    ofCalls (calls ++ [(x, c)]) = (ofCalls calls).add x c :=
  List.foldl_append

theorem getD_lists_ofCalls (calls : List (Symbol × Case)) (x : Symbol) :
    (ofCalls calls).lists.getD x [] = (calls.filter (·.1 = x)).map (·.2) := by
  induction calls using List.reverseRecOn with
  | nil => exact Std.ExtTreeMap.getD_empty
  | append_singleton calls call ih =>
    obtain ⟨y, c⟩ := call
    rw [ofCalls_concat, add, Std.ExtTreeMap.getD_insert, ih, List.filter_append, List.map_append]
    by_cases hsame : y = x
    · subst hsame
      simp [ih]
    · simp [hsame]

theorem mem_lists_ofCalls (calls : List (Symbol × Case)) (x : Symbol) :
    x ∈ (ofCalls calls).lists ↔ x ∈ calls.map (·.1) := by
  induction calls using List.reverseRecOn with
  | nil => simp [ofCalls]
  | append_singleton calls call ih =>
    obtain ⟨y, c⟩ := call
    rw [ofCalls_concat, add, Std.ExtTreeMap.mem_insert, ih, List.map_append, List.mem_append,
      Std.LawfulEqOrd.compare_eq_iff_eq, or_comm, eq_comm]
    exact or_congr_right List.mem_singleton.symm

theorem order_ofCalls (calls : List (Symbol × Case)) :
    (ofCalls calls).order = (calls.map (·.1)).eraseDups := by
  induction calls using List.reverseRecOn with
  | nil => rfl
  | append_singleton calls call ih =>
    obtain ⟨x, c⟩ := call
    rw [ofCalls_concat, add, getD_lists_ofCalls, ih, List.map_append, List.map_singleton,
      CaseTable.eraseDups_concat, ← ite_not]
    refine if_congr ?_ rfl rfl
    rw [List.isEmpty_iff, List.map_eq_nil_iff, List.filter_eq_nil_iff]
    simp

/-- The list and the map stay in step, so that no case is lost between them. -/
theorem table_ofCalls (calls : List (Symbol × Case)) : (ofCalls calls).table = .ofCalls calls := by
  have hlist : ∀ x ∈ (calls.map (·.1)).eraseDups, (ofCalls calls).lists[x]?.map (x, ·) =
      some (x, (calls.filter (·.1 = x)).map (·.2)) := by
    intro x hx
    have hmem := (mem_lists_ofCalls calls x).2 (List.mem_eraseDups.1 hx)
    rw [← getD_lists_ofCalls, Std.ExtTreeMap.getElem?_eq_some_getD hmem, Option.map_some]
  rw [table, order_ofCalls, List.filterMap_congr hlist, CaseTable.ofCalls]
  exact congrFun List.filterMap_eq_map _

end OrderedCases

theorem FrameKind.eq_module_of_body? {k : FrameKind} {body : ModuleBody} (h : k.body? = some body) :
    k = .module body := by
  cases k with
  | module body' =>
    cases h
    rfl
  | _ => cases h

namespace Scopes

/-! ### Runs -/

/-- The scope that the operation is called on exists. -/
def Allows (s : Scopes) (op : Operation) : Prop := ∀ scope ∈ op.scope?, scope < s.frames.length

instance (s : Scopes) (op : Operation) : Decidable (s.Allows op) :=
  inferInstanceAs (Decidable (∀ scope ∈ op.scope?, scope < s.frames.length))

/-- Every operation is on a scope that exists by then. -/
def AllowsAll : Scopes → List Operation → Prop
  | _, [] => True
  | s, op :: ops => s.Allows op ∧ (s.perform op).AllowsAll ops

instance decidableAllowsAll : ∀ (s : Scopes) (ops : List Operation), Decidable (s.AllowsAll ops)
  | _, [] => .isTrue trivial
  | s, op :: ops =>
    have := decidableAllowsAll (s.perform op) ops
    inferInstanceAs (Decidable (s.Allows op ∧ (s.perform op).AllowsAll ops))

/-- The scopes after these operations. -/
def run (s : Scopes) (ops : List Operation) : Scopes := ops.foldl perform s

theorem run_concat (s : Scopes) (ops : List Operation) (op : Operation) :
    s.run (ops ++ [op]) = (s.run ops).perform op :=
  List.foldl_append

theorem allowsAll_concat_iff {s : Scopes} {ops : List Operation} {op : Operation} :
    s.AllowsAll (ops ++ [op]) ↔ s.AllowsAll ops ∧ (s.run ops).Allows op := by
  induction ops generalizing s with
  | nil => exact ⟨fun h => ⟨trivial, h.1⟩, fun h => ⟨h.2, trivial⟩⟩
  | cons first ops ih => exact (and_congr_right fun _ => ih).trans and_assoc.symm

theorem AllowsAll.reachable {index : Index} {options : Options} {ops : List Operation}
    (h : (new index options).AllowsAll ops) : Reachable index options ((new index options).run ops) := by
  induction ops using List.reverseRecOn with
  | nil => exact .new
  | append_singleton ops op ih =>
    obtain ⟨hops, hop⟩ := allowsAll_concat_iff.1 h
    rw [run_concat]
    exact (ih hops).perform op hop

theorem Allows.perform {s : Scopes} {op op' : Operation} (h : s.Allows op) (h' : s.Allows op') :
    (s.perform op').Allows op := by
  intro scope hscope
  obtain ⟨f, hf, -⟩ := (s.change_perform h').retains scope _ (List.getElem?_eq_getElem (h scope hscope))
  exact lt_of_frame? hf

/-- Scopes stay, so an operation that was allowed is allowed at the end too. -/
theorem AllowsAll.allows_of_mem {s : Scopes} {ops : List Operation} (h : s.AllowsAll ops) {op : Operation}
    (hop : op ∈ ops) : (s.run ops).Allows op := by
  induction ops using List.reverseRecOn with
  | nil => cases hop
  | append_singleton ops last ih =>
    obtain ⟨hops, hlast⟩ := allowsAll_concat_iff.1 h
    rw [run_concat]
    rcases List.mem_append.1 hop with hop | hop
    · exact (ih hops hop).perform hlast
    · exact List.mem_singleton.1 hop ▸ hlast.perform hlast

/-! ### Logs -/

/-- The name of the module that `scope` is or lies in. -/
def moduleOf? (s : Scopes) (scope : ScopeId) : Option String := (s.moduleBody? scope).map (·.name)

/-- What is done for a module. -/
inductive Event where
  | case (symbol : Symbol) (c : Case)
  | need (symbol : Symbol)
deriving DecidableEq

/-- The events of an operation, with the module that each belongs to. -/
def events (s : Scopes) : Operation → List (String × Event)
  | .addCase scope symbol c => (s.moduleOf? scope).toList.map (·, .case symbol c)
  | .addDependency scope symbol => (s.moduleOf? scope).toList.map (·, .need symbol)
  | _ => []

/-- The events of a run that has led to `s`. -/
def log (s : Scopes) (ops : List Operation) : List (String × Event) := ops.flatMap s.events

/-- The part of a log that belongs to one module. -/
def eventsOf (name : String) (log : List (String × Event)) : List Event :=
  (log.filter (·.1 = name)).map (·.2)

theorem mem_eventsOf {name : String} {log : List (String × Event)} {e : Event} :
    e ∈ eventsOf name log ↔ (name, e) ∈ log := by
  simp [eventsOf]

theorem eventsOf_append (name : String) (log log' : List (String × Event)) :
    eventsOf name (log ++ log') = eventsOf name log ++ eventsOf name log' := by
  rw [eventsOf, List.filter_append, List.map_append, eventsOf, eventsOf]

/-! ### What a module holds -/

/-- What operations give to a module, apart from its imports. -/
structure Holdings where
  dependencies : SymbolSet
  cases : CaseTable

/-- What a module holds after one more event. A symbol that was compiled elsewhere is no dependency. -/
def Holdings.add (index : Index) (h : Holdings) : Event → Holdings
  | .case symbol c => { h with cases := h.cases.add symbol c }
  | .need symbol =>
    if index.isDefined symbol then h else { h with dependencies := h.dependencies.insert symbol }

/-- What belongs to an entered module. -/
def bodyOf? (s : Scopes) (name : String) : Option ModuleBody :=
  (s.module? name).bind fun id => (s.kind id).body?

/-- What a module holds; one that was never entered holds nothing. -/
def holdings (s : Scopes) (name : String) : Holdings :=
  ((s.bodyOf? name).map fun body => ⟨body.dependencies, body.cases⟩).getD ⟨∅, []⟩

theorem body?_modifyBody (s : Scopes) (id id' : ScopeId) (f : ModuleBody → ModuleBody) :
    ((s.modifyBody id f).kind id').body? =
      if id = id' then (s.kind id').body?.map f else (s.kind id').body? := by
  rw [kind, kind, modifyBody, frame?_modifyFrame]
  cases s.frame? id' with
  | none => simp [FrameKind.body?]
  | some frame =>
    by_cases hid : id = id'
    · cases hk : frame.kind <;> simp [hid, hk, FrameKind.body?]
    · simp [hid]

theorem bodyOf?_congr {s s' : Scopes} (hmodules : s'.modules = s.modules) {name : String}
    (hbody : ∀ id, s.module? name = some id → (s'.kind id).body? = (s.kind id).body?) :
    s'.bodyOf? name = s.bodyOf? name := by
  rw [bodyOf?, bodyOf?, module?, hmodules]
  exact Option.bind_congr hbody

namespace Formed

variable {s : Scopes}

theorem module_of_moduleScope? (h : s.Formed) {scope id : ScopeId} (hid : s.moduleScope? scope = some id) :
    ∃ body, (s.kind id).body? = some body ∧ s.moduleBody? scope = some body ∧ s.module? body.name = some id := by
  have hsome : (s.kind id).body?.isSome = true := List.find?_some (p := fun id => (s.kind id).body?.isSome) hid
  obtain ⟨body, hbody⟩ := Option.isSome_iff_exists.1 hsome
  obtain ⟨f, hf⟩ := exists_frame_of_mem_chainWithin (List.mem_of_find?_eq_some hid)
  have hkind : f.kind = .module body := FrameKind.eq_module_of_body? (by rw [← kind_of_frame? hf, hbody])
  exact ⟨body, hbody, by rw [moduleBody?, hid, Option.bind_some, hbody],
    h.module?_eq_some_iff.2 (h.module_placed hf hkind).2⟩

/-- A scope stays in its module. -/
theorem moduleOf?_of_retains (h : s.Formed) {s' : Scopes} (hs' : s'.Formed) (hretains : s.Retains s')
    {scope : ScopeId} (hscope : scope < s.frames.length) : s'.moduleOf? scope = s.moduleOf? scope := by
  have hsame := hretains.moduleScope?_eq h hs' (List.getElem?_eq_getElem hscope)
  cases hid : s.moduleScope? scope with
  | none => rw [moduleOf?, moduleOf?, moduleBody?, moduleBody?, hsame, hid, Option.bind_none, Option.bind_none]
  | some id =>
    obtain ⟨body, hkind, hbody, -⟩ := h.module_of_moduleScope? hid
    obtain ⟨f, hf⟩ := exists_frame_of_mem_chainWithin (List.mem_of_find?_eq_some hid)
    have hgrows := hretains.grows hf
    rw [FrameKind.eq_module_of_body? hkind] at hgrows
    obtain ⟨body', hkind', hname, -⟩ := hgrows.exists_body
    have hbody' : s'.moduleBody? scope = some body' := by
      rw [moduleBody?, hsame, hid, Option.bind_some, hkind']
      rfl
    rw [moduleOf?, moduleOf?, hbody, hbody', Option.map_some, Option.map_some, hname]

theorem moduleOf?_perform (h : s.Formed) {op : Operation} (hop : s.Allows op) {scope : ScopeId}
    (hscope : scope < s.frames.length) : (s.perform op).moduleOf? scope = s.moduleOf? scope :=
  have hchange := s.change_perform hop
  h.moduleOf?_of_retains (h.change hchange) hchange.retains hscope

/-- It does not matter when an operation is asked for its events. -/
theorem events_perform (h : s.Formed) {op op' : Operation} (hop : s.Allows op) (hop' : s.Allows op') :
    (s.perform op').events op = s.events op := by
  cases op with
  | addCase scope symbol c => rw [events, events, h.moduleOf?_perform hop' (hop scope rfl)]
  | addDependency scope symbol => rw [events, events, h.moduleOf?_perform hop' (hop scope rfl)]
  | _ => rfl

theorem bodyOf?_of_moduleBody? (h : s.Formed) {scope : ScopeId} {body : ModuleBody}
    (hbody : s.moduleBody? scope = some body) : s.bodyOf? body.name = some body := by
  obtain ⟨id, hid, hkind⟩ := Option.bind_eq_some_iff.1 hbody
  obtain ⟨body', hkind', -, hmodule⟩ := h.module_of_moduleScope? hid
  cases hkind.symm.trans hkind'
  rw [bodyOf?, hmodule, Option.bind_some, hkind]

theorem holdings_of_moduleBody? (h : s.Formed) {scope : ScopeId} {body : ModuleBody}
    (hbody : s.moduleBody? scope = some body) :
    s.holdings body.name = ⟨s.dependencies scope, s.cases scope⟩ := by
  rw [holdings, h.bodyOf?_of_moduleBody? hbody, dependencies, cases, hbody]
  rfl

theorem bodyOf?_modifyModuleOf (h : s.Formed) (scope : ScopeId) (f : ModuleBody → ModuleBody) (name : String) :
    (s.modifyModuleOf scope f).bodyOf? name =
      if s.moduleOf? scope = some name then (s.bodyOf? name).map f else s.bodyOf? name := by
  unfold modifyModuleOf
  split
  · rename_i id hid
    obtain ⟨body, hkind, hbody, hmodule⟩ := h.module_of_moduleScope? hid
    rw [moduleOf?, hbody, Option.map_some]
    have hlater : (s.modifyBody id f).bodyOf? name = (s.module? name).bind fun id' =>
      ((s.modifyBody id f).kind id').body? := rfl
    split
    · rename_i hname
      rw [hlater, bodyOf?, ← Option.some.inj hname, hmodule, Option.bind_some, Option.bind_some,
        body?_modifyBody, if_pos rfl]
    · rename_i hname
      refine bodyOf?_congr (show (s.modifyBody id f).modules = s.modules from rfl) fun id' hid' => ?_
      rw [body?_modifyBody, if_neg]
      rintro rfl
      obtain ⟨-, body', hkind', hname'⟩ := h.kind_of_module? hid'
      rw [hkind'] at hkind
      cases hkind
      exact hname (congrArg some hname')
  · rename_i hid
    have hnone : s.moduleOf? scope = none := by rw [moduleOf?, moduleBody?, hid]; rfl
    rw [hnone, if_neg (by simp)]

theorem holdings_modifyModuleOf (h : s.Formed) (index : Index) {f : ModuleBody → ModuleBody} {e : Event}
    (hf : ∀ body, Holdings.mk (f body).dependencies (f body).cases =
      Holdings.add index ⟨body.dependencies, body.cases⟩ e) (scope : ScopeId) (name : String) :
    (s.modifyModuleOf scope f).holdings name =
      (eventsOf name ((s.moduleOf? scope).toList.map (·, e))).foldl (Holdings.add index) (s.holdings name) := by
  rw [holdings, h.bodyOf?_modifyModuleOf, moduleOf?]
  cases hbody : s.moduleBody? scope with
  | none => rfl
  | some body =>
    by_cases hname : body.name = name
    · subst hname
      rw [holdings, h.bodyOf?_of_moduleBody? hbody]
      simp [eventsOf, hf]
    · rw [holdings]
      simp [eventsOf, hname]

/-- Imports are not among what a module holds. -/
theorem holdings_enterModule (h : s.Formed) (name' : String) (imports : List Import) (name : String) :
    (s.perform (.enterModule name' imports)).holdings name = s.holdings name := by
  rw [perform]
  cases hmodule : s.module? name' with
  | some id =>
    rw [enterModule_of_entered hmodule]
    have hlater : (s.modifyBody id fun body =>
        { body with imports := imports.foldl addImport body.imports }).module? name = s.module? name := rfl
    rw [holdings, holdings, bodyOf?, bodyOf?, hlater]
    cases s.module? name with
    | none => rfl
    | some id' =>
      rw [Option.bind_some, Option.bind_some, body?_modifyBody]
      split
      · rw [Option.map_map]
        rfl
      · rfl
  | none =>
    rw [enterModule_of_new hmodule, holdings, holdings, bodyOf?, bodyOf?, module?, List.lookup_append]
    cases hid : s.modules.lookup name with
    | some id =>
      rw [Option.some_or, module?, hid, Option.bind_some, Option.bind_some, kind, kind, frame?_append rfl,
        if_neg (h.kind_of_module? hid).1.ne]
    | none =>
      rw [Option.none_or, module?, hid, List.lookup_cons]
      split
      · rw [Option.bind_some, kind_of_frame? (frame?_append_self rfl)]
        rfl
      · rfl

/-- An operation gives its events to the modules that they belong to, and nothing to any other. -/
theorem holdings_perform (h : s.Formed) (op : Operation) (name : String) :
    (s.perform op).holdings name =
      (eventsOf name (s.events op)).foldl (Holdings.add s.index) (s.holdings name) := by
  have hsame : ∀ {s' : Scopes}, s'.modules = s.modules →
      (∀ id, s.module? name = some id → (s'.kind id).body? = (s.kind id).body?) →
        s'.holdings name = s.holdings name := by
    intro s' hmodules hbody
    rw [holdings, bodyOf?_congr hmodules hbody, holdings]
  cases op with
  | types call => rfl
  | enterModule name' imports =>
    rw [h.holdings_enterModule]
    rfl
  | enterScope scope =>
    refine hsame rfl fun id hid => ?_
    rw [kind, kind, perform, frame?_append rfl, if_neg (h.kind_of_module? hid).1.ne]
  | record scope symbol d =>
    simp only [perform, record_eq]
    split
    · rename_i s' hdefine
      obtain ⟨owner, e, -, -, -, -, rfl⟩ := define_eq_ok hdefine
      exact hsame rfl fun id _ => congrArg FrameKind.body? (kind_modifyFrame s scope id fun _ => rfl)
    · rfl
  | implement c t => rfl
  | addCase scope symbol c => exact h.holdings_modifyModuleOf s.index (fun _ => rfl) scope name
  | addDependency scope symbol =>
    simp only [perform, addDependency]
    split
    · rename_i hdefined
      cases hmodule : s.moduleOf? scope with
      | none => simp [events, eventsOf, hmodule]
      | some name' =>
        by_cases hname : name' = name <;> simp [events, eventsOf, hmodule, hname, Holdings.add, hdefined]
    · rename_i hdefined
      exact h.holdings_modifyModuleOf s.index (fun body => by simp [Holdings.add, hdefined]) scope name
  | reserveSymbol scope nestings => rfl
  | signature scope symbol =>
    simp only [perform]
    split
    · rename_i hsig
      obtain ⟨u, -, hu⟩ := Option.map_eq_some_iff.1 hsig
      cases hu
      rfl
    · rfl

end Formed

namespace AllowsAll

variable {index : Index} {options : Options} {ops : List Operation}

theorem log_concat {op : Operation} (h : (new index options).AllowsAll (ops ++ [op])) :
    ((new index options).run (ops ++ [op])).log (ops ++ [op]) =
      ((new index options).run ops).log ops ++ ((new index options).run ops).events op := by
  obtain ⟨hops, hop⟩ := allowsAll_concat_iff.1 h
  have hformed := hops.reachable.formed
  rw [log, log, run_concat, List.flatMap_append, List.flatMap_singleton, hformed.events_perform hop hop]
  refine congrArg (· ++ _) (List.flatMap_congr fun op' hop' => ?_)
  exact hformed.events_perform (hops.allows_of_mem hop') hop

/-- What a module holds after a run can be read off the log. -/
theorem holdings_eq (h : (new index options).AllowsAll ops) (name : String) :
    ((new index options).run ops).holdings name =
      (eventsOf name (((new index options).run ops).log ops)).foldl (Holdings.add index) ⟨∅, []⟩ := by
  induction ops using List.reverseRecOn with
  | nil => rfl
  | append_singleton ops op ih =>
    have hops := (allowsAll_concat_iff.1 h).1
    rw [h.log_concat, eventsOf_append, List.foldl_append, ← ih hops, run_concat,
      hops.reachable.formed.holdings_perform, hops.reachable.index_eq]

end AllowsAll

/-! ### Cases in order -/

/-- The cases among the events of a module, each with its symbol. -/
def Event.case? : Event → Option (Symbol × Case)
  | .case symbol c => some (symbol, c)
  | _ => none

/-- The cases added from the scopes of a module, in the order of the calls. -/
def caseCalls (name : String) (log : List (String × Event)) : List (Symbol × Case) :=
  (eventsOf name log).filterMap Event.case?

theorem caseCalls_append (name : String) (log log' : List (String × Event)) :
    caseCalls name (log ++ log') = caseCalls name log ++ caseCalls name log' := by
  rw [caseCalls, eventsOf_append, List.filterMap_append, caseCalls, caseCalls]

theorem cases_foldl_add (index : Index) (es : List Event) :
    (es.foldl (Holdings.add index) ⟨∅, []⟩).cases = .ofCalls (es.filterMap Event.case?) := by
  induction es using List.reverseRecOn with
  | nil => rfl
  | append_singleton es e ih =>
    rw [List.foldl_append, List.filterMap_append, List.foldl_cons, List.foldl_nil]
    cases e with
    | case symbol c =>
      have hcall : [Event.case symbol c].filterMap Event.case? = [(symbol, c)] := rfl
      rw [hcall, CaseTable.ofCalls_concat, ← ih]
      rfl
    | need symbol =>
      have hnone : [Event.need symbol].filterMap Event.case? = [] := rfl
      rw [hnone, List.append_nil, ← ih, Holdings.add]
      split <;> rfl

theorem AllowsAll.cases_eq {index : Index} {options : Options} {ops : List Operation}
    (h : (new index options).AllowsAll ops) {scope : ScopeId} {name : String}
    (hname : ((new index options).run ops).moduleOf? scope = some name) :
    ((new index options).run ops).cases scope =
      .ofCalls (caseCalls name (((new index options).run ops).log ops)) := by
  obtain ⟨body, hbody, rfl⟩ := Option.map_eq_some_iff.1 hname
  have hheld := h.reachable.formed.holdings_of_moduleBody? hbody
  rw [h.holdings_eq] at hheld
  rw [caseCalls, ← cases_foldl_add index, hheld]

/-- The cases of a module are those added from any of its scopes: each symbol once, in the order in which the
symbols got their first case, and under each symbol its cases in the order of the calls. A map of cases that is
kept beside the order of its symbols gives the same. An operation that is no such call leaves them alone. -/
theorem cases_in_order_of_calls {index : Index} {options : Options} {ops : List Operation}
    (h : (new index options).AllowsAll ops) {scope : ScopeId} {name : String}
    (hname : ((new index options).run ops).moduleOf? scope = some name) :
    let s := (new index options).run ops
    s.cases scope = .ofCalls (caseCalls name (s.log ops)) ∧
      s.cases scope = (OrderedCases.ofCalls (caseCalls name (s.log ops))).table ∧
      ((s.cases scope).map (·.1)).Nodup ∧
      ∀ op : Operation, s.Allows op → (∀ symbol c, (name, .case symbol c) ∉ s.events op) →
        (s.perform op).cases scope = s.cases scope := by
  intro s
  have hcases := h.cases_eq hname
  refine ⟨hcases, hcases.trans (OrderedCases.table_ofCalls _).symm, ?_, fun op hop hother => ?_⟩
  · rw [hcases, CaseTable.map_fst_ofCalls]
    exact nodup_eraseDups _
  · have hops : (new index options).AllowsAll (ops ++ [op]) := allowsAll_concat_iff.2 ⟨h, hop⟩
    have hrun := run_concat (new index options) ops op
    have hscope : scope < s.frames.length := by
      obtain ⟨body, hbody, -⟩ := Option.map_eq_some_iff.1 hname
      obtain ⟨⟨f, hf⟩, -⟩ := h.reachable.formed.moduleName?_of_moduleBody? hbody
      exact lt_of_frame? hf
    have hname' : ((new index options).run (ops ++ [op])).moduleOf? scope = some name := by
      rw [hrun, h.reachable.formed.moduleOf?_perform hop hscope, hname]
    have hnone : caseCalls name (s.events op) = [] := by
      refine List.filterMap_eq_nil_iff.2 fun e he => ?_
      cases e with
      | case symbol c => exact absurd (mem_eventsOf.1 he) (hother symbol c)
      | _ => rfl
    rw [← hrun, hops.cases_eq hname', h.cases_eq hname, hops.log_concat, caseCalls_append, hnone,
      List.append_nil]

/-- Cases for `f`, `g` and `f` again, from a body in `M`, from `M` itself and from a body in that body, with
a case of another module in between and an entry of `M` before the last. -/
theorem cases_in_order_of_calls_nested :
    let f := Symbol.qualified "M" "f"
    let g := Symbol.qualified "M" "g"
    let case := fun n => Case.mk ⟨n, n + 1⟩ f [] (.var (.ofName "t"))
    let ops : List Operation := [.enterModule "M" [], .enterScope 1, .enterModule "N" [],
      .addCase 2 f (case 0), .addCase 3 f (case 1), .addCase 1 g (case 2),
      .enterModule "M" [⟨"N", none⟩], .enterScope 2, .addCase 4 f (case 3)]
    let s := (new .empty .default).run ops
    (new .empty .default).AllowsAll ops ∧ s.moduleOf? 4 = some "M" ∧
      caseCalls "M" (s.log ops) = [(f, case 0), (g, case 2), (f, case 3)] ∧
      s.cases 4 = .ofCalls (caseCalls "M" (s.log ops)) ∧
      s.cases 4 = (OrderedCases.ofCalls (caseCalls "M" (s.log ops))).table ∧
      s.cases 4 = [(f, [case 0, case 3]), (g, [case 2])] ∧
      (s.perform (.addCase 3 f (case 4))).cases 4 = s.cases 4 := by
  intro f g case ops s
  have hops : (new .empty .default).AllowsAll ops := by decide +kernel
  have hname : s.moduleOf? 4 = some "M" := by decide +kernel
  have hother : s.events (.addCase 3 f (case 4)) = [("N", .case f (case 4))] := by decide +kernel
  obtain ⟨hcases, hordered, -, hkept⟩ := cases_in_order_of_calls hops hname
  refine ⟨hops, hname, by decide +kernel, hcases, hordered, by decide +kernel,
    hkept (.addCase 3 f (case 4)) (by decide +kernel) ?_⟩
  rw [hother]
  simp

end Scopes

end TypeEngine
