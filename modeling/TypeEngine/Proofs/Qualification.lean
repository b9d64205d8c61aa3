import TypeEngine.Proofs.ScopeTree

/-! # Qualification and lookup

A name without an owner is tried on every import, a symbol with an owner only on the first import of its
module. So what a name is qualified to can be qualified again exactly if that first import lets the name
through (`qualify_again_iff_admits`). Lookup goes by the symbol a name is qualified to and always finds an
entry for it (`isSome_lookup?_of_qualify`), and an entry that is found, in whichever place, is that of the
symbol asked for (`Formed.symbol_eq_of_stored`). -/

namespace TypeEngine

/-! ### What an index holds -/

namespace Index

def Keyed (i : Index) : Prop := ∀ symbol e, i.lookup? symbol = some e → e.symbol = symbol

theorem Keyed.register {i : Index} (h : i.Keyed) (r : Registration) : (i.register r).Keyed := by
  intro symbol e he
  cases r with
  | entry e' =>
    rw [Index.register, lookup?_define] at he
    split at he
    · rename_i hsame
      cases he
      exact hsame
    · exact h symbol e he
  | typeInstance d => exact h symbol e he

theorem keyed_ofRegistrations (rs : List Registration) : (ofRegistrations rs).Keyed := by
  refine List.foldlRecOn (motive := Keyed) rs _ ?_ fun i hi r _ => hi.register r
  intro symbol e he
  rw [lookup?, Index.empty, Std.ExtTreeMap.getElem?_empty] at he
  cases he

end Index

namespace Scopes

/-! ### Qualification -/

theorem importedAs_eq_some_iff {s : Scopes} {name : String} {i : Import} {q : Symbol} :
    s.importedAs name i = some q ↔
      i.exposes name = true ∧ s.isDefinedInUnit q = true ∧ q = .qualified i.module name := by
  unfold importedAs Import.qualify
  split
  · rename_i h
    rw [Bool.and_eq_true] at h
    constructor
    · rintro ⟨⟩
      exact ⟨h.1, h.2, rfl⟩
    · rintro ⟨-, -, rfl⟩
      rfl
  · rename_i h
    rw [Bool.and_eq_true] at h
    refine ⟨nofun, ?_⟩
    rintro ⟨hexposes, hdefined, rfl⟩
    exact absurd ⟨hexposes, hdefined⟩ h

theorem module_eq_of_find? {imports : List Import} {owner : String} {i : Import}
    (h : imports.find? (·.isFrom owner) = some i) : i.module = owner := by
  simpa [Import.isFrom] using List.find?_some h

/-- A symbol with an owner is qualified to itself or to nothing. -/
theorem qualify_qualified_eq_some_iff {s : Scopes} {scope : ScopeId} {owner name : String} {q : Symbol} :
    s.qualify scope (.qualified owner name) = some q ↔
      q = .qualified owner name ∧
        (s.moduleName? scope = none ∨ s.moduleName? scope = some owner ∨
          s.isDefinedInUnit q = true ∧
            ∃ i, (s.imports scope).find? (·.isFrom owner) = some i ∧ i.exposes name = true) := by
  cases hmodule : s.moduleName? scope with
  | none =>
    simp only [qualify, hmodule, Option.some.injEq]
    exact ⟨fun h => ⟨h.symm, .inl trivial⟩, fun h => h.1.symm⟩
  | some module =>
    by_cases howner : owner = module
    · simp only [qualify, hmodule, if_pos howner, Option.some.injEq]
      exact ⟨fun h => ⟨h.symm, .inr (.inl howner.symm)⟩, fun h => h.1.symm⟩
    · simp only [qualify, hmodule, if_neg howner, Option.bind_eq_some_iff, importedAs_eq_some_iff,
        reduceCtorEq, Option.some.injEq, Ne.symm howner, false_or]
      constructor
      · rintro ⟨i, hfirst, hexposes, hdefined, rfl⟩
        exact ⟨by rw [module_eq_of_find? hfirst], hdefined, i, hfirst, hexposes⟩
      · rintro ⟨rfl, hdefined, i, hfirst, hexposes⟩
        exact ⟨i, hfirst, hexposes, hdefined, by rw [module_eq_of_find? hfirst]⟩

/-- A name without an owner is qualified to a definition around the scope, or to one that is imported. -/
theorem qualify_unqualified_eq_some {s : Scopes} {scope : ScopeId} {name : String} {q : Symbol}
    (h : s.qualify scope (.unqualified name) = some q) :
    ∃ module, s.moduleName? scope = some module ∧
      (q = .qualified module name ∧ s.isDefinedLocally scope q = true ∨
        ∃ i ∈ s.imports scope, s.importedAs name i = some q) := by
  unfold qualify at h
  split at h
  · rename_i hsymbol
    cases hsymbol
  · cases h
  · rename_i hsymbol
    cases hsymbol
  · rename_i module name' hmodule hsymbol
    cases hsymbol
    refine ⟨module, hmodule, ?_⟩
    split at h
    · rename_i hlocal
      cases h
      exact .inl ⟨rfl, hlocal⟩
    · exact .inr (List.exists_of_findSome?_eq_some h)

/-- What is qualified is qualified to a symbol with an owner: one of the module of the scope or, seen from
a module, one that is defined there. -/
theorem exists_owner_of_qualify {s : Scopes} {scope : ScopeId} {symbol q : Symbol}
    (h : s.qualify scope symbol = some q) :
    ∃ owner name, q = .qualified owner name ∧
      (s.moduleName? scope = none ∨ s.moduleName? scope = some owner ∨ s.isDefinedInUnit q = true) := by
  cases symbol with
  | qualified owner name =>
    obtain ⟨rfl, hor⟩ := qualify_qualified_eq_some_iff.1 h
    exact ⟨owner, name, rfl, hor.imp_right fun hor => hor.imp_right And.left⟩
  | unqualified name =>
    obtain ⟨module, hmodule, ⟨rfl, -⟩ | ⟨i, -, hi⟩⟩ := qualify_unqualified_eq_some h
    · exact ⟨module, name, rfl, .inr (.inl hmodule)⟩
    · obtain ⟨-, hdefined, rfl⟩ := importedAs_eq_some_iff.1 hi
      exact ⟨i.module, name, rfl, .inr (.inr hdefined)⟩

/-! ### Qualifying again -/

theorem qualify_again_of_isQualified {s : Scopes} {scope : ScopeId} {symbol q : Symbol}
    (h : s.qualify scope symbol = some q) (hsymbol : symbol.isQualified = true) :
    s.qualify scope q = some q := by
  cases symbol with
  | qualified owner name =>
    obtain ⟨rfl, -⟩ := qualify_qualified_eq_some_iff.1 h
    exact h
  | unqualified name => cases hsymbol

/-- The symbol can be written with its owner in the scope: it belongs to the module of the scope, or the
scope to none, or the first import of its module lets its name through. -/
def Admits (s : Scopes) (scope : ScopeId) (q : Symbol) : Prop :=
  s.moduleName? scope = none ∨ s.moduleName? scope = q.owner? ∨
    ∃ i, (s.imports scope).find? (fun i => q.isFrom i.module) = some i ∧ i.exposes q.simpleName = true

theorem find?_isFrom_qualified (imports : List Import) (owner name : String) :
    imports.find? (fun i => (Symbol.qualified owner name).isFrom i.module) =
      imports.find? (·.isFrom owner) := by
  congr 1
  funext i
  rw [Symbol.isFrom, Symbol.owner?, Import.isFrom, Option.some_beq_some, Bool.beq_comm]

theorem qualify_again_iff_admits {s : Scopes} {scope : ScopeId} {symbol q : Symbol}
    (h : s.qualify scope symbol = some q) : s.qualify scope q = some q ↔ s.Admits scope q := by
  obtain ⟨owner, name, rfl, hdefined⟩ := exists_owner_of_qualify h
  rw [qualify_qualified_eq_some_iff, and_iff_right rfl, Admits, find?_isFrom_qualified]
  constructor
  · exact fun hor => hor.imp_right fun hor => hor.imp_right And.right
  · rintro (hnone | hown | hfirst)
    · exact .inl hnone
    · exact .inr (.inl hown)
    · exact hdefined.imp_right fun hor => hor.imp_right fun hdefined => ⟨hdefined, hfirst⟩

theorem qualify_again_of_first_covers {s : Scopes} {scope : ScopeId} {symbol q : Symbol}
    (h : s.qualify scope symbol = some q)
    (hcovers : ∀ i ∈ s.imports scope, ∀ first, (s.imports scope).find? (·.isFrom i.module) = some first →
      ∀ name, i.exposes name = true → first.exposes name = true) : s.qualify scope q = some q := by
  cases symbol with
  | qualified owner name => exact qualify_again_of_isQualified h rfl
  | unqualified name =>
    obtain ⟨module, hmodule, ⟨rfl, -⟩ | ⟨i, hi, himport⟩⟩ := qualify_unqualified_eq_some h
    · exact (qualify_again_iff_admits h).2 (.inr (.inl hmodule))
    · obtain ⟨hexposes, -, rfl⟩ := importedAs_eq_some_iff.1 himport
      have hsome : ((s.imports scope).find? (·.isFrom i.module)).isSome = true :=
        List.find?_isSome.2 ⟨i, hi, beq_self_eq_true i.module⟩
      obtain ⟨first, hfirst⟩ := Option.isSome_iff_exists.1 hsome
      refine (qualify_again_iff_admits h).2 (.inr (.inr ⟨first, ?_, hcovers i hi first hfirst name hexposes⟩))
      rw [find?_isFrom_qualified, hfirst]

/-- What a symbol is qualified to can be qualified again, and then stays as it is, exactly if the scope
admits it. A symbol with an owner always meets this, and every symbol does where the first import of a
module lets through all that later imports of the module let through. -/
theorem qualify_again_iff {s : Scopes} {scope : ScopeId} {symbol q : Symbol}
    (h : s.qualify scope symbol = some q) :
    (s.qualify scope q = some q ↔ s.Admits scope q) ∧
    (symbol.isQualified = true → s.qualify scope q = some q) ∧
    ((∀ i ∈ s.imports scope, ∀ first, (s.imports scope).find? (·.isFrom i.module) = some first →
        ∀ name, i.exposes name = true → first.exposes name = true) →
      s.qualify scope q = some q) :=
  ⟨qualify_again_iff_admits h, qualify_again_of_isQualified h, qualify_again_of_first_covers h⟩

/-- The first import of `a` lets `x` and `y` through and the second one `x`. -/
theorem qualify_again_iff_through_first_import :
    let a : Index := .ofRegistrations [.entry (.empty (.qualified "a" "x"))]
    let s := (new a .default).perform (.enterModule "M" [⟨"a", some ["y", "x"]⟩, ⟨"a", some ["x"]⟩])
    s.qualify 1 (.unqualified "x") = some (.qualified "a" "x") ∧
      s.qualify 1 (.qualified "a" "x") = some (.qualified "a" "x") := by
  refine ⟨?hx, (qualify_again_iff ?hx).1.2 (.inr (.inr ⟨⟨"a", some ["y", "x"]⟩, ?_, ?_⟩))⟩ <;> decide +kernel

/-- The first import of `a` lets `y` through and the second one `x`. The name `x` is qualified to `a.x`
through the second, but `a.x` itself cannot be qualified. -/
theorem not_qualify_again_behind_first_import :
    let a : Index := .ofRegistrations [.entry (.empty (.qualified "a" "x"))]
    let s := (new a .default).perform (.enterModule "M" [⟨"a", some ["y"]⟩, ⟨"a", some ["x"]⟩])
    Reachable a .default s ∧
      s.qualify 1 (.unqualified "x") = some (.qualified "a" "x") ∧
      s.qualify 1 (.qualified "a" "x") = none :=
  ⟨.perform .new _ nofun, by decide +kernel, by decide +kernel⟩

/-! ### Lookup -/

theorem mem_upToModule {s : Scopes} {ids : List ScopeId} {id : ScopeId} (h : id ∈ s.upToModule ids) :
    id ∈ ids := by
  induction ids with
  | nil => exact h
  | cons outer ids ih =>
    rw [upToModule] at h
    split at h
    · rw [List.mem_singleton.1 h]
      exact List.mem_cons_self
    · rcases List.mem_cons.1 h with rfl | h
      · exact List.mem_cons_self
      · exact List.mem_cons_of_mem _ (ih h)

theorem lookup?_unqualified (s : Scopes) (scope : ScopeId) (name : String) :
    s.lookup? scope (.unqualified name) =
      (s.qualify scope (.unqualified name)).bind (s.lookup? scope) := by
  rw [lookup?, show s.lookupSymbol scope (.unqualified name) = s.qualify scope (.unqualified name) from rfl]
  cases hq : s.qualify scope (.unqualified name) with
  | none => rfl
  | some q =>
    obtain ⟨owner, name', rfl, -⟩ := exists_owner_of_qualify hq
    rfl

/-- Whatever makes a name qualify, a definition around the scope or one behind an import, can be found. -/
theorem isSome_lookup?_of_qualify {s : Scopes} {scope : ScopeId} {name : String} {q : Symbol}
    (h : s.qualify scope (.unqualified name) = some q) : (s.lookup? scope q).isSome = true := by
  obtain ⟨owner, name', rfl, -⟩ := exists_owner_of_qualify h
  show (((s.chain scope).findSome? fun id => s.entryIn? id _).or (s.lookupInUnit? _)).isSome = true
  rw [Option.isSome_or, Bool.or_eq_true]
  obtain ⟨module, -, ⟨-, hlocal⟩ | ⟨i, -, himport⟩⟩ := qualify_unqualified_eq_some h
  · obtain ⟨id, hid, hentry⟩ := List.any_eq_true.1 hlocal
    exact .inl (List.findSome?_isSome_iff.2 ⟨id, mem_upToModule hid, hentry⟩)
  · exact .inr (importedAs_eq_some_iff.1 himport).2.1

/-- Where the entry that `scope` sees of a symbol with an owner is stored: in the nearest scope outwards that has
one, else in the scope of the module that owns the symbol, else in the index. -/
inductive Stored (s : Scopes) (scope : ScopeId) (symbol : Symbol) (e : Entry) : Prop
  | chain (id : ScopeId) (nearer further : List ScopeId)
      (hchain : s.chain scope = nearer ++ id :: further)
      (hnearer : ∀ id' ∈ nearer, s.entryIn? id' symbol = none) (he : s.entryIn? id symbol = some e)
  | module (owner : String) (id : ScopeId)
      (hchain : ∀ id' ∈ s.chain scope, s.entryIn? id' symbol = none)
      (howner : symbol.owner? = some owner) (hid : s.module? owner = some id)
      (he : s.entryIn? id symbol = some e)
  | index (hchain : ∀ id' ∈ s.chain scope, s.entryIn? id' symbol = none)
      (hmodule : ∀ owner id, symbol.owner? = some owner → s.module? owner = some id →
        s.entryIn? id symbol = none)
      (he : s.index.lookup? symbol = some e)

theorem lookup?_eq_some_iff_stored {s : Scopes} {scope : ScopeId} {symbol : Symbol} {e : Entry}
    (hsymbol : symbol.isQualified = true) : s.lookup? scope symbol = some e ↔ s.Stored scope symbol e := by
  have hmodule : (symbol.owner?.bind s.module?).bind (s.entryIn? · symbol) = none ↔
      ∀ owner id, symbol.owner? = some owner → s.module? owner = some id → s.entryIn? id symbol = none := by
    simp only [Option.bind_eq_none_iff, Option.bind_eq_some_iff, forall_exists_index, and_imp]
    exact ⟨fun h owner id howner => h id owner howner, fun h id owner howner => h owner id howner⟩
  rw [lookup?, lookupSymbol, if_pos hsymbol, Option.bind_some, lookupInUnit?, Option.or_eq_some_iff,
    Option.or_eq_some_iff, List.findSome?_eq_none_iff, hmodule]
  constructor
  · rintro (hchain | ⟨hchain, howned | ⟨hnone, hindex⟩⟩)
    · obtain ⟨nearer, id, further, hsplit, he, hnearer⟩ := List.findSome?_eq_some_iff.1 hchain
      exact .chain id nearer further hsplit hnearer he
    · obtain ⟨id, hid, he⟩ := Option.bind_eq_some_iff.1 howned
      obtain ⟨owner, howner, hid⟩ := Option.bind_eq_some_iff.1 hid
      exact .module owner id hchain howner hid he
    · exact .index hchain hnone hindex
  · rintro (⟨id, nearer, further, hsplit, hnearer, he⟩ | ⟨owner, id, hchain, howner, hid, he⟩ |
      ⟨hchain, hnone, hindex⟩)
    · exact .inl (List.findSome?_eq_some_iff.2 ⟨nearer, id, further, hsplit, he, hnearer⟩)
    · exact .inr ⟨hchain, .inl (by rw [howner, Option.bind_some, hid, Option.bind_some, he])⟩
    · exact .inr ⟨hchain, .inr ⟨hnone, hindex⟩⟩

namespace Formed

theorem symbol_eq_of_entryIn? {s : Scopes} (h : s.Formed) {id : ScopeId} {symbol : Symbol} {e : Entry}
    (he : s.entryIn? id symbol = some e) : e.symbol = symbol := by
  obtain ⟨f, hf, he⟩ := Option.bind_eq_some_iff.1 he
  exact (h.filed hf he).symbol_eq

theorem symbol_eq_of_stored {s : Scopes} (h : s.Formed) (hindex : s.index.Keyed) {scope : ScopeId}
    {symbol : Symbol} {e : Entry} (he : s.Stored scope symbol e) : e.symbol = symbol := by
  cases he with
  | chain id _ _ _ _ he => exact h.symbol_eq_of_entryIn? he
  | module owner id _ _ _ he => exact h.symbol_eq_of_entryIn? he
  | index _ _ he => exact hindex symbol e he

end Formed

/-- A name is found exactly if it can be qualified, and then by the entry of the symbol it is qualified to.
An entry found for a symbol with an owner is its own, and it is found in the nearest scope outwards that has
one, else in its module, else in the index. -/
theorem lookup?_agrees_with_qualify {rs : List Index.Registration} {options : Options} {s : Scopes}
    (h : Reachable (.ofRegistrations rs) options s) (scope : ScopeId) :
    (∀ name, ((s.lookup? scope (.unqualified name)).isSome = true ↔
        ∃ q, s.qualify scope (.unqualified name) = some q) ∧
      ∀ q, s.qualify scope (.unqualified name) = some q →
        ∃ e, s.lookup? scope (.unqualified name) = some e ∧ e.symbol = q ∧ s.lookup? scope q = some e) ∧
    (∀ symbol e, symbol.isQualified = true → s.lookup? scope symbol = some e → e.symbol = symbol) ∧
    ∀ symbol e, symbol.isQualified = true → (s.lookup? scope symbol = some e ↔ s.Stored scope symbol e) := by
  have hindex : s.index.Keyed := h.index_eq ▸ Index.keyed_ofRegistrations rs
  have hsymbol : ∀ symbol e, symbol.isQualified = true → s.lookup? scope symbol = some e →
      e.symbol = symbol := by
    intro symbol e hsymbol he
    exact h.formed.symbol_eq_of_stored hindex ((lookup?_eq_some_iff_stored hsymbol).1 he)
  have hfound : ∀ name q, s.qualify scope (.unqualified name) = some q →
      ∃ e, s.lookup? scope (.unqualified name) = some e ∧ e.symbol = q ∧ s.lookup? scope q = some e := by
    intro name q hq
    obtain ⟨e, he⟩ := Option.isSome_iff_exists.1 (isSome_lookup?_of_qualify hq)
    obtain ⟨owner, name', rfl, -⟩ := exists_owner_of_qualify hq
    exact ⟨e, by rw [lookup?_unqualified, hq, Option.bind_some, he], hsymbol _ e rfl he, he⟩
  refine ⟨fun name => ⟨⟨fun hsome => ?_, ?_⟩, hfound name⟩, hsymbol, fun _ _ => lookup?_eq_some_iff_stored⟩
  · rw [lookup?_unqualified] at hsome
    exact Option.isSome_iff_exists.1 (Option.isSome_of_isSome_bind hsome)
  · rintro ⟨q, hq⟩
    obtain ⟨e, he, -⟩ := hfound name q hq
    rw [he]
    rfl

/-- From a body in `M`: `x` comes from the index, `y` from another module of the unit, and `z` from the
body itself. -/
theorem lookup?_agrees_with_qualify_in_body :
    let x := Symbol.qualified "a" "x"
    let y := Symbol.qualified "N" "y"
    let z := Symbol.qualified "M" "z"
    let i : Index := .ofRegistrations [.entry (.empty x)]
    let t := Ty.var (.ofName "t")
    let s₁ := ((new i .default).perform (.enterModule "N" [])).perform (.record 1 y (.value t))
    let s₂ := (s₁.perform (.enterModule "M" [⟨"a", none⟩, ⟨"N", some ["y"]⟩])).perform (.enterScope 2)
    let s := s₂.perform (.record 3 z (.value t))
    Reachable i .default s ∧ s.qualify 3 (.unqualified "x") = some x ∧
      s.qualify 3 (.unqualified "y") = some y ∧ s.qualify 3 (.unqualified "z") = some z ∧
      (∃ e, s.lookup? 3 (.unqualified "x") = some e ∧ e.symbol = x ∧ s.lookup? 3 x = some e) ∧
      (∃ e, s.lookup? 3 (.unqualified "y") = some e ∧ e.symbol = y ∧ s.lookup? 3 y = some e) ∧
      (∃ e, s.lookup? 3 (.unqualified "z") = some e ∧ e.symbol = z ∧ s.lookup? 3 z = some e) ∧
      s.Stored 3 x (.empty x) ∧ s.Stored 3 y ((Entry.empty y).withValue t) ∧
      s.Stored 3 z ((Entry.empty z).withValue t) := by
  refine ⟨?hs, ?hx, ?hy, ?hz, ((lookup?_agrees_with_qualify ?hs 3).1 "x").2 _ ?hx,
    ((lookup?_agrees_with_qualify ?hs 3).1 "y").2 _ ?hy, ((lookup?_agrees_with_qualify ?hs 3).1 "z").2 _ ?hz,
    ((lookup?_agrees_with_qualify ?hs 3).2.2 _ _ rfl).1 ?_, ((lookup?_agrees_with_qualify ?hs 3).2.2 _ _ rfl).1 ?_,
    ((lookup?_agrees_with_qualify ?hs 3).2.2 _ _ rfl).1 ?_⟩
  case hs =>
    refine .perform (.perform (.perform (.perform (.perform .new _ ?_) _ ?_) _ ?_) _ ?_) _ ?_ <;>
      decide +kernel
  all_goals decide +kernel

end Scopes

end TypeEngine
