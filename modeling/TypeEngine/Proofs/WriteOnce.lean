import TypeEngine.Proofs.ScopeTree

/-! # Recording a definition

A definition sets one part of one entry (`Definition.write`), or it fails because a part that is written
once holds something else (`Definition.change_of_slot`). In place, the entry is created before the part is
filled (`recordInPlace`). No entry is left behind by a failure, since nothing can clash with an entry that
was just created, and a declaration once recorded stays, since every later change either leaves its slot
alone or writes the same again. -/

namespace TypeEngine

namespace Scopes

/-! ### Slots -/

/-- The slot a definition fills, if it is one that is written once. -/
def Definition.slot? : Definition → Option Slot
  | .value _ | .signature _ => none
  | .operator _ => some .operator
  | .dataType _ => some .dataType
  | .dataConstructor _ => some .dataConstructor
  | .typeClass _ => some .typeClass
  | .memberOf _ => some .memberOf

/-- The entry with the definition put in its place; a value comes with its getter. -/
def Definition.write (symbol : Symbol) : Definition → Entry → Entry
  | .value t, e => { e with value := some t, getter := some (.ofValue symbol t) }
  | .signature t, e => { e with signature := some t }
  | .operator o, e => { e with operator := some o }
  | .dataType d, e => { e with dataType := some d }
  | .dataConstructor d, e => { e with dataConstructor := some d }
  | .typeClass c, e => { e with typeClass := some c }
  | .memberOf c, e => { e with memberOf := some c }

end Scopes

/-- What a slot of an entry holds. -/
def Entry.declared (e : Entry) : Slot → Option Scopes.Definition
  | .operator => e.operator.map .operator
  | .dataType => e.dataType.map .dataType
  | .dataConstructor => e.dataConstructor.map .dataConstructor
  | .typeClass => e.typeClass.map .typeClass
  | .memberOf => e.memberOf.map .memberOf

theorem Entry.declared_empty (symbol : Symbol) (slot : Slot) : (Entry.empty symbol).declared slot = none := by
  cases slot <;> rfl

namespace Scopes

namespace Definition

theorem slot?_of_declared {e : Entry} {slot : Slot} {d : Definition} (h : e.declared slot = some d) :
    d.slot? = some slot := by
  cases slot <;>
    · obtain ⟨x, -, rfl⟩ := Option.map_eq_some_iff.1 h
      rfl

theorem declared_write (symbol : Symbol) (d : Definition) (e : Entry) (slot : Slot) :
    (d.write symbol e).declared slot = if d.slot? = some slot then some d else e.declared slot := by
  cases d <;> cases slot <;> rfl

/-- Filling a slot succeeds exactly if the slot holds nothing else. -/
theorem fill_cases {α : Type} [DecidableEq α] (symbol : Symbol) (slot : Slot) (old : Option α) (new : α)
    {toDefinition : α → Definition} (hinj : Function.Injective toDefinition) (set : Option α → Entry) :
    (∀ d ∈ old.map toDefinition, d = toDefinition new) ∧
        (SlotConflict.fill symbol slot old new).map set = .ok (set (some new)) ∨
      ∃ d ∈ old.map toDefinition, d ≠ toDefinition new ∧
        (SlotConflict.fill symbol slot old new).map set = .error ⟨symbol, slot⟩ := by
  cases old with
  | none => exact .inl ⟨nofun, rfl⟩
  | some x =>
    rw [SlotConflict.fill]
    by_cases hx : x = new
    · subst hx
      refine .inl ⟨fun d hd => (Option.mem_some_iff.1 hd).symm, ?_⟩
      rw [if_pos rfl]
      rfl
    · refine .inr ⟨toDefinition x, rfl, hinj.ne hx, ?_⟩
      rw [if_neg hx]
      rfl

theorem change_of_slot (symbol : Symbol) {d : Definition} (e : Entry) {slot : Slot}
    (hslot : d.slot? = some slot) :
    (∀ d' ∈ e.declared slot, d' = d) ∧ d.change symbol e = .ok (d.write symbol e) ∨
      ∃ d' ∈ e.declared slot, d' ≠ d ∧ d.change symbol e = .error ⟨e.symbol, slot⟩ := by
  cases d with
  | value t => cases hslot
  | signature t => cases hslot
  | operator o => cases hslot; exact fill_cases _ _ _ _ (fun _ _ => operator.inj) _
  | dataType d => cases hslot; exact fill_cases _ _ _ _ (fun _ _ => dataType.inj) _
  | dataConstructor d => cases hslot; exact fill_cases _ _ _ _ (fun _ _ => dataConstructor.inj) _
  | typeClass c => cases hslot; exact fill_cases _ _ _ _ (fun _ _ => typeClass.inj) _
  | memberOf c => cases hslot; exact fill_cases _ _ _ _ (fun _ _ => memberOf.inj) _

theorem change_of_slot?_eq_none (symbol : Symbol) {d : Definition} (e : Entry) (hslot : d.slot? = none) :
    d.change symbol e = .ok (d.write symbol e) := by
  cases d with
  | value t => rfl
  | signature t => rfl
  | _ => cases hslot

theorem eq_write_of_change {symbol : Symbol} {d : Definition} {e e' : Entry}
    (h : d.change symbol e = .ok e') : e' = d.write symbol e := by
  cases hslot : d.slot? with
  | none => exact Except.ok.inj (h.symm.trans (change_of_slot?_eq_none symbol e hslot))
  | some slot =>
    rcases change_of_slot symbol e hslot with ⟨-, hok⟩ | ⟨-, -, -, herror⟩
    · exact Except.ok.inj (h.symm.trans hok)
    · cases h.symm.trans herror

theorem exists_declared_of_error {symbol : Symbol} {d : Definition} {e : Entry} {c : SlotConflict}
    (h : d.change symbol e = .error c) : ∃ slot d', e.declared slot = some d' := by
  cases hslot : d.slot? with
  | none => cases h.symm.trans (change_of_slot?_eq_none symbol e hslot)
  | some slot =>
    rcases change_of_slot symbol e hslot with ⟨-, hok⟩ | ⟨d', hd', -, -⟩
    · cases h.symm.trans hok
    · exact ⟨slot, d', hd'⟩

/-- No definition displaces a declaration. -/
theorem declared_of_change {symbol : Symbol} {d d₀ : Definition} {e e' : Entry} {slot : Slot}
    (hd₀ : e.declared slot = some d₀) (h : d.change symbol e = .ok e') : e'.declared slot = some d₀ := by
  rw [eq_write_of_change h, declared_write]
  split
  · rename_i hslot
    rcases change_of_slot symbol e hslot with ⟨hsame, -⟩ | ⟨-, -, -, herror⟩
    · rw [hsame d₀ hd₀]
    · cases h.symm.trans herror
  · exact hd₀

theorem write_of_declared (symbol : Symbol) {d : Definition} {e : Entry} {slot : Slot}
    (h : e.declared slot = some d) : d.write symbol e = e := by
  cases slot <;>
    · obtain ⟨x, hx, rfl⟩ := Option.map_eq_some_iff.1 h
      cases e
      cases hx
      rfl

end Definition

/-! ### Changing one entry -/

/-- The scope belongs to the module that owns the symbol. -/
def Owns (s : Scopes) (scope : ScopeId) (symbol : Symbol) : Prop :=
  ∃ owner, owner ≠ "" ∧ symbol.owner? = some owner ∧ s.moduleName? scope = some owner

theorem define_of_owns {s : Scopes} {scope : ScopeId} {symbol : Symbol} (h : s.Owns scope symbol)
    (change : Entry → Except SlotConflict Entry) :
    s.define scope symbol change =
      ((change ((s.entryIn? scope symbol).getD (.empty symbol))).mapError .conflict).map fun e =>
        s.modifyFrame scope fun f => { f with entries := f.entries.insert symbol e } := by
  obtain ⟨owner, hne, howner, hmodule⟩ := h
  simp only [define, howner, hmodule, Option.getD_some, ne_eq, not_true_eq_false, hne, or_self, if_false]
  cases change ((s.entryIn? scope symbol).getD (.empty symbol)) <;> rfl

theorem define_of_not_owns {s : Scopes} {scope : ScopeId} {symbol : Symbol} (h : ¬ s.Owns scope symbol) :
    ∃ err, ∀ change, s.define scope symbol change = .error err := by
  cases howner : symbol.owner? with
  | none =>
    refine ⟨.unowned symbol, fun change => ?_⟩
    rw [define, howner]
  | some owner =>
    refine ⟨.foreign symbol ((s.moduleName? scope).getD ""), fun change => ?_⟩
    simp only [define, howner]
    rw [if_pos]
    by_contra hmodule
    obtain ⟨hsame, hne⟩ := not_or.1 hmodule
    have hsame : owner = (s.moduleName? scope).getD "" := not_not.1 hsame
    rw [← hsame] at hne
    exact h ⟨owner, hne, howner, moduleName?_eq_some_of_getD hsame hne⟩

theorem modifyFrame_modifyFrame (s : Scopes) (scope : ScopeId) (g g' : Frame → Frame) :
    (s.modifyFrame scope g).modifyFrame scope g' = s.modifyFrame scope (g' ∘ g) := by
  rw [modifyFrame, modifyFrame, modifyFrame, List.modify_modify_eq]

theorem insert_of_entryIn? {s : Scopes} {scope : ScopeId} {symbol : Symbol} {e : Entry}
    (he : s.entryIn? scope symbol = some e) :
    (s.modifyFrame scope fun f => { f with entries := f.entries.insert symbol e }) = s := by
  refine modifyFrame_eq_self fun f hf => ?_
  rw [entryIn?_of_frame? hf] at he
  have hsame : f.entries.insert symbol e = f.entries := by
    refine Std.ExtTreeMap.ext_getElem? fun other => ?_
    rw [Std.ExtTreeMap.getElem?_insert]
    split
    · rename_i hother
      rw [← Std.LawfulEqOrd.eq_of_compare hother, he]
    · rfl
  rw [hsame]

/-! ### Recording in place -/

/-- Recording as it goes on in place: the entry is created unless it is there, and then changed. A
definition that fails in the second step leaves behind what the first one created. -/
def recordInPlace (s : Scopes) (scope : ScopeId) (symbol : Symbol) (d : Definition) :
    Except ScopeError Unit × Scopes :=
  match s.define scope symbol .ok with
  | .error err => (.error err, s)
  | .ok opened =>
    match opened.record scope symbol d with
    | .error err => (.error err, opened)
    | .ok s' => (.ok (), s')

/-- The scopes in which the entry of a symbol has been created. -/
def opened (s : Scopes) (scope : ScopeId) (symbol : Symbol) : Scopes :=
  s.modifyFrame scope fun f =>
    { f with entries := f.entries.insert symbol ((s.entryIn? scope symbol).getD (.empty symbol)) }

theorem define_ok_of_owns {s : Scopes} {scope : ScopeId} {symbol : Symbol} (h : s.Owns scope symbol) :
    s.define scope symbol .ok = .ok (s.opened scope symbol) := by
  rw [define_of_owns h]
  rfl

theorem record_opened {s : Scopes} {scope : ScopeId} {symbol : Symbol} (h : s.Owns scope symbol)
    (d : Definition) : (s.opened scope symbol).record scope symbol d = s.record scope symbol d := by
  obtain ⟨owner, hne, howner, hmodule⟩ := h
  have howns : (s.opened scope symbol).Owns scope symbol := by
    refine ⟨owner, hne, howner, ?_⟩
    rw [moduleName?, opened, kind_modifyFrame]
    · exact hmodule
    · exact fun _ => rfl
  obtain ⟨f, hf⟩ := exists_frame_of_moduleName? hmodule
  have hentry : (s.opened scope symbol).entryIn? scope symbol =
      some ((s.entryIn? scope symbol).getD (.empty symbol)) := by
    rw [opened, entryIn?_insert, if_pos ⟨rfl, rfl⟩, hf]
    rfl
  have hinsert : ∀ e, ((s.opened scope symbol).modifyFrame scope fun f =>
      { f with entries := f.entries.insert symbol e }) =
        s.modifyFrame scope fun f => { f with entries := f.entries.insert symbol e } := by
    intro e
    rw [opened, modifyFrame_modifyFrame]
    congr 1
    funext f
    have hentries : ∀ old, (f.entries.insert symbol old).insert symbol e = f.entries.insert symbol e := by
      intro old
      refine Std.ExtTreeMap.ext_getElem? fun other => ?_
      simp only [Std.ExtTreeMap.getElem?_insert]
      split <;> rfl
    simp only [Function.comp_apply, hentries]
  rw [record_eq, record_eq, define_of_owns howns, define_of_owns ⟨owner, hne, howner, hmodule⟩, hentry]
  simp only [hinsert, Option.getD_some]

theorem opened_of_declared {s : Scopes} {scope : ScopeId} {symbol : Symbol} {slot : Slot} {d : Definition}
    (h : ((s.entryIn? scope symbol).getD (.empty symbol)).declared slot = some d) :
    s.opened scope symbol = s := by
  cases he : s.entryIn? scope symbol with
  | none =>
    rw [he, Option.getD_none, Entry.declared_empty] at h
    cases h
  | some e =>
    rw [opened, he, Option.getD_some, insert_of_entryIn? he]

theorem record_eq_error {s : Scopes} {scope : ScopeId} {symbol : Symbol} {d : Definition}
    {err : ScopeError} (howns : s.Owns scope symbol) (h : s.record scope symbol d = .error err) :
    ∃ c, d.change symbol ((s.entryIn? scope symbol).getD (.empty symbol)) = .error c := by
  rw [record_eq, define_of_owns howns] at h
  cases hchange : d.change symbol ((s.entryIn? scope symbol).getD (.empty symbol)) with
  | error c => exact ⟨c, rfl⟩
  | ok e =>
    rw [hchange] at h
    cases h

theorem recordInPlace_of_error {s : Scopes} {scope : ScopeId} {symbol : Symbol} {d : Definition}
    {err : ScopeError} (h : s.record scope symbol d = .error err) :
    s.recordInPlace scope symbol d = (.error err, s) := by
  by_cases howns : s.Owns scope symbol
  · obtain ⟨c, hc⟩ := record_eq_error howns h
    obtain ⟨slot, d', hd'⟩ := Definition.exists_declared_of_error hc
    simp only [recordInPlace, define_ok_of_owns howns, opened_of_declared hd', h]
  · obtain ⟨err', hdefine⟩ := define_of_not_owns howns
    rw [record_eq, hdefine] at h
    cases h
    simp only [recordInPlace, hdefine]

theorem recordInPlace_of_ok {s s' : Scopes} {scope : ScopeId} {symbol : Symbol} {d : Definition}
    (h : s.record scope symbol d = .ok s') : s.recordInPlace scope symbol d = (.ok (), s') := by
  obtain ⟨owner, e, howner, hmodule, hne, -, -⟩ := define_eq_ok (record_eq s scope symbol d ▸ h)
  have howns : s.Owns scope symbol := ⟨owner, hne, howner, hmodule⟩
  simp only [recordInPlace, define_ok_of_owns howns, record_opened howns, h]

/-! ### Declarations stay -/

/-- What is declared for a symbol in one scope alone. -/
def declaredIn? (s : Scopes) (scope : ScopeId) (symbol : Symbol) (slot : Slot) : Option Definition :=
  (s.entryIn? scope symbol).bind (·.declared slot)

theorem Change.declaredIn? {s s' : Scopes} (h : s.Change s') {scope : ScopeId} {symbol : Symbol}
    {slot : Slot} {d : Definition} (hd : s.declaredIn? scope symbol slot = some d) :
    s'.declaredIn? scope symbol slot = some d := by
  obtain ⟨e, he, hdeclared⟩ := Option.bind_eq_some_iff.1 hd
  obtain ⟨f, hf, -⟩ := Option.bind_eq_some_iff.1 he
  have hlt := lt_of_frame? hf
  cases h with
  | keep store reserved => exact hd
  | openModule name imports hnew => rw [Scopes.declaredIn?, entryIn?_append rfl hlt]; exact hd
  | openScope scope' hscope' => rw [Scopes.declaredIn?, entryIn?_append rfl hlt]; exact hd
  | modifyBody id g hname himports => rw [Scopes.declaredIn?, entryIn?_modifyBody]; exact hd
  | define scope' symbol' owner d' e' hsymbol hscope hne hchange =>
    rw [Scopes.declaredIn?, entryIn?_insert]
    split
    · rename_i hsame
      obtain ⟨rfl, rfl⟩ := hsame
      rw [he, Option.getD_some] at hchange
      rw [hf]
      exact Definition.declared_of_change hdeclared hchange
    · exact hd

theorem LeadsTo.declaredIn? {s s' : Scopes} (h : s.LeadsTo s') {scope : ScopeId} {symbol : Symbol}
    {slot : Slot} {d : Definition} (hd : s.declaredIn? scope symbol slot = some d) :
    s'.declaredIn? scope symbol slot = some d := by
  induction h with
  | refl => exact hd
  | perform _ op hop ih => exact (change_perform _ hop).declaredIn? ih

/-- `s'` is `s` with the definition put into the entry of the symbol in one scope, and nothing else. -/
structure Records (s s' : Scopes) (scope : ScopeId) (symbol : Symbol) (d : Definition) : Prop where
  rest_eq : s' = { s with frames := s'.frames }
  other_frame : ∀ id ≠ scope, s'.frame? id = s.frame? id
  frame : ∃ f entries, s.frame? scope = some f ∧ s'.frame? scope = some { f with entries := entries } ∧
    (∀ other ≠ symbol, entries[other]? = f.entries[other]?) ∧
    entries[symbol]? = some (d.write symbol (f.entries[symbol]?.getD (.empty symbol)))
  declared : ∀ slot, d.slot? = some slot → s'.declaredIn? scope symbol slot = some d

theorem records_of_ok {s s' : Scopes} {scope : ScopeId} {symbol : Symbol} {d : Definition}
    (h : s.record scope symbol d = .ok s') : s.Records s' scope symbol d := by
  rw [record_eq] at h
  obtain ⟨owner, e, howner, hmodule, hne, hchange, rfl⟩ := define_eq_ok h
  obtain ⟨f, hf⟩ := exists_frame_of_moduleName? hmodule
  rw [entryIn?_of_frame? hf] at hchange
  obtain rfl := Definition.eq_write_of_change hchange
  have hframe := frame?_modifyFrame s scope scope fun f' => { f' with
    entries := f'.entries.insert symbol (d.write symbol (f.entries[symbol]?.getD (.empty symbol))) }
  rw [hf, Option.map_some, if_pos rfl] at hframe
  refine ⟨rfl, fun id hid => ?_, ⟨f, _, hf, hframe, fun other hother => ?_, ?_⟩, fun slot hslot => ?_⟩
  · rw [frame?_modifyFrame]
    simp only [hid.symm, if_false, Option.map_id']
  · rw [Std.ExtTreeMap.getElem?_insert, if_neg]
    exact fun hsame => hother (Std.LawfulEqOrd.eq_of_compare hsame).symm
  · rw [Std.ExtTreeMap.getElem?_insert_self]
  · rw [declaredIn?, entryIn?_insert, if_pos ⟨rfl, rfl⟩, hf, Option.map_some, Option.bind_some,
      Definition.declared_write, if_pos hslot]

namespace Formed

theorem owns_of_entryIn? {s : Scopes} (h : s.Formed) {scope : ScopeId} {symbol : Symbol} {e : Entry}
    (he : s.entryIn? scope symbol = some e) : s.Owns scope symbol ∧ e.symbol = symbol := by
  obtain ⟨f, hf, he⟩ := Option.bind_eq_some_iff.1 he
  obtain ⟨hsymbol, howned, -⟩ := h.filed hf he
  rw [← moduleName?_of_frame? hf] at howned
  exact ⟨howned, hsymbol⟩

/-- What is declared can be declared again, and anything else for the same slot is refused. -/
theorem record_of_declared {s : Scopes} (h : s.Formed) {scope : ScopeId} {symbol : Symbol} {slot : Slot}
    {d d' : Definition} (hd : s.declaredIn? scope symbol slot = some d) (hslot : d'.slot? = some slot) :
    d' = d ∧ s.record scope symbol d' = .ok s ∨
      d' ≠ d ∧ s.record scope symbol d' = .error (.conflict ⟨symbol, slot⟩) := by
  obtain ⟨e, he, hdeclared⟩ := Option.bind_eq_some_iff.1 hd
  obtain ⟨howns, hsymbol⟩ := h.owns_of_entryIn? he
  have hrecord := record_eq s scope symbol d' ▸ define_of_owns howns (d'.change symbol)
  rw [he, Option.getD_some] at hrecord
  rcases Definition.change_of_slot symbol e hslot with ⟨hsame, hok⟩ | ⟨d₀, hd₀, hne, herror⟩
  · obtain rfl := hsame d hdeclared
    refine .inl ⟨rfl, ?_⟩
    rw [hrecord, hok, Definition.write_of_declared symbol hdeclared]
    exact congrArg Except.ok (insert_of_entryIn? he)
  · obtain rfl : d₀ = d := Option.some.inj (hd₀.symm.trans hdeclared)
    refine .inr ⟨hne.symm, ?_⟩
    rw [hrecord, herror, hsymbol]
    rfl

end Formed

/-- A definition that fails leaves all scopes as they were, although its entry is created first, and one
that succeeds sets one part of one entry. What is declared once is declared in all later scopes: declaring
it again changes nothing, and nothing else can be declared in its place. -/
theorem record_atomic_and_declared_once {index : Index} {options : Options} {s : Scopes}
    (h : Reachable index options s) (scope : ScopeId) (symbol : Symbol) :
    (∀ d err, s.record scope symbol d = .error err →
      s.recordInPlace scope symbol d = (.error err, s)) ∧
    (∀ d s', s.record scope symbol d = .ok s' →
      s.recordInPlace scope symbol d = (.ok (), s') ∧ s.Records s' scope symbol d) ∧
    ∀ slot d s', s.declaredIn? scope symbol slot = some d → s.LeadsTo s' →
      s'.declaredIn? scope symbol slot = some d ∧
      s'.record scope symbol d = .ok s' ∧
      ∀ d', d'.slot? = some slot → d' ≠ d →
        s'.record scope symbol d' = .error (.conflict ⟨symbol, slot⟩) := by
  refine ⟨fun d err => recordInPlace_of_error, fun d s' hok => ⟨recordInPlace_of_ok hok, records_of_ok hok⟩,
    fun slot d s' hd hrun => ?_⟩
  have hd' := hrun.declaredIn? hd
  have hformed := (h.leadsTo hrun).formed
  refine ⟨hd', ?_, fun d' hslot hne => ?_⟩
  · obtain ⟨e, -, hdeclared⟩ := Option.bind_eq_some_iff.1 hd
    rcases hformed.record_of_declared hd' (Definition.slot?_of_declared hdeclared) with ⟨-, hok⟩ | ⟨hne, -⟩
    · exact hok
    · exact absurd rfl hne
  · rcases hformed.record_of_declared hd' hslot with ⟨rfl, -⟩ | ⟨-, herror⟩
    · exact absurd rfl hne
    · exact herror

/-- The operator `+` of `M` and another one under the same symbol in a body. The first can neither be
replaced from the module nor does the second get in its way. -/
theorem record_atomic_and_declared_once_operator :
    let plus := Symbol.qualified "M" "+"
    let left := Definition.operator ⟨.leftInfix, 7⟩
    let right := Definition.operator ⟨.rightInfix, 3⟩
    let s₀ := (new .empty .default).perform (.enterModule "M" [])
    let s := s₀.perform (.record 1 plus left)
    let s' := ((s.perform (.enterScope 1)).perform (.record 2 plus right)).perform
      (.record 1 plus (.value (.var (.ofName "t"))))
    Reachable .empty .default s ∧ s₀.Records s 1 plus left ∧
      s.declaredIn? 1 plus .operator = some left ∧ s.LeadsTo s' ∧
      s'.declaredIn? 2 plus .operator = some right ∧
      s'.declaredIn? 1 plus .operator = some left ∧ s'.record 1 plus left = .ok s' ∧
      s'.recordInPlace 1 plus right = (.error (.conflict ⟨plus, .operator⟩), s') := by
  have hs₀ : Reachable .empty .default ((new .empty .default).perform (.enterModule "M" [])) :=
    .perform .new _ nofun
  intro plus left right s₀ s s'
  have hs : Reachable .empty .default s := .perform hs₀ _ (by decide +kernel)
  have hdeclared : s.declaredIn? 1 plus .operator = some left := by decide +kernel
  have hrun : s.LeadsTo s' := by
    refine .perform (.perform (.perform .refl _ ?_) _ ?_) _ ?_ <;> decide +kernel
  have hkept := (record_atomic_and_declared_once hs 1 plus).2.2 .operator left s' hdeclared hrun
  have hrefused := hkept.2.2 right rfl (by decide +kernel)
  have hs' := hs.leadsTo hrun
  refine ⟨hs, ((record_atomic_and_declared_once hs₀ 1 plus).2.1 left s ?_).2, hdeclared, hrun, ?_, hkept.1,
    hkept.2.1, (record_atomic_and_declared_once hs' 1 plus).1 right _ hrefused⟩
  · rfl
  · decide +kernel

end Scopes

end TypeEngine
