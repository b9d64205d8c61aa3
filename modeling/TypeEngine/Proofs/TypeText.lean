import TypeEngine.Proofs.Freshness
import TypeEngine.Proofs.SymbolText
import TypeEngine.Ty.Names
import TypeEngine.Ty.Printer

/-! # Reading the text of a type

A text shows of a type its collapsed form with simple names (`Ty.visible`). If the names are words, and variables
and named types have different ones, it shows nothing less: a type can be read off the front of a text that goes
on with a closing parenthesis or ends there (`Ty.Unambiguous`). A type that is no function is written as a
sequence of operands, of which the first is the head (`Ty.phrase`), and each operand is a word or stands in
parentheses; so a blank tells only whether another operand follows or the arrow. -/

namespace TypeEngine

/-! ### Words -/

/-- The name is read as one piece: it is not empty, not the arrow, and has no blank and no parenthesis. -/
structure IsWord (name : String) : Prop where
  ne_empty : name ≠ ""
  ne_arrow : name ≠ "->"
  no_blank : ' ' ∉ name.toList
  no_opening : '(' ∉ name.toList
  no_closing : ')' ∉ name.toList

instance : DecidablePred IsWord := fun name =>
  decidable_of_iff (name ≠ "" ∧ name ≠ "->" ∧ ' ' ∉ name.toList ∧ '(' ∉ name.toList ∧ ')' ∉ name.toList)
    ⟨fun ⟨hempty, harrow, hblank, hopening, hclosing⟩ => ⟨hempty, harrow, hblank, hopening, hclosing⟩,
      fun h => ⟨h.ne_empty, h.ne_arrow, h.no_blank, h.no_opening, h.no_closing⟩⟩

def isWordChar (c : Char) : Bool := c != ' ' && c != '(' && c != ')'

/-- The text is empty, or a word before it ends there. -/
def Breaks (k : List Char) : Prop := ∀ c ∈ k.head?, isWordChar c = false

namespace IsWord

variable {x y : String} {k l : List Char}

theorem isWordChar (hx : IsWord x) : ∀ c ∈ x.toList, isWordChar c = true := by
  intro c hc
  have hblank : c ≠ ' ' := fun h => hx.no_blank (h ▸ hc)
  have hopening : c ≠ '(' := fun h => hx.no_opening (h ▸ hc)
  have hclosing : c ≠ ')' := fun h => hx.no_closing (h ▸ hc)
  simp [TypeEngine.isWordChar, hblank, hopening, hclosing]

theorem append_inj (hx : IsWord x) (hy : IsWord y) (hk : Breaks k) (hl : Breaks l)
    (h : x.toList ++ k = y.toList ++ l) : x = y ∧ k = l := by
  obtain ⟨hxy, hkl⟩ := append_inj_of_run hx.isWordChar hy.isWordChar hk hl h
  exact ⟨String.toList_inj.1 hxy, hkl⟩

theorem append_ne_opening (hx : IsWord x) : x.toList ++ k ≠ '(' :: l := by
  intro h
  cases hchars : x.toList with
  | nil => exact hx.ne_empty (String.toList_eq_nil_iff.1 hchars)
  | cons c cs =>
    rw [hchars, List.cons_append, List.cons.injEq] at h
    exact hx.no_opening (by simp [hchars, h.1])

end IsWord

/-- Words for variables and words for named types, told apart. -/
structure Vocabulary where
  forVariable : String → Prop
  forType : String → Prop
  isWord_of_forVariable : ∀ {x}, forVariable x → IsWord x
  isWord_of_forType : ∀ {x}, forType x → IsWord x
  disjoint : ∀ {x}, forVariable x → ¬ forType x

def Vocabulary.ofNames (variableNames typeNames : List String) (hwords : ∀ x ∈ variableNames ++ typeNames, IsWord x)
    (hapart : ∀ x ∈ variableNames, x ∉ typeNames) : Vocabulary where
  forVariable x := x ∈ variableNames
  forType x := x ∈ typeNames
  isWord_of_forVariable hx := hwords _ (List.mem_append_left _ hx)
  isWord_of_forType hx := hwords _ (List.mem_append_right _ hx)
  disjoint hx := hapart _ hx

namespace Ty

/-- The type is without demands, and its names are in the vocabulary. -/
def WrittenIn (t : Ty) (voc : Vocabulary) : Prop :=
  (∀ v ∈ t.vars, v.context = ∅ ∧ voc.forVariable v.name) ∧ ∀ s ∈ t.symbols, voc.forType s.simpleName

section

variable {voc : Vocabulary}

theorem writtenIn_fn {a r : Ty} : (fn a r).WrittenIn voc ↔ a.WrittenIn voc ∧ r.WrittenIn voc := by
  simp only [WrittenIn, vars, symbols, List.forall_mem_append]
  exact and_and_and_comm

theorem writtenIn_app {h a : Ty} : (app h a).WrittenIn voc ↔ h.WrittenIn voc ∧ a.WrittenIn voc := by
  simp only [WrittenIn, vars, symbols, List.forall_mem_append]
  exact and_and_and_comm

theorem writtenIn_sum {s : Symbol} {ts : List Ty} :
    (sum s ts).WrittenIn voc ↔ voc.forType s.simpleName ∧ ∀ t ∈ ts, t.WrittenIn voc := by
  simp only [WrittenIn, vars, varsAll_eq, symbols, symbolsAll_eq, List.forall_mem_cons, List.forall_mem_flatMap,
    forall₂_and]
  exact and_left_comm

end

/-! ### What a text shows -/

/-- The collapsed type with simple names. -/
def visible (t : Ty) : Ty := t.flatten.mapSymbols Symbol.unqualify

theorem mapSymbols_apply (f : Symbol → Symbol) (h a : Ty) :
    (h.apply a).mapSymbols f = (h.mapSymbols f).apply (a.mapSymbols f) := by
  cases h <;> simp [apply, mapSymbols]

theorem visible_fn (a r : Ty) : (fn a r).visible = .fn a.visible r.visible := by
  simp [visible, flatten, subst, mapSymbols]

theorem visible_sum (s : Symbol) (ts : List Ty) : (sum s ts).visible = .sum s.unqualify (ts.map visible) := by
  simp [visible, flatten, subst, mapSymbols]

theorem visible_app (h a : Ty) : (app h a).visible = h.visible.apply a.visible := by
  simp [visible, flatten, subst, mapSymbols_apply]

/-! ### Operands -/

def operandChars (t : Ty) : List Char := (parenthesize t.isCompound t.bareText).toList

/-- The text of a type as the argument of a function or the head of an application. -/
def groupChars (t : Ty) : List Char := (parenthesize t.isFn t.bareText).toList

theorem toList_parenthesize_true (text : String) :
    (parenthesize true text).toList = '(' :: (text.toList ++ [')']) := by
  simp [parenthesize]

theorem operandChars_of_compound {t : Ty} (h : t.isCompound = true) :
    t.operandChars = '(' :: (t.bareText.toList ++ [')']) := by
  rw [operandChars, h, toList_parenthesize_true]

theorem toList_operandTexts (ts : List Ty) :
    (operandTexts ts).toList = ts.flatMap fun t => ' ' :: t.operandChars := by
  induction ts with
  | nil => simp [operandTexts]
  | cons t ts ih => simp [operandTexts, operandChars, ih]

/-- What stands first in the text of a type, and the operands after it. -/
def phrase : Ty → Ty × List Ty
  | .app h a => (h.phrase.1, h.phrase.2 ++ [a])
  | .sum s ts => (.sum s [], ts)
  | .var v => (.var v, [])
  | .fn a r => (.fn a r, [])

theorem groupChars_eq (t : Ty) :
    t.groupChars = t.phrase.1.operandChars ++ t.phrase.2.flatMap fun a => ' ' :: a.operandChars := by
  induction t with
  | var v => simp [groupChars, operandChars, phrase, isFn, isCompound]
  | fn a r => simp [groupChars, operandChars, phrase, isFn, isCompound]
  | sum s ts =>
    simp [groupChars, operandChars, phrase, isFn, isCompound, parenthesize, bareText, toList_operandTexts,
      operandTexts]
  | app h a ihh =>
    have happ : (app h a).groupChars = h.groupChars ++ ' ' :: a.operandChars := by
      simp [groupChars, operandChars, isFn, parenthesize, bareText]
    rw [happ, ihh, phrase]
    simp

theorem foldl_apply_sum (s : Symbol) (ts us : List Ty) : us.foldl apply (.sum s ts) = .sum s (ts ++ us) := by
  induction us generalizing ts with
  | nil => simp
  | cons u us ih => rw [List.foldl_cons, apply, ih, List.append_assoc, List.singleton_append]

theorem visible_eq_foldl (t : Ty) : t.visible = (t.phrase.2.map visible).foldl apply t.phrase.1.visible := by
  induction t with
  | var v => rfl
  | fn a r => rfl
  | sum s ts => rw [phrase, visible_sum, visible_sum, List.map_nil, foldl_apply_sum, List.nil_append]
  | app h a ihh =>
    rw [phrase, visible_app, List.map_append, List.foldl_append, ← ihh]
    rfl

/-! ### Where a text goes on -/

/-- The text is empty or goes on with a closing parenthesis, so a type before it is complete. -/
def Closes (k : List Char) : Prop := k = [] ∨ ∃ l, k = ')' :: l

/-- The text closes what is before it, or goes on with the arrow, so there are no further operands. -/
def EndsGroup (k : List Char) : Prop := Closes k ∨ ∃ l, k = ' ' :: '-' :: '>' :: ' ' :: l

theorem not_closes_blank (l : List Char) : ¬ Closes (' ' :: l) := by
  rintro (h | ⟨r, h⟩) <;> simp at h

theorem EndsGroup.breaks {k : List Char} (hk : EndsGroup k) : Breaks k := by
  rcases hk with (rfl | ⟨l, rfl⟩) | ⟨l, rfl⟩ <;> rintro c ⟨⟩ <;> rfl

theorem breaks_operands (ts : List Ty) {k : List Char} (hk : EndsGroup k) :
    Breaks ((ts.flatMap fun t => ' ' :: t.operandChars) ++ k) := by
  cases ts with
  | nil => exact hk.breaks
  | cons t ts => rintro c ⟨⟩; rfl

/-- The type can be read off the front of a text that closes it: only types that show the same have its text. -/
def Unambiguous (t : Ty) (voc : Vocabulary) : Prop :=
  ∀ ⦃u : Ty⦄ ⦃k l : List Char⦄, u.WrittenIn voc → Closes k → Closes l →
    t.bareText.toList ++ k = u.bareText.toList ++ l → t.visible = u.visible ∧ k = l

/-- The type is written as the word `x`. -/
inductive Atom (voc : Vocabulary) : Ty → String → Prop
  | var {v : TyVar} (hcontext : v.context = ∅) (hx : voc.forVariable v.name) : Atom voc (.var v) v.name
  | sum {s : Symbol} (hx : voc.forType s.simpleName) : Atom voc (.sum s []) s.simpleName

section

variable {voc : Vocabulary} {t u : Ty} {k l : List Char}

theorem WrittenIn.atom (ht : t.WrittenIn voc) (h : t.isCompound = false) : ∃ x, Atom voc t x := by
  cases t with
  | var v =>
    obtain ⟨hcontext, hx⟩ := ht.1 v List.mem_cons_self
    exact ⟨_, .var hcontext hx⟩
  | sum s ts =>
    cases ts with
    | nil => exact ⟨_, .sum (writtenIn_sum.1 ht).1⟩
    | cons t ts => cases h
  | fn a r => cases h
  | app h' a => cases h

namespace Atom

variable {x y : String}

theorem isWord (ht : Atom voc t x) : IsWord x := by
  cases ht with
  | var _ hx => exact voc.isWord_of_forVariable hx
  | sum hx => exact voc.isWord_of_forType hx

theorem operandChars_eq (ht : Atom voc t x) : t.operandChars = x.toList := by
  cases ht with
  | var => rfl
  | sum => simp [operandChars, isCompound, parenthesize, bareText, operandTexts]

theorem visible_eq (ht : Atom voc t x) (hu : Atom voc u y) (hxy : x = y) : t.visible = u.visible := by
  cases ht with
  | @var v hv hx =>
    cases hu with
    | @var w hw hy =>
      have hsame : v = w := by
        obtain ⟨name, context⟩ := v
        obtain ⟨name', context'⟩ := w
        cases hxy
        cases hv
        cases hw
        rfl
      rw [hsame]
    | sum hy => exact absurd (hxy ▸ hy) (voc.disjoint hx)
  | @sum s hx =>
    cases hu with
    | var _ hy => exact absurd (hxy ▸ hx) (voc.disjoint hy)
    | @sum s' hy => rw [visible_sum, visible_sum, Symbol.unqualify, Symbol.unqualify, hxy]

end Atom

theorem operand_inj (ht : t.WrittenIn voc) (hu : u.WrittenIn voc)
    (hread : t.isCompound = true → t.Unambiguous voc) (hk : Breaks k) (hl : Breaks l)
    (h : t.operandChars ++ k = u.operandChars ++ l) : t.visible = u.visible ∧ k = l := by
  cases htc : t.isCompound with
  | false =>
    obtain ⟨x, hx⟩ := ht.atom htc
    rw [hx.operandChars_eq] at h
    cases huc : u.isCompound with
    | false =>
      obtain ⟨y, hy⟩ := hu.atom huc
      rw [hy.operandChars_eq] at h
      obtain ⟨hxy, hkl⟩ := hx.isWord.append_inj hy.isWord hk hl h
      exact ⟨hx.visible_eq hy hxy, hkl⟩
    | true =>
      rw [operandChars_of_compound huc] at h
      exact absurd h hx.isWord.append_ne_opening
  | true =>
    rw [operandChars_of_compound htc] at h
    cases huc : u.isCompound with
    | false =>
      obtain ⟨y, hy⟩ := hu.atom huc
      rw [hy.operandChars_eq] at h
      exact absurd h.symm hy.isWord.append_ne_opening
    | true =>
      rw [operandChars_of_compound huc, List.cons_append, List.cons_append, List.append_assoc,
        List.append_assoc] at h
      obtain ⟨hvisible, hrest⟩ := hread htc hu (.inr ⟨k, rfl⟩) (.inr ⟨l, rfl⟩) (List.cons.inj h).2
      exact ⟨hvisible, (List.cons.inj hrest).2⟩

/-- After a blank stands an operand or the arrow, and these can be told apart. -/
theorem WrittenIn.not_endsGroup (hu : u.WrittenIn voc) (hl : Breaks l) :
    ¬ EndsGroup (' ' :: (u.operandChars ++ l)) := by
  rintro (hcloses | ⟨r, h⟩)
  · exact not_closes_blank _ hcloses
  · have hnext : u.operandChars ++ l = "->".toList ++ ' ' :: r := (List.cons.inj h).2
    cases huc : u.isCompound with
    | false =>
      obtain ⟨x, hx⟩ := hu.atom huc
      rw [hx.operandChars_eq] at hnext
      have harrow : ∀ c ∈ "->".toList, isWordChar c = true := List.all_eq_true.1 (by decide)
      have hblank : Breaks (' ' :: r) := by rintro c ⟨⟩; rfl
      obtain ⟨hname, -⟩ := append_inj_of_run hx.isWord.isWordChar harrow hl hblank hnext
      exact hx.isWord.ne_arrow (String.toList_inj.1 hname)
    | true =>
      rw [operandChars_of_compound huc] at hnext
      simp at hnext

theorem operands_inj {ts us : List Ty} (hts : ∀ t ∈ ts, t.WrittenIn voc) (hus : ∀ u ∈ us, u.WrittenIn voc)
    (hread : ∀ t ∈ ts, t.isCompound = true → t.Unambiguous voc) (hk : EndsGroup k) (hl : EndsGroup l)
    (h : (ts.flatMap fun t => ' ' :: t.operandChars) ++ k = (us.flatMap fun u => ' ' :: u.operandChars) ++ l) :
    ts.map visible = us.map visible ∧ k = l := by
  induction ts generalizing us with
  | nil =>
    cases us with
    | nil => exact ⟨rfl, h⟩
    | cons u us =>
      rw [List.flatMap_cons, List.append_assoc, List.cons_append] at h
      exact absurd (h ▸ hk) ((hus u List.mem_cons_self).not_endsGroup (breaks_operands us hl))
  | cons t ts ih =>
    rw [List.forall_mem_cons] at hts hread
    cases us with
    | nil =>
      rw [List.flatMap_cons, List.append_assoc, List.cons_append] at h
      exact absurd (h ▸ hl) (hts.1.not_endsGroup (breaks_operands ts hk))
    | cons u us =>
      rw [List.forall_mem_cons] at hus
      rw [List.flatMap_cons, List.flatMap_cons, List.append_assoc, List.append_assoc, List.cons_append,
        List.cons_append] at h
      obtain ⟨hhead, hrest⟩ := operand_inj hts.1 hus.1 hread.1 (breaks_operands ts hk) (breaks_operands us hl)
        (List.cons.inj h).2
      obtain ⟨htail, hkl⟩ := ih hts.2 hus.2 hread.2 hrest
      exact ⟨by rw [List.map_cons, List.map_cons, hhead, htail], hkl⟩

theorem WrittenIn.phrase (ht : t.WrittenIn voc) :
    t.phrase.1.WrittenIn voc ∧ ∀ a ∈ t.phrase.2, a.WrittenIn voc := by
  induction t with
  | var v => exact ⟨ht, nofun⟩
  | fn a r => exact ⟨ht, nofun⟩
  | sum s ts =>
    obtain ⟨hs, hts⟩ := writtenIn_sum.1 ht
    exact ⟨writtenIn_sum.2 ⟨hs, nofun⟩, hts⟩
  | app h a ihh =>
    obtain ⟨hh, ha⟩ := writtenIn_app.1 ht
    obtain ⟨hhead, hargs⟩ := ihh hh
    exact ⟨hhead, List.forall_mem_append.2 ⟨hargs, List.forall_mem_singleton.2 ha⟩⟩

/-- What a type is written with can be read off the front of a text, as far as it stands in parentheses. -/
def PartsUnambiguous (t : Ty) (voc : Vocabulary) : Prop :=
  ∀ a ∈ t.phrase.1 :: t.phrase.2, a.isCompound = true → a.Unambiguous voc

theorem group_inj (ht : t.WrittenIn voc) (hu : u.WrittenIn voc) (hread : t.PartsUnambiguous voc)
    (hk : EndsGroup k) (hl : EndsGroup l) (h : t.groupChars ++ k = u.groupChars ++ l) :
    t.visible = u.visible ∧ k = l := by
  obtain ⟨hhead, hargs⟩ := List.forall_mem_cons.1 hread
  rw [groupChars_eq, groupChars_eq, List.append_assoc, List.append_assoc] at h
  obtain ⟨hfirst, hrest⟩ := operand_inj ht.phrase.1 hu.phrase.1 hhead (breaks_operands _ hk)
    (breaks_operands _ hl) h
  obtain ⟨hothers, hkl⟩ := operands_inj ht.phrase.2 hu.phrase.2 hargs hk hl hrest
  exact ⟨by rw [visible_eq_foldl t, visible_eq_foldl u, hfirst, hothers], hkl⟩

/-! ### Whole types -/

theorem toList_bareText_fn (a r : Ty) :
    (fn a r).bareText.toList = a.groupChars ++ ' ' :: '-' :: '>' :: ' ' :: r.bareText.toList := by
  simp [bareText, groupChars]

/-- Only the text of a function is not in parentheses as it is in argument position. -/
theorem fn_or_group (t : Ty) : (∃ a r, t = .fn a r) ∨ t.bareText.toList = t.groupChars := by
  cases t with
  | fn a r => exact .inl ⟨a, r, rfl⟩
  | _ => exact .inr rfl

theorem unambiguous_of_group (ht : t.WrittenIn voc) (hgroup : t.bareText.toList = t.groupChars)
    (hread : t.PartsUnambiguous voc) : t.Unambiguous voc := by
  intro u k l hu hk hl h
  rw [hgroup] at h
  obtain ⟨b, q, rfl⟩ | hgroup' := u.fn_or_group
  · rw [toList_bareText_fn, List.append_assoc] at h
    obtain ⟨-, harrow⟩ := group_inj ht (writtenIn_fn.1 hu).1 hread (.inl hk) (.inr ⟨_, rfl⟩) h
    exact absurd (harrow ▸ hk) (not_closes_blank _)
  · rw [hgroup'] at h
    exact group_inj ht hu hread (.inl hk) (.inl hl) h

theorem unambiguous_fn {a r : Ty} (ha : a.WrittenIn voc) (hread : a.PartsUnambiguous voc)
    (hr : r.Unambiguous voc) : (fn a r).Unambiguous voc := by
  intro u k l hu hk hl h
  rw [toList_bareText_fn, List.append_assoc] at h
  obtain ⟨b, q, rfl⟩ | hgroup := u.fn_or_group
  · obtain ⟨hb, hq⟩ := writtenIn_fn.1 hu
    rw [toList_bareText_fn, List.append_assoc] at h
    obtain ⟨hargument, hrest⟩ := group_inj ha hb hread (.inr ⟨_, rfl⟩) (.inr ⟨_, rfl⟩) h
    obtain ⟨hresult, hkl⟩ := hr hq hk hl (by simpa using hrest)
    exact ⟨by rw [visible_fn, visible_fn, hargument, hresult], hkl⟩
  · rw [hgroup] at h
    obtain ⟨-, harrow⟩ := group_inj ha hu hread (.inr ⟨_, rfl⟩) (.inl hl) h
    exact absurd (harrow ▸ hl) (not_closes_blank _)

/-- The parts are carried along, since an application is written with the parts of its head. -/
theorem WrittenIn.unambiguous (ht : t.WrittenIn voc) : t.Unambiguous voc ∧ t.PartsUnambiguous voc := by
  induction t with
  | var v =>
    have hparts : (Ty.var v).PartsUnambiguous voc := List.forall_mem_singleton.2 nofun
    exact ⟨unambiguous_of_group ht rfl hparts, hparts⟩
  | fn a r iha ihr =>
    obtain ⟨ha, hr⟩ := writtenIn_fn.1 ht
    have hfn : (Ty.fn a r).Unambiguous voc := unambiguous_fn ha (iha ha).2 (ihr hr).1
    exact ⟨hfn, List.forall_mem_singleton.2 fun _ => hfn⟩
  | sum s ts ih =>
    have hts := (writtenIn_sum.1 ht).2
    have hparts : (Ty.sum s ts).PartsUnambiguous voc :=
      List.forall_mem_cons.2 ⟨nofun, fun a ha _ => (ih a ha (hts a ha)).1⟩
    exact ⟨unambiguous_of_group ht rfl hparts, hparts⟩
  | app h a ihh iha =>
    obtain ⟨hh, ha⟩ := writtenIn_app.1 ht
    have hparts : (Ty.app h a).PartsUnambiguous voc := by
      obtain ⟨hhead, hargs⟩ := List.forall_mem_cons.1 (ihh hh).2
      exact List.forall_mem_cons.2
        ⟨hhead, List.forall_mem_append.2 ⟨hargs, List.forall_mem_singleton.2 fun _ => (iha ha).1⟩⟩
    exact ⟨unambiguous_of_group ht rfl hparts, hparts⟩

end

/-! ### The same text -/

theorem operandTexts_append (ts us : List Ty) : operandTexts (ts ++ us) = operandTexts ts ++ operandTexts us := by
  induction ts with
  | nil => simp [operandTexts]
  | cons t ts ih => simp [operandTexts, ih, String.append_assoc]

theorem bareText_apply (h a : Ty) : (h.apply a).bareText = (app h a).bareText := by
  cases h with
  | sum s ts => simp [apply, bareText, operandTexts_append, operandTexts, isFn, parenthesize, String.append_assoc]
  | _ => rfl

theorem isFn_visible (t : Ty) : t.visible.isFn = t.isFn := by
  cases t with
  | var v => rfl
  | fn a r => rfl
  | sum s ts => rfl
  | app h a =>
    rw [visible_app]
    cases h.visible <;> rfl

theorem isCompound_visible (t : Ty) : t.visible.isCompound = t.isCompound := by
  cases t with
  | var v => rfl
  | fn a r => rfl
  | sum s ts => simp [visible_sum, isCompound]
  | app h a =>
    rw [visible_app]
    cases h.visible <;> simp [apply, isCompound]

/-- A text shows nothing but the visible form. -/
theorem bareText_visible (t : Ty) : t.visible.bareText = t.bareText := by
  induction t with
  | var v => rfl
  | fn a r iha ihr => rw [visible_fn, bareText, bareText, isFn_visible, iha, ihr]
  | sum s ts ih =>
    have hoperands : operandTexts (ts.map visible) = operandTexts ts := by
      induction ts with
      | nil => rfl
      | cons t ts ihts =>
        obtain ⟨ht, hts⟩ := List.forall_mem_cons.1 ih
        rw [List.map_cons, operandTexts, operandTexts, isCompound_visible, ht, ihts hts]
    rw [visible_sum, bareText, bareText, hoperands, Symbol.simpleName_unqualify]
  | app h a ihh iha =>
    rw [visible_app, bareText_apply, bareText, bareText, isFn_visible, ihh, isCompound_visible, iha]

theorem text_of_no_context {t : Ty} (h : ∀ v ∈ t.vars, v.context = ∅) : t.text = t.bareText := by
  have hdemands : t.demands = [] := by
    refine List.flatMap_eq_nil_iff.2 fun v hv => ?_
    rw [h v ((TyVar.firstOfEachName_sublist t.vars).subset hv)]
    rfl
  rw [text, demandText, hdemands]
  simp

/-- Let two types have no demands, and let their names be words, those of variables different from those of named
types. They have the same text exactly if their collapsed forms are the same up to the owners of named types.
Without demands, the symbols of a type are its named types. -/
theorem text_eq_iff_visible {t u : Ty} (hcontext : ∀ v ∈ t.vars ++ u.vars, v.context = ∅)
    (hwords : ∀ x ∈ (t.names ++ u.names) ++ (t.symbols ++ u.symbols).map Symbol.simpleName, IsWord x)
    (hapart : ∀ x ∈ t.names ++ u.names, x ∉ (t.symbols ++ u.symbols).map Symbol.simpleName) :
    t.text = u.text ↔ t.flatten.mapSymbols Symbol.unqualify = u.flatten.mapSymbols Symbol.unqualify := by
  obtain ⟨htcontext, hucontext⟩ := List.forall_mem_append.1 hcontext
  rw [text_of_no_context htcontext, text_of_no_context hucontext]
  constructor
  · intro h
    let voc := Vocabulary.ofNames (t.names ++ u.names) ((t.symbols ++ u.symbols).map Symbol.simpleName) hwords hapart
    have ht : t.WrittenIn voc :=
      ⟨fun v hv => ⟨htcontext v hv, List.mem_append_left _ (mem_names.2 ⟨v, hv, rfl⟩)⟩,
        fun s hs => List.mem_map_of_mem (List.mem_append_left _ hs)⟩
    have hu : u.WrittenIn voc :=
      ⟨fun v hv => ⟨hucontext v hv, List.mem_append_right _ (mem_names.2 ⟨v, hv, rfl⟩)⟩,
        fun s hs => List.mem_map_of_mem (List.mem_append_right _ hs)⟩
    exact (ht.unambiguous.1 hu (.inl rfl) (.inl rfl) (by rw [h])).1
  · intro h
    rw [← t.bareText_visible, ← u.bareText_visible, visible, visible, h]

/-- Different types with one text: `Maybe` is applied, or has its parameter, and its module is not shown. -/
theorem text_eq_iff_visible_maybe :
    let a := Ty.var (.ofName "a")
    let b := Ty.var (.ofName "b")
    let t := Ty.fn (.app (.sum (.qualified "m" "Maybe") []) (.fn a b)) (.app (.fn a b) (.fn a b))
    let u := Ty.fn (.sum (.unqualified "Maybe") [.fn a b]) (.app (.fn a b) (.fn a b))
    let heads := (t.symbols ++ u.symbols).map Symbol.simpleName
    t ≠ u ∧ (∀ v ∈ t.vars ++ u.vars, v.context = ∅) ∧ (∀ x ∈ (t.names ++ u.names) ++ heads, IsWord x) ∧
      (∀ x ∈ t.names ++ u.names, x ∉ heads) ∧ t.text = "Maybe (a -> b) -> (a -> b) (a -> b)" ∧ t.text = u.text ∧
      t.flatten.mapSymbols Symbol.unqualify = u.flatten.mapSymbols Symbol.unqualify := by
  intro a b t u heads
  have hcontext : ∀ v ∈ t.vars ++ u.vars, v.context = ∅ := by decide +kernel
  have hwords : ∀ x ∈ (t.names ++ u.names) ++ heads, IsWord x := by decide +kernel
  have hapart : ∀ x ∈ t.names ++ u.names, x ∉ heads := by decide +kernel
  have hsame : t.text = u.text := by decide +kernel
  exact ⟨by decide, hcontext, hwords, hapart, by decide +kernel, hsame,
    (text_eq_iff_visible hcontext hwords hapart).1 hsame⟩

end Ty

end TypeEngine
