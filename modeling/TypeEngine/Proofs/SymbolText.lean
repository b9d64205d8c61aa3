import TypeEngine.Getter

/-! # Texts of symbols

A symbol has a dotted text, and names for the virtual machine. Dotted text is read back as it was written
(`Symbol.parse_eq_qualified_iff` says what is read as a symbol with an owner). Spelled names are concatenations of
codewords none of which begins another (`eq_of_mangleChar_prefix`), so a spelled name comes from one name only.
Both rest on where a text can be cut: a run of characters ends where the first other character stands. -/

namespace TypeEngine

/-! ### Cutting a text -/

theorem takeWhile_eq_nil_of_head? {p : Char → Bool} {k : List Char} (h : ∀ c ∈ k.head?, p c = false) :
    k.takeWhile p = [] := by
  cases k with
  | nil => rfl
  | cons c k => exact List.takeWhile_cons_of_neg (by simp [h c rfl])

/-- Two texts that begin with a run of characters are equal only if the runs are, and what follows them. -/
theorem append_inj_of_run {p : Char → Bool} {xs ys k l : List Char} (hx : ∀ c ∈ xs, p c = true)
    (hy : ∀ c ∈ ys, p c = true) (hk : ∀ c ∈ k.head?, p c = false) (hl : ∀ c ∈ l.head?, p c = false)
    (h : xs ++ k = ys ++ l) : xs = ys ∧ k = l := by
  have hrun : xs = ys := by
    have hcut := congrArg (List.takeWhile p) h
    rwa [List.takeWhile_append_of_pos hx, List.takeWhile_append_of_pos hy, takeWhile_eq_nil_of_head? hk,
      takeWhile_eq_nil_of_head? hl, List.append_nil, List.append_nil] at hcut
  subst hrun
  exact ⟨rfl, List.append_cancel_left h⟩

/-- The same at the end of two texts. -/
theorem append_inj_of_last_run {p : Char → Bool} {k l xs ys : List Char} (hx : ∀ c ∈ xs, p c = true)
    (hy : ∀ c ∈ ys, p c = true) (hk : ∀ c ∈ k.getLast?, p c = false) (hl : ∀ c ∈ l.getLast?, p c = false)
    (h : k ++ xs = l ++ ys) : k = l ∧ xs = ys := by
  have hback := congrArg List.reverse h
  rw [List.reverse_append, List.reverse_append] at hback
  rw [← List.head?_reverse] at hk hl
  obtain ⟨hxs, hks⟩ := append_inj_of_run (fun c hc => hx c (List.mem_reverse.1 hc))
    (fun c hc => hy c (List.mem_reverse.1 hc)) hk hl hback
  exact ⟨List.reverse_inj.1 hks, List.reverse_inj.1 hxs⟩

/-- The text after the last separator, and the text before it. -/
theorem append_cons_inj_of_last {sep : Char} {k l xs ys : List Char} (hx : sep ∉ xs) (hy : sep ∉ ys)
    (h : k ++ sep :: xs = l ++ sep :: ys) : k = l ∧ xs = ys := by
  rw [List.append_cons k, List.append_cons l] at h
  have hrun : ∀ {zs : List Char}, sep ∉ zs → ∀ c ∈ zs, (c != sep) = true := by
    intro zs hz c hc
    exact bne_iff_ne.2 fun hsame => hz (hsame ▸ hc)
  obtain ⟨hkl, hxy⟩ := append_inj_of_last_run (hrun hx) (hrun hy) (by simp) (by simp) h
  exact ⟨List.append_cancel_right hkl, hxy⟩

namespace Symbol

/-! ### Dotted text -/

theorem splitAtLastDot_append {before after : List Char} (h : '.' ∉ after) :
    splitAtLastDot (before ++ '.' :: after) = some (before, after) := by
  cases hsplit : splitAtLastDot (before ++ '.' :: after) with
  | none => exact absurd hsplit (splitAtLastDot_ne_none (by simp))
  | some sides =>
    obtain ⟨htext, hafter⟩ := splitAtLastDot_eq_some hsplit
    obtain ⟨hbefore, hafter⟩ := append_cons_inj_of_last h hafter htext
    rw [hbefore, hafter]

theorem eq_append_dot {t : String} {before after : List Char} (h : t.toList = before ++ '.' :: after) :
    t = String.ofList before ++ "." ++ String.ofList after := by
  rw [← String.toList_inj, h]
  simp

theorem parse_dot {owner : String} (h : owner ≠ "") : parse (owner ++ "." ++ ".") = .qualified owner "." := by
  have hsplit : splitAtLastDot (owner ++ "." ++ ".").toList = some (owner.toList ++ ['.'], []) := by
    rw [String.toList_append, String.toList_append]
    exact splitAtLastDot_append List.not_mem_nil
  rw [parse, hsplit]
  simp [h]

theorem parse_name {owner name : String} (howner : owner ≠ "") (hname : name ≠ "") (hdot : '.' ∉ name.toList) :
    parse (owner ++ "." ++ name) = .qualified owner name := by
  have hsplit : splitAtLastDot (owner ++ "." ++ name).toList = some (owner.toList, name.toList) := by
    rw [String.toList_append, String.toList_append, List.append_assoc]
    exact splitAtLastDot_append hdot
  rw [parse, hsplit]
  cases hchars : name.toList with
  | nil => exact absurd (String.toList_eq_nil_iff.1 hchars) hname
  | cons c cs => simp [howner, ← hchars]

/-- A text is a name without an owner, or it is put together from what it is read as. -/
theorem parse_cases (t : String) :
    parse t = .unqualified t ∨
      ∃ owner name, parse t = .qualified owner name ∧ t = owner ++ "." ++ name ∧ owner ≠ "" ∧
        (name = "." ∨ name ≠ "" ∧ '.' ∉ name.toList) := by
  unfold parse
  split
  · exact .inl rfl
  · rename_i before hsplit
    obtain ⟨htext, -⟩ := splitAtLastDot_eq_some hsplit
    split
    · rename_i hdots
      obtain ⟨hlast, howner⟩ := hdots
      obtain ⟨owner, rfl⟩ := List.getLast?_eq_some_iff.1 hlast
      rw [List.dropLast_concat] at howner ⊢
      rw [List.append_assoc] at htext
      exact .inr ⟨_, _, rfl, eq_append_dot htext, mt String.ofList_eq_empty_iff.1 howner, .inl rfl⟩
    · exact .inl rfl
  · rename_i before after hafter hsplit
    obtain ⟨htext, hdot⟩ := splitAtLastDot_eq_some hsplit
    split
    · exact .inl rfl
    · rename_i howner
      have hname : String.ofList after ≠ "" := mt String.ofList_eq_empty_iff.1 hafter
      rw [← String.toList_ofList (l := after)] at hdot
      exact .inr ⟨_, _, rfl, eq_append_dot htext, mt String.ofList_eq_empty_iff.1 howner, .inr ⟨hname, hdot⟩⟩

/-- What is read as a symbol with an owner. -/
theorem parse_eq_qualified_iff {t owner name : String} :
    parse t = .qualified owner name ↔
      t = owner ++ "." ++ name ∧ owner ≠ "" ∧ (name = "." ∨ name ≠ "" ∧ '.' ∉ name.toList) := by
  constructor
  · intro h
    rcases parse_cases t with hplain | ⟨owner', name', hread, hparts⟩
    · rw [hplain] at h
      cases h
    · rw [hread] at h
      cases h
      exact hparts
  · rintro ⟨rfl, howner, rfl | ⟨hname, hdot⟩⟩
    · exact parse_dot howner
    · exact parse_name howner hname hdot

@[simp] theorem text_parse (t : String) : (parse t).text = t := by
  rcases parse_cases t with hplain | ⟨owner, name, hread, htext, -⟩
  · rw [hplain, text]
  · rw [hread, text, htext]

/-- Text is the text of what it is read as. A symbol with an owner is what its text is read as exactly if the
owner is not empty, and the name is the dot or a text without dots that is not empty. -/
theorem parse_inverts_text :
    (∀ t, (parse t).text = t) ∧
      ∀ owner name, parse (qualified owner name).text = .qualified owner name ↔
        owner ≠ "" ∧ (name = "." ∨ name ≠ "" ∧ '.' ∉ name.toList) := by
  refine ⟨text_parse, fun owner name => ?_⟩
  rw [text, parse_eq_qualified_iff, eq_self, true_and]

end Symbol

/-! ### Codewords -/

theorem flatMap_inj_of_prefixFree {α β : Type} {f : α → List β} (hne : ∀ c, f c ≠ [])
    (hfree : ∀ {c d}, f c <+: f d → c = d) {cs ds : List α} (h : cs.flatMap f = ds.flatMap f) : cs = ds := by
  induction cs generalizing ds with
  | nil =>
    cases ds with
    | nil => rfl
    | cons d ds => simp [hne d] at h
  | cons c cs ih =>
    cases ds with
    | nil => simp [hne c] at h
    | cons d ds =>
      rw [List.flatMap_cons, List.flatMap_cons] at h
      have hcd : c = d := by
        have hd : f d <+: f c ++ cs.flatMap f := h ▸ List.prefix_append _ _
        rcases List.prefix_or_prefix_of_prefix (List.prefix_append _ _) hd with hp | hp
        · exact hfree hp
        · exact (hfree hp).symm
      subst hcd
      rw [ih (List.append_cancel_left h)]

/-- The characters that are spelled out. -/
def spelledChars : List Char := "+-*/=<>!?.:&|#%^~@\\$".toList

theorem spelling_eq_none {c : Char} (h : c ∉ spelledChars) : spelling c = none := by
  unfold spelling
  split
  case h_21 => rfl
  all_goals exact absurd (by decide) h

theorem mangleChar_of_notMem {c : Char} (h : c ∉ spelledChars) : mangleChar c = [c] := by
  rw [mangleChar, spelling_eq_none h]

theorem head_mangleChar {c : Char} (hc : c ∈ spelledChars) : ∃ word, mangleChar c = '$' :: word := by
  have hall : (spelledChars.all fun c => (mangleChar c).head? == some '$') = true := by decide
  have hhead : (mangleChar c).head? = some '$' := eq_of_beq (List.all_eq_true.1 hall c hc)
  exact List.head?_eq_some_iff.1 hhead

theorem eq_of_prefix_spelled {c d : Char} (hc : c ∈ spelledChars) (hd : d ∈ spelledChars)
    (h : mangleChar c <+: mangleChar d) : c = d := by
  have hall : (spelledChars.all fun c => spelledChars.all fun d =>
      !(mangleChar c).isPrefixOf (mangleChar d) || c == d) = true := by decide +kernel
  have hpair := List.all_eq_true.1 (List.all_eq_true.1 hall c hc) d hd
  rw [List.isPrefixOf_iff_prefix.2 h] at hpair
  exact eq_of_beq hpair

/-- No codeword begins another one. -/
theorem eq_of_mangleChar_prefix {c d : Char} (h : mangleChar c <+: mangleChar d) : c = d := by
  have hdollar : '$' ∈ spelledChars := by decide
  by_cases hc : c ∈ spelledChars <;> by_cases hd : d ∈ spelledChars
  · exact eq_of_prefix_spelled hc hd h
  · obtain ⟨word, hword⟩ := head_mangleChar hc
    rw [hword, mangleChar_of_notMem hd, List.cons_prefix_cons] at h
    exact absurd (h.1 ▸ hdollar) hd
  · obtain ⟨word, hword⟩ := head_mangleChar hd
    rw [hword, mangleChar_of_notMem hc, List.cons_prefix_cons] at h
    exact absurd (h.1 ▸ hdollar) hc
  · rw [mangleChar_of_notMem hc, mangleChar_of_notMem hd, List.cons_prefix_cons] at h
    exact h.1

theorem mangleChar_ne_nil (c : Char) : mangleChar c ≠ [] := by
  unfold mangleChar
  split <;> exact List.cons_ne_nil _ _

theorem mangle_inj {name name' : String} (h : mangle name = mangle name') : name = name' := by
  have hchars := congrArg String.toList h
  rw [toList_mangle, toList_mangle] at hchars
  exact String.toList_inj.1 (flatMap_inj_of_prefixFree mangleChar_ne_nil eq_of_mangleChar_prefix hchars)

/-! ### Machine names -/

theorem slash_notMem_mangle (name : String) : '/' ∉ (mangle name).toList := by
  rw [toList_mangle, List.mem_flatMap]
  rintro ⟨c, -, hslash⟩
  by_cases hc : c ∈ spelledChars
  · have hall : (spelledChars.all fun c => !(mangleChar c).contains '/') = true := by decide
    have hnone := List.all_eq_true.1 hall c hc
    rw [List.contains_iff_mem.2 hslash] at hnone
    cases hnone
  · rw [mangleChar_of_notMem hc, List.mem_singleton] at hslash
    exact hc (hslash ▸ by decide)

/-- The path of a module whose name has no slash is the name of that module alone. -/
theorem modulePath_inj {m n : String} (hm : '/' ∉ m.toList) (hn : '/' ∉ n.toList)
    (h : modulePath m = modulePath n) : m = n := by
  have hback : ∀ {cs : List Char}, '/' ∉ cs →
      (cs.map fun c => if c = '.' then '/' else c).map (fun c => if c = '/' then '.' else c) = cs := by
    intro cs hcs
    rw [List.map_map]
    refine (List.map_congr_left fun c hc => ?_).trans (List.map_id cs)
    have hslash : c ≠ '/' := fun hsame => hcs (hsame ▸ hc)
    by_cases hdot : c = '.' <;> simp [hdot, hslash]
  have hpath := congrArg String.toList h
  rw [modulePath, modulePath, String.toList_ofList, String.toList_ofList] at hpath
  rw [← String.toList_inj, ← hback hm, hpath, hback hn]

namespace Symbol

theorem methodName_eq_iff {s u : Symbol} : s.methodName = u.methodName ↔ s.simpleName = u.simpleName :=
  ⟨mangle_inj, fun h => congrArg mangle h⟩

theorem toList_className_qualified (owner name : String) :
    (qualified owner name).className.toList = (modulePath owner).toList ++ '/' :: (mangle name).toList := by
  simp [className]

theorem slash_mem_className_iff {s : Symbol} : '/' ∈ s.className.toList ↔ s.isQualified = true := by
  cases s with
  | qualified owner name => simp [toList_className_qualified, isQualified, owner?]
  | unqualified name => simpa [className, isQualified, owner?] using slash_notMem_mangle name

/-- The last slash of a class name ends the path of the module, and only names with an owner have one. -/
theorem className_inj {s u : Symbol} (hs : ∀ m ∈ s.owner?, '/' ∉ m.toList) (hu : ∀ m ∈ u.owner?, '/' ∉ m.toList)
    (h : s.className = u.className) : s = u := by
  have hkind : s.isQualified = u.isQualified := by
    rw [Bool.eq_iff_iff, ← slash_mem_className_iff, ← slash_mem_className_iff, h]
  cases s with
  | qualified m n =>
    cases u with
    | qualified m' n' =>
      have hchars := congrArg String.toList h
      rw [toList_className_qualified, toList_className_qualified] at hchars
      obtain ⟨hpath, hname⟩ := append_cons_inj_of_last (slash_notMem_mangle n) (slash_notMem_mangle n') hchars
      rw [modulePath_inj (hs m rfl) (hu m' rfl) (String.toList_inj.1 hpath),
        mangle_inj (String.toList_inj.1 hname)]
    | unqualified n' => cases hkind
  | unqualified n =>
    cases u with
    | qualified m' n' => cases hkind
    | unqualified n' => rw [mangle_inj h]

theorem moduleClass_inj {m m' n n' : String} (hm : '/' ∉ m.toList) (hm' : '/' ∉ m'.toList)
    (h : (qualified m n).moduleClass = (qualified m' n').moduleClass) : m = m' :=
  modulePath_inj hm hm' ((String.append_left_inj _).1 h)

/-- A method name comes from one simple name only. If the names of modules have no slash, different symbols with
an owner have getters of another class or of another name, and different symbols have different classes. -/
theorem machine_names_differ :
    (∀ s u : Symbol, s.methodName = u.methodName ↔ s.simpleName = u.simpleName) ∧
      (∀ m n m' n' : String, '/' ∉ m.toList → '/' ∉ m'.toList → qualified m n ≠ qualified m' n' →
        ∀ t t' : Ty, ((Getter.ofValue (.qualified m n) t).owner, (Getter.ofValue (.qualified m n) t).name) ≠
          ((Getter.ofValue (.qualified m' n') t').owner, (Getter.ofValue (.qualified m' n') t').name)) ∧
      ∀ s u : Symbol, (∀ m ∈ s.owner?, '/' ∉ m.toList) → (∀ m ∈ u.owner?, '/' ∉ m.toList) → s ≠ u →
        s.className ≠ u.className := by
  refine ⟨fun s u => methodName_eq_iff, fun m n m' n' hm hm' hne t t' h => hne ?_, fun s u hs hu hne h => ?_⟩
  · have hclass : (qualified m n).moduleClass = (qualified m' n').moduleClass := (Prod.mk.inj h).1
    have hmethod : (qualified m n).methodName = (qualified m' n').methodName := (Prod.mk.inj h).2
    have hname : n = n' := methodName_eq_iff.1 hmethod
    rw [moduleClass_inj hm hm' hclass, hname]
  · exact hne (className_inj hs hu h)

/-- The dot of a name is spelled out, so it is not taken for the end of a path. -/
theorem machine_names_differ_dot :
    let s := qualified "a.b" "c"
    let u := qualified "a" "b.c"
    let t := Ty.var (.ofName "t")
    '/' ∉ "a.b".toList ∧ '/' ∉ "a".toList ∧ s ≠ u ∧ s.methodName ≠ u.methodName ∧
      ((Getter.ofValue s t).owner, (Getter.ofValue s t).name) ≠
        ((Getter.ofValue u t).owner, (Getter.ofValue u t).name) ∧
      s.className = "a/b/c" ∧ u.className = "a/b$dotc" ∧ s.className ≠ u.className := by
  intro s u t
  have hab : '/' ∉ "a.b".toList := by decide
  have ha : '/' ∉ "a".toList := by decide
  have hne : s ≠ u := by decide
  have hname : s.simpleName ≠ u.simpleName := by decide
  obtain ⟨hmethod, hgetter, hclass⟩ := machine_names_differ
  refine ⟨hab, ha, hne, fun h => hname ((hmethod s u).1 h), hgetter "a.b" "c" "a" "b.c" hab ha hne t t, by decide,
    by decide, hclass s u ?_ ?_ hne⟩
  · rintro m ⟨⟩
    exact hab
  · rintro m ⟨⟩
    exact ha

end Symbol

end TypeEngine
