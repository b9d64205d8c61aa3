import Std.Data.String.ToNat
import TypeEngine.Proofs.ModuleLog
import TypeEngine.Proofs.SymbolText

/-! # Reserved symbols

The symbols that a unit hands out are numbered. Reserving a symbol takes the next number, and no other operation
touches the counter or the stem (`Scopes.exists_perform_eq`). The number can be read off the end of the name,
whatever stands before it, if the stem does not end in a digit (`Scopes.number_inj`). -/

namespace TypeEngine

namespace Scopes

/-! ### The number in a name -/

theorem exists_reservedName_eq (stem : String) (nestings : List String) (n : Nat) :
    ∃ front, (reservedName stem nestings n).toList = (front ++ stem.toList) ++ (toString n).toList := by
  rcases List.eq_nil_or_concat nestings with rfl | ⟨outer, inner, rfl⟩
  · exact ⟨[], by simp [reservedName]⟩
  · refine ⟨(String.join (outer.map (· ++ stem))).toList ++ inner.toList, ?_⟩
    simp [reservedName]

theorem isDigit_of_mem_toString {n : Nat} : ∀ c ∈ (toString n).toList, c.isDigit = true := by
  intro c hc
  rw [Nat.toString_eq_repr, Nat.toList_repr] at hc
  exact Nat.isDigit_of_mem_toDigits (by decide) (by decide) hc

theorem number_inj {stem : String} (hne : stem ≠ "") (hlast : ∀ c ∈ stem.toList.getLast?, c.isDigit = false)
    {xs ys : List String} {m n : Nat} (h : reservedName stem xs m = reservedName stem ys n) : m = n := by
  obtain ⟨front, hfront⟩ := exists_reservedName_eq stem xs m
  obtain ⟨front', hfront'⟩ := exists_reservedName_eq stem ys n
  have hend : ∀ front : List Char, ∀ c ∈ (front ++ stem.toList).getLast?, c.isDigit = false := by
    intro front
    rw [List.getLast?_append_of_ne_nil _ (mt String.toList_eq_nil_iff.1 hne)]
    exact hlast
  rw [h, hfront'] at hfront
  obtain ⟨-, hdigits⟩ := append_inj_of_last_run isDigit_of_mem_toString isDigit_of_mem_toString (hend front')
    (hend front) hfront
  exact (Nat.repr_inj.1 (String.toList_inj.1 hdigits)).symm

/-! ### What an operation hands out -/

/-- The symbols that a run reserves, in order. -/
def handedOut (s : Scopes) : List Operation → List Symbol
  | [] => []
  | op :: ops => (s.handsOut? op).toList ++ (s.perform op).handedOut ops

theorem reserved_perform (s : Scopes) (op : Operation) :
    (s.perform op).reserved = s.reserved + (s.handsOut? op).toList.length := by
  obtain ⟨frames, modules, store, h, -⟩ := s.exists_perform_eq op
  rw [h]

theorem options_perform (s : Scopes) (op : Operation) : (s.perform op).options = s.options := by
  obtain ⟨frames, modules, store, h, -⟩ := s.exists_perform_eq op
  rw [h]

theorem simpleName_of_handsOut? {s : Scopes} {op : Operation} {x : Symbol} (h : s.handsOut? op = some x) :
    ∃ nestings, x.simpleName = reservedName s.options.symbolStem nestings s.reserved := by
  cases op with
  | reserveSymbol scope nestings =>
    refine ⟨nestings, ?_⟩
    rw [← Option.some.inj h, reserveSymbol]
    cases s.moduleName? scope <;> rfl
  | _ => cases h

/-! ### Runs -/

theorem reserved_run (s : Scopes) (ops : List Operation) :
    (s.run ops).reserved = s.reserved + (s.handedOut ops).length := by
  induction ops generalizing s with
  | nil => rfl
  | cons op ops ih =>
    have hrun : (s.run (op :: ops)).reserved = ((s.perform op).run ops).reserved := rfl
    rw [hrun, ih, reserved_perform, handedOut, List.length_append, Nat.add_assoc]

/-- What a run hands out has numbers that were not taken when it started. -/
theorem exists_number_of_mem_handedOut {s : Scopes} {ops : List Operation} {x : Symbol}
    (hx : x ∈ s.handedOut ops) :
    ∃ nestings n, s.reserved ≤ n ∧ x.simpleName = reservedName s.options.symbolStem nestings n := by
  induction ops generalizing s with
  | nil => cases hx
  | cons op ops ih =>
    rcases List.mem_append.1 hx with hx | hx
    · obtain ⟨nestings, hname⟩ := simpleName_of_handsOut? (Option.mem_toList.1 hx)
      exact ⟨nestings, s.reserved, le_rfl, hname⟩
    · obtain ⟨nestings, n, hle, hname⟩ := ih hx
      rw [options_perform] at hname
      rw [reserved_perform] at hle
      exact ⟨nestings, n, by omega, hname⟩

/-- The number of a symbol is below all that are handed out after it. -/
theorem notMem_handedOut_of_handsOut? {s : Scopes} (hne : s.options.symbolStem ≠ "")
    (hlast : ∀ c ∈ s.options.symbolStem.toList.getLast?, c.isDigit = false) {op : Operation} {x : Symbol}
    (hop : s.handsOut? op = some x) (ops : List Operation) : x ∉ (s.perform op).handedOut ops := by
  intro hx
  obtain ⟨nestings, hname⟩ := simpleName_of_handsOut? hop
  obtain ⟨nestings', n, hle, hname'⟩ := exists_number_of_mem_handedOut hx
  rw [options_perform, hname] at hname'
  have hn : s.reserved = n := number_inj hne hlast hname'
  have hlater : s.reserved + 1 ≤ n := by rwa [reserved_perform, hop] at hle
  omega

/-- Let the stem of reserved symbols be not empty and not end in a digit. The symbols handed out in a run of any
operations, from any scopes and with any names around them, are all different. Each takes one number of the
counter and nothing else does, so 32 bits are enough for the counter of a unit that hands out fewer than `2 ^ 32`. -/
theorem reserved_symbols_differ (s : Scopes) (hne : s.options.symbolStem ≠ "")
    (hlast : ∀ c ∈ s.options.symbolStem.toList.getLast?, c.isDigit = false) (ops : List Operation) :
    (s.handedOut ops).Pairwise (· ≠ ·) ∧ (s.run ops).reserved = s.reserved + (s.handedOut ops).length := by
  refine ⟨?_, s.reserved_run ops⟩
  induction ops generalizing s with
  | nil => exact .nil
  | cons op ops ih =>
    have hrest := ih (s.perform op) (by rwa [options_perform]) (by rwa [options_perform])
    cases hop : s.handsOut? op with
    | none => rwa [handedOut, hop]
    | some x =>
      rw [handedOut, hop]
      exact List.nodup_cons.2 ⟨notMem_handedOut_of_handsOut? hne hlast hop ops, hrest⟩

/-- The names around the symbols hold the stem and digits of their own. -/
theorem reserved_symbols_differ_nested :
    let s := new .empty .default
    let ops : List Operation :=
      [.enterModule "m" [], .reserveSymbol 1 ["x", "1"], .enterScope 1, .reserveSymbol root [],
        .addDependency 2 (.qualified "m" "x"), .reserveSymbol 2 ["x#1"], .reserveSymbol 1 ["x#1#"]]
    s.options.symbolStem = "#" ∧
      s.handedOut ops = [.qualified "m" "x#1#0", .unqualified "#1", .qualified "m" "x#1#2", .qualified "m" "x#1##3"] ∧
      (s.handedOut ops).Pairwise (· ≠ ·) ∧ (s.run ops).reserved = 4 := by
  intro s ops
  have hhash : s.options.symbolStem.toList.getLast? = some '#' := by decide
  have hlast : ∀ c ∈ s.options.symbolStem.toList.getLast?, c.isDigit = false := by
    rw [hhash]
    rintro c ⟨⟩
    rfl
  obtain ⟨hdiffer, hcount⟩ := reserved_symbols_differ s (by decide) hlast ops
  exact ⟨rfl, by decide +kernel, hdiffer, hcount⟩

end Scopes

end TypeEngine
