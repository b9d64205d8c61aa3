import TypeEngine.Proofs.Qualification

/-! # Ambiguous names

A name that nothing around a scope defines is qualified to the first candidate (`qualify_of_not_local`). It is
reported if there is more than one candidate and the first is no symbol of the module itself
(`reportsAmbiguity_iff`), while it is ambiguous if two candidates differ. The two are not the same, since
there is one candidate for each import: imports of one module give equal candidates, and in a module that
imports itself a symbol of its own may be the first. -/

namespace TypeEngine

def Cause.isAmbiguous : Cause → Bool
  | .ambiguous _ _ => true
  | _ => false

namespace Scopes

/-- The imports resolve the name to at least two symbols. -/
def Ambiguous (s : Scopes) (scope : ScopeId) (name : String) : Prop :=
  ∃ i ∈ s.imports scope, ∃ j ∈ s.imports scope,
    (s.importedAs name i).isSome ∧ (s.importedAs name j).isSome ∧ s.importedAs name i ≠ s.importedAs name j

instance (s : Scopes) (scope : ScopeId) (name : String) : Decidable (s.Ambiguous scope name) :=
  inferInstanceAs (Decidable (∃ i ∈ s.imports scope, ∃ j ∈ s.imports scope, _ ∧ _ ∧ _))

variable {s : Scopes} {scope : ScopeId} {module name : String}

/-! ### Candidates -/

theorem ambiguous_iff_candidates :
    s.Ambiguous scope name ↔
      ∃ q ∈ s.candidates scope name, ∃ q' ∈ s.candidates scope name, q ≠ q' := by
  simp only [candidates, List.mem_filterMap]
  constructor
  · rintro ⟨i, hi, j, hj, hsome, hsome', hne⟩
    obtain ⟨q, hq⟩ := Option.isSome_iff_exists.1 hsome
    obtain ⟨q', hq'⟩ := Option.isSome_iff_exists.1 hsome'
    refine ⟨q, ⟨i, hi, hq⟩, q', ⟨j, hj, hq'⟩, ?_⟩
    rintro rfl
    exact hne (hq.trans hq'.symm)
  · rintro ⟨q, ⟨i, hi, hq⟩, q', ⟨j, hj, hq'⟩, hne⟩
    refine ⟨i, hi, j, hj, by rw [hq]; rfl, by rw [hq']; rfl, ?_⟩
    rw [hq, hq']
    exact fun h => hne (Option.some.inj h)

theorem length_candidates_of_ambiguous (h : s.Ambiguous scope name) :
    1 < (s.candidates scope name).length := by
  obtain ⟨q, hq, q', hq', hne⟩ := ambiguous_iff_candidates.1 h
  cases hcs : s.candidates scope name with
  | nil =>
    rw [hcs] at hq
    cases hq
  | cons first rest =>
    cases rest with
    | nil =>
      rw [hcs, List.mem_singleton] at hq hq'
      exact absurd (hq.trans hq'.symm) hne
    | cons second rest => simp

theorem nodup_candidates (hnodup : ((s.imports scope).map (·.module)).Nodup) :
    (s.candidates scope name).Nodup := by
  refine List.pairwise_filterMap.2 ((List.pairwise_map.1 hnodup).imp ?_)
  rintro i j hmodules q hi q' hj rfl
  obtain ⟨-, -, hqi⟩ := importedAs_eq_some_iff.1 hi
  obtain ⟨-, -, hqj⟩ := importedAs_eq_some_iff.1 hj
  injection hqi.symm.trans hqj with hsame
  exact hmodules hsame

/-- Where no module is imported twice, candidates differ as soon as there are two. -/
theorem ambiguous_of_length (hnodup : ((s.imports scope).map (·.module)).Nodup)
    (hlen : 1 < (s.candidates scope name).length) : s.Ambiguous scope name := by
  have hdistinct : (s.candidates scope name).Nodup := nodup_candidates hnodup
  rw [ambiguous_iff_candidates]
  cases hcs : s.candidates scope name with
  | nil => simp [hcs] at hlen
  | cons first rest =>
    cases rest with
    | nil => simp [hcs] at hlen
    | cons second rest =>
      rw [hcs, List.nodup_cons] at hdistinct
      refine ⟨first, List.mem_cons_self, second, List.mem_cons_of_mem _ List.mem_cons_self, ?_⟩
      rintro rfl
      exact hdistinct.1 List.mem_cons_self

theorem head?_candidates_ne (hself : ∀ i ∈ s.imports scope, i.module ≠ module) :
    (s.candidates scope name).head? ≠ some (.qualified module name) := by
  intro hhead
  obtain ⟨i, hi, himported⟩ := List.mem_filterMap.1 (List.mem_of_head? hhead)
  obtain ⟨-, -, hq⟩ := importedAs_eq_some_iff.1 himported
  injection hq with hmodule
  exact hself i hi hmodule.symm

theorem qualify_of_not_local (hmodule : s.moduleName? scope = some module)
    (hlocal : s.isDefinedLocally scope (.qualified module name) = false) :
    s.qualify scope (.unqualified name) = (s.candidates scope name).head? := by
  simp only [qualify, hmodule, hlocal, candidates, List.head?_filterMap]
  rfl

end Scopes

/-! ### Reports -/

namespace Checker

/-- Qualifying the name adds a diagnostic that it is ambiguous. -/
def ReportsAmbiguity (c : Checker) (name : String) (span : Span) : Prop :=
  ∃ d ∈ (c.qualifyOrReport (.unqualified name) span).2.diagnostics.drop c.diagnostics.length,
    d.cause.isAmbiguous

instance (c : Checker) (name : String) (span : Span) : Decidable (c.ReportsAmbiguity name span) :=
  inferInstanceAs (Decidable (∃ d ∈ _, _))

variable {c : Checker} {module name : String}

theorem ambiguity?_of_not_local (hmodule : c.scopes.moduleName? c.current = some module)
    (hlocal : c.scopes.isDefinedLocally c.current (.qualified module name) = false) :
    c.ambiguity? (.unqualified name) =
      if 1 < (c.scopes.candidates c.current name).length ∧
          (c.scopes.candidates c.current name).head? ≠ some (.qualified module name) then
        some (.ambiguous name (c.scopes.candidates c.current name))
      else none := by
  have hshadowed : ((c.scopes.qualifyCurrent c.current (.unqualified name)).any fun q =>
      c.scopes.qualify c.current (.unqualified name) == some q) =
        decide ((c.scopes.candidates c.current name).head? = some (.qualified module name)) := by
    rw [Scopes.qualify_of_not_local hmodule hlocal, Scopes.qualifyCurrent, hmodule, Option.map_some,
      Option.any_some, Bool.eq_iff_iff, beq_iff_eq, decide_eq_true_iff]
    rfl
  simp only [ambiguity?, hshadowed, ne_eq, Bool.and_eq_true, Bool.not_eq_true', decide_eq_false_iff_not,
    decide_eq_true_iff, gt_iff_lt]
  exact if_congr and_comm rfl rfl

/-- A name that is reported is qualified to its first candidate, and nothing else is reported. -/
theorem qualifyOrReport_of_ambiguity (hoption : c.scopes.options.reportAmbiguous = true)
    (hmodule : c.scopes.moduleName? c.current = some module)
    (hlocal : c.scopes.isDefinedLocally c.current (.qualified module name) = false)
    (hlen : 1 < (c.scopes.candidates c.current name).length)
    (hown : (c.scopes.candidates c.current name).head? ≠ some (.qualified module name)) (span : Span) :
    ∃ q, (c.scopes.candidates c.current name).head? = some q ∧
      c.qualifyOrReport (.unqualified name) span =
        (q, c.report (.ambiguous name (c.scopes.candidates c.current name)) span) := by
  have hreport : c.reportAmbiguity (.unqualified name) span =
      c.report (.ambiguous name (c.scopes.candidates c.current name)) span := by
    rw [reportAmbiguity, if_pos hoption, ambiguity?_of_not_local hmodule hlocal, if_pos ⟨hlen, hown⟩]
  obtain ⟨q, hq⟩ : ∃ q, (c.scopes.candidates c.current name).head? = some q :=
    Option.isSome_iff_exists.1 (by simpa using List.ne_nil_of_length_pos (Nat.zero_lt_of_lt hlen))
  have hqualify : c.scopes.qualify c.current (.unqualified name) = some q :=
    (Scopes.qualify_of_not_local hmodule hlocal).trans hq
  refine ⟨q, hq, ?_⟩
  rw [qualifyOrReport, hreport]
  simp only [report, hqualify]

theorem reportsAmbiguity_iff (hoption : c.scopes.options.reportAmbiguous = true)
    (hmodule : c.scopes.moduleName? c.current = some module)
    (hlocal : c.scopes.isDefinedLocally c.current (.qualified module name) = false) (span : Span) :
    c.ReportsAmbiguity name span ↔ 1 < (c.scopes.candidates c.current name).length ∧
      (c.scopes.candidates c.current name).head? ≠ some (.qualified module name) := by
  by_cases hcause : 1 < (c.scopes.candidates c.current name).length ∧
      (c.scopes.candidates c.current name).head? ≠ some (.qualified module name)
  · obtain ⟨q, -, hresult⟩ := qualifyOrReport_of_ambiguity hoption hmodule hlocal hcause.1 hcause.2 span
    refine iff_of_true ?_ hcause
    rw [ReportsAmbiguity, hresult]
    exact ⟨_, by simp only [report, List.drop_left]; exact List.mem_singleton.2 rfl, rfl⟩
  · refine iff_of_false ?_ hcause
    have hreport : c.reportAmbiguity (.unqualified name) span = c := by
      rw [reportAmbiguity, if_pos hoption, ambiguity?_of_not_local hmodule hlocal, if_neg hcause]
    rw [ReportsAmbiguity, qualifyOrReport, hreport]
    split
    · simp
    · simp [report, Cause.isAmbiguous]

/-- With the option set, a name that nothing around the current scope defines is reported exactly if more than
one import resolves it and the first of these is not the module itself; the name is then qualified to the
first candidate. The report is right unless imports of one module alone resolve the name, or the first of
different candidates is a symbol of the module itself. It is right in particular if no module is imported
twice and the module does not import itself. -/
theorem ambiguity_reported_iff (hoption : c.scopes.options.reportAmbiguous = true)
    (hmodule : c.scopes.moduleName? c.current = some module)
    (hlocal : c.scopes.isDefinedLocally c.current (.qualified module name) = false) (span : Span) :
    let candidates := c.scopes.candidates c.current name
    let ownFirst := candidates.head? = some (.qualified module name)
    (c.ReportsAmbiguity name span ↔ 1 < candidates.length ∧ ¬ ownFirst) ∧
    (c.ReportsAmbiguity name span → ∃ q, candidates.head? = some q ∧
      c.qualifyOrReport (.unqualified name) span = (q, c.report (.ambiguous name candidates) span)) ∧
    ((c.ReportsAmbiguity name span ↔ c.scopes.Ambiguous c.current name) ↔
      (c.scopes.Ambiguous c.current name → ¬ ownFirst) ∧
        (¬ c.scopes.Ambiguous c.current name → candidates.length ≤ 1 ∨ ownFirst)) ∧
    (((c.scopes.imports c.current).map (·.module)).Nodup →
      (∀ i ∈ c.scopes.imports c.current, i.module ≠ module) →
        (c.ReportsAmbiguity name span ↔ c.scopes.Ambiguous c.current name)) := by
  intro candidates ownFirst
  have hreports : c.ReportsAmbiguity name span ↔ 1 < candidates.length ∧ ¬ ownFirst :=
    reportsAmbiguity_iff hoption hmodule hlocal span
  refine ⟨hreports, fun hreported => ?_, ?_, fun hnodup hself => ?_⟩
  · obtain ⟨hlen, hown⟩ := hreports.1 hreported
    exact qualifyOrReport_of_ambiguity hoption hmodule hlocal hlen hown span
  · have hlen : c.scopes.Ambiguous c.current name → 1 < candidates.length :=
      Scopes.length_candidates_of_ambiguous
    rw [hreports]
    by_cases hambiguous : c.scopes.Ambiguous c.current name
    · simp [hambiguous, hlen hambiguous]
    · simp [hambiguous, or_iff_not_imp_left]
  · rw [hreports, and_iff_left (Scopes.head?_candidates_ne hself)]
    exact ⟨Scopes.ambiguous_of_length hnodup, Scopes.length_candidates_of_ambiguous⟩

/-- Both `a` and `b` define `x`, and `M` imports both; the report says so, and `x` is `a.x`. Nothing is
reported of `y`, which only `b` defines. -/
theorem ambiguity_reported_iff_two_modules :
    let i : Index := .ofRegistrations [.entry (.empty (.qualified "a" "x")),
      .entry (.empty (.qualified "b" "x")), .entry (.empty (.qualified "b" "y"))]
    let c := (start (.new i { Options.default with reportAmbiguous := true })).perform
      (.enterModule "M" [⟨"a", none⟩, ⟨"b", some ["y", "x"]⟩])
    c.scopes.options.reportAmbiguous = true ∧ c.scopes.moduleName? c.current = some "M" ∧
      c.scopes.isDefinedLocally c.current (.qualified "M" "x") = false ∧
      c.scopes.Ambiguous c.current "x" ∧ c.ReportsAmbiguity "x" ⟨0, 1⟩ ∧
      (∃ q, (c.scopes.candidates c.current "x").head? = some q ∧
        c.qualifyOrReport (.unqualified "x") ⟨0, 1⟩ =
          (q, c.report (.ambiguous "x" (c.scopes.candidates c.current "x")) ⟨0, 1⟩)) ∧
      c.scopes.candidates c.current "x" = [.qualified "a" "x", .qualified "b" "x"] ∧
      c.scopes.isDefinedLocally c.current (.qualified "M" "y") = false ∧
      ¬ c.scopes.Ambiguous c.current "y" ∧ ¬ c.ReportsAmbiguity "y" ⟨1, 2⟩ := by
  refine ⟨?hoption, ?hmodule, ?hx, ?hambiguous, ?hreported,
    (ambiguity_reported_iff ?hoption ?hmodule ?hx _).2.1 ?hreported, ?_, ?hy, ?hclear, ?_⟩
  case hreported =>
    exact ((ambiguity_reported_iff ?hoption ?hmodule ?hx _).2.2.2 (by decide +kernel) (by decide +kernel)).2
      ?hambiguous
  all_goals decide +kernel

/-- `M` and `b` define `x` elsewhere, and `M` imports both. Nothing is reported of `x` if the import of `M`
comes first, and it is reported if the import of `b` does. With two imports of `a` alone, `x` is `a.x` and is
reported all the same. -/
theorem ambiguity_misreported :
    let i : Index := .ofRegistrations [.entry (.empty (.qualified "M" "x")),
      .entry (.empty (.qualified "a" "x")), .entry (.empty (.qualified "b" "x"))]
    let options := { Options.default with reportAmbiguous := true }
    let entered := fun imports => (start (.new i options)).perform (.enterModule "M" imports)
    let c := entered [⟨"M", none⟩, ⟨"b", none⟩]
    let c' := entered [⟨"b", none⟩, ⟨"M", none⟩]
    let d := entered [⟨"a", none⟩, ⟨"a", some ["x"]⟩]
    Scopes.Reachable i options c.scopes ∧ Scopes.Reachable i options d.scopes ∧
      c.scopes.isDefinedLocally c.current (.qualified "M" "x") = false ∧
      c.scopes.Ambiguous c.current "x" ∧ ¬ c.ReportsAmbiguity "x" ⟨0, 1⟩ ∧
      c'.scopes.Ambiguous c'.current "x" ∧ c'.ReportsAmbiguity "x" ⟨0, 1⟩ ∧
      d.scopes.isDefinedLocally d.current (.qualified "M" "x") = false ∧
      ¬ d.scopes.Ambiguous d.current "x" ∧ d.ReportsAmbiguity "x" ⟨0, 1⟩ := by
  refine ⟨.perform .new (.enterModule _ _) nofun, .perform .new (.enterModule _ _) nofun, ?_⟩
  decide +kernel

end Checker

end TypeEngine
