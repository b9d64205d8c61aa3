import Mathlib.Data.List.Nodup
import Std.Data.String.ToNat
import TypeEngine.Proofs.NameFlow

/-! # Fresh variables

A session is a run of calls from the empty store, in which the caller may invent any name but those
made of the stem and a number, and may use those once they were returned. Then the number of every
fresh name that is around, in the hands of the caller or anywhere in the store, is below the counter.
Hence the names a call creates are new: they differ from each other and from every name supplied,
returned, created or stored before. The stem may be any text, with digits at its end too. -/

namespace TypeEngine

theorem TyVar.firstOfEachName_sublist (vs : List TyVar) : (firstOfEachName vs).Sublist vs := by
  induction vs with
  | nil => exact .slnil
  | cons v vs ih => exact (List.filter_sublist.trans ih).cons_cons v

namespace Store

/-! ### The names a call creates -/

theorem freshName_injective (s : Store) : Function.Injective s.freshName := by
  intro m n h
  have hnumber : m.repr = n.repr := (String.append_right_inj s.stem).1 h
  exact Nat.repr_inj.1 hnumber

theorem mem_genericNames {s : Store} {t : Ty} {x : String} :
    x ∈ (s.genericVars t).map (·.name) ↔ x ∈ t.names ∧ x ∉ s.fixedNames := by
  have hfree : x ∈ t.freeVars.map (·.name) ↔ x ∈ t.names := TyVar.mem_names_firstOfEachName
  simp only [genericVars, List.mem_map, List.mem_filter, ← hfree, isGeneric]
  constructor
  · rintro ⟨v, ⟨hv, hgeneric⟩, rfl⟩
    exact ⟨⟨v, hv, rfl⟩, by simpa using hgeneric⟩
  · rintro ⟨⟨v, hv, rfl⟩, hgeneric⟩
    exact ⟨v, ⟨hv, by simpa using hgeneric⟩, rfl⟩

theorem genericVars_subset (s : Store) (t : Ty) : s.genericVars t ⊆ t.vars :=
  fun _ hv => (TyVar.firstOfEachName_sublist _).subset (List.mem_filter.1 hv).1

/-- The generic variables are numbered in their order. -/
theorem freshen_getElem (s : Store) {generic : List TyVar} (h : (generic.map (·.name)).Nodup)
    {i : Nat} (hi : i < generic.length) {v : TyVar} (hv : v.name = generic[i].name) :
    s.freshen generic v = ⟨s.freshName (s.counter + i), generic[i].context⟩ := by
  have hfind : ((generic.zipIdx s.counter).find? fun q => q.1.name == v.name) =
      some (generic[i], s.counter + i) := by
    rw [hv]
    refine List.find?_eq_some_iff_getElem.2 ⟨by simp, i, by simpa using hi, by simp, ?_⟩
    intro j hj
    have hne := List.pairwise_iff_getElem.1 h j i (by simp; omega) (by simpa using hi) hj
    simpa using hne
  simp only [freshen, hfind]

theorem names_freshen (s : Store) {generic : List TyVar} (h : (generic.map (·.name)).Nodup) :
    (generic.map fun v => (s.freshen generic v).name) =
      (List.range' s.counter generic.length).map s.freshName := by
  refine List.ext_getElem (by simp) fun i hi _ => ?_
  rw [List.length_map] at hi
  simp [s.freshen_getElem h hi rfl]

theorem freshen_of_fixed (s : Store) {t : Ty} {v : TyVar} (h : v.name ∈ s.fixedNames) :
    s.freshen (s.genericVars t) v = v := by
  have hfind : ((s.genericVars t).zipIdx s.counter).find? (fun q => q.1.name == v.name) = none := by
    rw [List.find?_eq_none]
    intro q hq hname
    have hmem : q.1.name ∈ (s.genericVars t).map (·.name) :=
      List.mem_map_of_mem (List.fst_mem_of_mem_zipIdx hq)
    rw [beq_iff_eq.1 hname] at hmem
    exact (mem_genericNames.1 hmem).2 h
  simp only [freshen, hfind]

theorem nodup_genericVars (s : Store) (t : Ty) : ((s.genericVars t).map (·.name)).Nodup :=
  (TyVar.nodup_names_firstOfEachName t.vars).sublist (List.filter_sublist.map _)

theorem supply_call (s : Store) (c : Call) :
    (s.call c).2.supply = (s.stem, s.counter + (s.created c).length) := by
  have hs : s.Within fun _ => True := within_iff.2 fun _ _ => trivial
  cases c with
  | reserve context => rfl
  | instantiate t =>
    show (s.stem, _) = (s.stem, _)
    rw [created, List.length_map]
    rfl
  | bind v t =>
    rcases hs.bind (v := v) (t := t) trivial (fun _ _ => trivial) with
      ⟨s', hbind, -, hsupply⟩ | ⟨err, hbind, -⟩
    · simp only [call, hbind]
      exact hsupply
    · simp only [call, hbind]
      rfl
  | unify e a =>
    obtain ⟨s', -, hsupply, ⟨t, hunify, -⟩ | ⟨err, hunify, -⟩⟩ :=
      hs.unify (e := e) (a := a) (fun _ _ => trivial) (fun _ _ => trivial)
    · simp only [call, hunify]
      exact hsupply
    · simp only [call, hunify]
      exact hsupply
  | _ => rfl

/-- The created names have the numbers from the counter on. -/
theorem created_eq (s : Store) (c : Call) :
    s.created c = (List.range' s.counter (s.created c).length).map s.freshName := by
  cases c with
  | reserve context => rfl
  | instantiate t =>
    have hnames := s.names_freshen (s.nodup_genericVars (s.resolve t))
    simpa only [created, List.length_map] using hnames
  | _ => rfl

theorem exists_number_of_mem_created {s : Store} {c : Call} {x : String} (hx : x ∈ s.created c) :
    ∃ n, x = s.freshName n ∧ s.counter ≤ n ∧ n < s.counter + (s.created c).length := by
  rw [created_eq] at hx
  obtain ⟨n, hn, rfl⟩ := List.mem_map.1 hx
  obtain ⟨hlow, hhigh⟩ := List.mem_range'_1.1 hn
  exact ⟨n, rfl, hlow, hhigh⟩

theorem nodup_created (s : Store) (c : Call) : (s.created c).Nodup := by
  rw [created_eq]
  exact (List.nodup_range' 1).map s.freshName_injective

theorem mem_answer_of_mem_created {s : Store} {c : Call} {x : String} (hx : x ∈ s.created c) :
    x ∈ (s.call c).1.names := by
  cases c with
  | reserve context => exact hx
  | instantiate t =>
    obtain ⟨v, hv, rfl⟩ := List.mem_map.1 hx
    exact Ty.mem_names_subst.2 ⟨v, s.genericVars_subset _ hv, by simp [Ty.names_var]⟩
  | _ => cases hx

/-- The names created along the calls. -/
def createdAll : Store → List Call → List String
  | _, [] => []
  | s, c :: calls => s.created c ++ (s.call c).2.createdAll calls

theorem stem_call (s : Store) (c : Call) : (s.call c).2.stem = s.stem := congrArg Prod.fst (s.supply_call c)

theorem counter_call (s : Store) (c : Call) : (s.call c).2.counter = s.counter + (s.created c).length :=
  congrArg Prod.snd (s.supply_call c)

/-- Every created name takes one number of the counter, and nothing else does. -/
theorem counter_callAll (s : Store) (calls : List Call) :
    (s.callAll calls).counter = s.counter + (s.createdAll calls).length := by
  induction calls generalizing s with
  | nil => rfl
  | cons c calls ih =>
    have hrun : (s.callAll (c :: calls)).counter = ((s.call c).2.callAll calls).counter := rfl
    rw [hrun, ih, counter_call, createdAll, List.length_append, Nat.add_assoc]

end Store

/-! ### Sessions -/

/-- A run of calls: the store it has led to, and the names supplied by the caller, returned to the
caller, and created on the way. -/
structure Session where
  store : Store
  supplied : List String
  returned : List String
  created : List String

namespace Session

open Store (Call)

def start (stem : String) : Session :=
  { store := .empty stem, supplied := [], returned := [], created := [] }

def next (σ : Session) (c : Call) : Session :=
  { store := (σ.store.call c).2
    supplied := σ.supplied ++ c.names
    returned := σ.returned ++ (σ.store.call c).1.names
    created := σ.created ++ σ.store.created c }

def run (σ : Session) (calls : List Call) : Session := calls.foldl next σ

theorem store_run (σ : Session) (calls : List Call) : (σ.run calls).store = σ.store.callAll calls := by
  induction calls generalizing σ with
  | nil => rfl
  | cons c calls ih => exact ih (σ.next c)

theorem stem_run (σ : Session) (calls : List Call) : (σ.run calls).store.stem = σ.store.stem := by
  induction calls generalizing σ with
  | nil => rfl
  | cons c calls ih => exact (ih (σ.next c)).trans (σ.store.stem_call c)

theorem created_run (σ : Session) (calls : List Call) :
    (σ.run calls).created = σ.created ++ σ.store.createdAll calls := by
  induction calls generalizing σ with
  | nil => exact (List.append_nil _).symm
  | cons c calls ih => exact (ih (σ.next c)).trans (List.append_assoc ..)

theorem counter_run_start (stem : String) (calls : List Call) :
    ((start stem).run calls).store.counter = ((start stem).run calls).created.length := by
  rw [store_run, created_run, Store.counter_callAll]
  exact Nat.zero_add _

/-- A supplied name that looks like a fresh one was returned before. -/
def Allows (σ : Session) (c : Call) : Prop :=
  ∀ x ∈ c.names, ∀ n : Nat, x = σ.store.stem ++ toString n → x ∈ σ.returned

/-- Every call is allowed when it is made. -/
def AllowsAll : Session → List Call → Prop
  | _, [] => True
  | σ, c :: calls => σ.Allows c ∧ (σ.next c).AllowsAll calls

/-- The name has been supplied, returned or created, or is in the store. -/
def Mentions (σ : Session) (x : String) : Prop :=
  x ∈ σ.supplied ∨ x ∈ σ.returned ∨ x ∈ σ.created ∨ σ.store.Knows x

/-- The number of every fresh name that is around is below the counter. -/
def Counted (σ : Session) : Prop :=
  ∀ x, σ.Mentions x → ∀ n, x = σ.store.freshName n → n < σ.store.counter

theorem counted_start (stem : String) : (start stem).Counted := by
  rintro x (hx | hx | hx | hx)
  · cases hx
  · cases hx
  · cases hx
  · exact (Store.within_iff.1 (Store.within_empty (fun _ => False) stem) x hx).elim

/-- A name supplied with an allowed call is no fresh name, or one with a number below the counter. -/
theorem Counted.names {σ : Session} (h : σ.Counted) {c : Call} (hc : σ.Allows c) :
    ∀ x ∈ c.names, ∀ n, x = σ.store.freshName n → n < σ.store.counter := by
  intro x hx n hn
  exact h x (.inr (.inl (hc x hx n hn))) n hn

theorem Counted.next {σ : Session} (h : σ.Counted) {c : Call} (hc : σ.Allows c) :
    (σ.next c).Counted := by
  have hstem : (σ.next c).store.stem = σ.store.stem := σ.store.stem_call c
  have hcounter : (σ.next c).store.counter = σ.store.counter + (σ.store.created c).length :=
    σ.store.counter_call c
  have hfresh : (σ.next c).store.freshName = σ.store.freshName := by
    funext n
    rw [Store.freshName, Store.freshName, hstem]
  have hstore : σ.store.Within fun x => ∀ n, x = σ.store.freshName n → n < σ.store.counter :=
    Store.within_iff.2 fun x hx => h x (.inr (.inr (.inr hx)))
  obtain ⟨hstore', hanswer⟩ := hstore.call (h.names hc)
  have hold : ∀ x, (∀ n, x = σ.store.freshName n → n < σ.store.counter) →
      ∀ n, x = (σ.next c).store.freshName n → n < (σ.next c).store.counter := by
    intro x hx n hn
    have hlt := hx n (hfresh ▸ hn)
    omega
  have hnew : ∀ x ∈ σ.store.created c,
      ∀ n, x = (σ.next c).store.freshName n → n < (σ.next c).store.counter := by
    intro x hx n hn
    obtain ⟨m, rfl, -, hm⟩ := Store.exists_number_of_mem_created hx
    rw [hfresh] at hn
    have hmn : m = n := σ.store.freshName_injective hn
    omega
  rintro x (hx | hx | hx | hx)
  · rcases List.mem_append.1 hx with hx | hx
    · exact hold x (h x (.inl hx))
    · exact hold x (h.names hc x hx)
  · rcases List.mem_append.1 hx with hx | hx
    · exact hold x (h x (.inr (.inl hx)))
    · exact (hanswer x hx).elim (hold x) (hnew x)
  · rcases List.mem_append.1 hx with hx | hx
    · exact hold x (h x (.inr (.inr (.inl hx))))
    · exact hnew x hx
  · exact hold x (Store.within_iff.1 hstore' x hx)

theorem Counted.run {σ : Session} (h : σ.Counted) {calls : List Call} (hc : σ.AllowsAll calls) :
    (σ.run calls).Counted := by
  induction calls generalizing σ with
  | nil => exact h
  | cons c calls ih => exact ih (h.next hc.1) hc.2

theorem allowsAll_concat {σ : Session} {calls : List Call} {c : Call}
    (h : σ.AllowsAll (calls ++ [c])) : σ.AllowsAll calls ∧ (σ.run calls).Allows c := by
  induction calls generalizing σ with
  | nil => exact ⟨trivial, h.1⟩
  | cons d calls ih =>
    obtain ⟨hd, hrest⟩ := h
    obtain ⟨hcalls, hc⟩ := ih hrest
    exact ⟨⟨hd, hcalls⟩, hc⟩

theorem Counted.not_mentions_created {σ : Session} (h : σ.Counted) {c : Call} {x : String}
    (hx : x ∈ σ.store.created c) : ¬ σ.Mentions x := by
  intro hmentions
  obtain ⟨n, hn, hle, -⟩ := Store.exists_number_of_mem_created hx
  have hlt := h x hmentions n hn
  omega

/-- In a session from the empty store, of any stem, in which every supplied name that is the stem with
a number was returned before, the names created by a call are new: they differ from each other, from
every name supplied so far or with this call, from every name created or returned before, and from
every name in the store. They are in the answer, and every other name in the answer is not new. The counter
is the number of names created so far, and it bounds the numbers in them, so 32 bits are enough for it in a
session that creates fewer than `2 ^ 32`. -/
theorem created_names_fresh (stem : String) (calls : List Call) (c : Call)
    (h : (start stem).AllowsAll (calls ++ [c])) :
    let σ := (start stem).run calls
    (σ.store.created c).Nodup ∧
      (∀ x ∈ σ.store.created c, x ∉ c.names ∧ x ∉ σ.supplied ∧ x ∉ σ.created ∧ x ∉ σ.returned ∧
        ¬ σ.store.Knows x ∧ x ∈ (σ.store.call c).1.names) ∧
      (∀ x ∈ (σ.store.call c).1.names, x ∈ σ.store.created c ∨ x ∈ c.names ∨ σ.store.Knows x) ∧
      (σ.next c).store.counter = (σ.next c).created.length ∧
      ∀ x ∈ σ.store.created c, ∃ n < (σ.next c).created.length, x = stem ++ toString n := by
  intro σ
  obtain ⟨hcalls, hc⟩ := allowsAll_concat h
  have hσ : σ.Counted := (counted_start stem).run hcalls
  have hcount : (σ.next c).store.counter = (σ.next c).created.length := by
    have hnext : (start stem).run (calls ++ [c]) = σ.next c := List.foldl_append
    rw [← hnext, counter_run_start]
  refine ⟨σ.store.nodup_created c, fun x hx => ?_, fun x hx => ?_, hcount, fun x hx => ?_⟩
  · have hnew := hσ.not_mentions_created hx
    have hsupplied : x ∉ c.names := by
      intro hmem
      obtain ⟨n, hn, hle, -⟩ := Store.exists_number_of_mem_created hx
      have hlt := hσ.names hc x hmem n hn
      omega
    simp only [Mentions, not_or] at hnew
    obtain ⟨hbefore, hreturned, hcreated, hstore⟩ := hnew
    exact ⟨hsupplied, hbefore, hcreated, hreturned, hstore, Store.mem_answer_of_mem_created hx⟩
  · have hwithin : σ.store.Within fun x => x ∈ c.names ∨ σ.store.Knows x :=
      Store.within_iff.2 fun x hx => .inr hx
    exact ((hwithin.call fun x hx => .inl hx).2 x hx).symm
  · obtain ⟨n, hn, -, hlt⟩ := Store.exists_number_of_mem_created hx
    rw [← σ.store.counter_call c] at hlt
    refine ⟨n, hcount ▸ hlt, ?_⟩
    rw [hn, Store.freshName, stem_run]
    rfl

/-- The stem ends in a digit, and the caller writes it as a name of its own. -/
theorem created_names_fresh_copy :
    let a := Ty.var (.ofName "t1")
    let b := Ty.var (.ofName "t10")
    let calls : List Call := [.reserve ∅, .unify b (.fn a a), .pin (.var (.ofName "x"))]
    let σ := (start "t1").run calls
    (start "t1").AllowsAll (calls ++ [.instantiate b]) ∧
      σ.store.created (.instantiate b) = ["t11"] ∧ σ.store.Knows "t10" ∧ σ.store.Knows "t1" ∧
      "t11" ∉ σ.supplied ∧ ¬ σ.store.Knows "t11" ∧
      (σ.next (.instantiate b)).created = ["t10", "t11"] ∧ (σ.next (.instantiate b)).store.counter = 2 := by
  intro a b calls σ
  have ha : ∀ n : Nat, "t1" ≠ "t1" ++ toString n := fun n h => by
    simpa using congrArg String.toList h
  have hx : ∀ n : Nat, "x" ≠ "t1" ++ toString n := fun n h => by
    simpa using congrArg String.toList h
  have hallowed : (start "t1").AllowsAll (calls ++ [.instantiate b]) := by
    refine ⟨nofun, fun y hy n hn => ?_, fun y hy n hn => ?_, fun y hy n hn => ?_, trivial⟩
    · rcases List.mem_cons.1 hy with rfl | hy
      · decide
      · have hya : y = "t1" := by simpa [a, Ty.names_fn, Ty.names_var] using hy
        exact (ha n (hya ▸ hn)).elim
    · have hyx : y = "x" := List.mem_singleton.1 hy
      exact (hx n (hyx ▸ hn)).elim
    · rw [List.mem_singleton.1 hy]
      decide
  obtain ⟨-, hfresh, -, hcount, -⟩ := created_names_fresh "t1" calls (.instantiate b) hallowed
  obtain ⟨-, hsupplied, -, -, hstore, -⟩ := hfresh "t11" (by decide)
  have hinside : σ.store.Knows "t1" := .inr (.inl ⟨"t10", .fn a a, by decide, by decide⟩)
  have hcreated : (σ.next (.instantiate b)).created = ["t10", "t11"] := by decide +kernel
  exact ⟨hallowed, by decide, .inl (by decide), hinside, hsupplied, hstore, hcreated, by rw [hcount, hcreated]; rfl⟩

end Session

end TypeEngine
