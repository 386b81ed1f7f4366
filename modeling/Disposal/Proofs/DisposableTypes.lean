import Mathlib.Data.Finset.Card
import Mathlib.Data.List.Dedup
import Disposal.Proofs.Search
import Disposal.Proofs.Sketch

/-!
# Disposable types

Whether a type can be disposed is found out along the lists of bases. A type may be declared in several parts, each
with a list of its own, and the lists may lead round in circles; the question is given up after 24 steps. So it is
answered by the ways of at most 24 steps to a library type. No way has to be longer than there are declared names, so
that among 24 names or less the answer is right whatever the circles.

* `isDisposableWithin_succ_iff`: one step of the search;
* `isDisposableWithin_iff`: the search as a whole;
* `isDisposableName_iff`: the answer, and when it is the one without a limit.
-/

namespace Disposal

open Relation

namespace Compilation

/-- A declaration of the type with a name lists a base with another name. -/
def HasBase (c : Compilation) (name base : String) : Prop :=
  base ≠ name ∧ ∃ t ∈ c.types, t.name = name ∧ base ∈ t.baseNames

/-- The name is declared nowhere, and the library type with this name can be disposed. -/
def IsDisposableRoot (c : Compilation) (name : String) : Prop :=
  (∀ t ∈ c.types, t.name ≠ name) ∧ Framework.isDisposable? name = some true

/-- The names of the types that are declared, each once. -/
def typeNames (c : Compilation) : List String := (c.types.map (·.name)).dedup

variable {c : Compilation}

private theorem HasBase.mem_typeNames {name base : String} (h : c.HasBase name base) : name ∈ c.typeNames := by
  obtain ⟨-, t, ht, rfl, -⟩ := h
  exact List.mem_dedup.2 (List.mem_map_of_mem ht)

theorem mem_typesNamed {t : TypeDecl} {name : String} : t ∈ c.typesNamed name ↔ t ∈ c.types ∧ t.name = name := by
  rw [typesNamed, List.mem_filter, beq_iff_eq]

/-- One step of the search: a name is a root, or is declared and has a base from which the rest of the way is found. -/
theorem isDisposableWithin_succ_iff {steps : Nat} {name : String} :
    c.isDisposableWithin (steps + 1) name = true ↔
      c.IsDisposableRoot name ∨ ∃ base, c.HasBase name base ∧ c.isDisposableWithin steps base = true := by
  rw [isDisposableWithin]
  split
  · next hnone =>
    have hnew : ∀ t ∈ c.types, t.name ≠ name := by
      intro t ht heq
      have hmem := mem_typesNamed.2 ⟨ht, heq⟩
      rw [hnone] at hmem
      cases hmem
    have hlisted : (Framework.isDisposable? name).getD false = true ↔ Framework.isDisposable? name = some true := by
      cases Framework.isDisposable? name <;> simp
    rw [hlisted]
    constructor
    · exact fun h => .inl ⟨hnew, h⟩
    · rintro (hroot | ⟨base, ⟨-, t, ht, heq, -⟩, -⟩)
      · exact hroot.2
      · exact absurd heq (hnew t ht)
  · next hsome =>
    have hroot : ¬c.IsDisposableRoot name := by
      rintro ⟨hnew, -⟩
      obtain ⟨t, ht⟩ := List.exists_mem_of_ne_nil _ hsome
      exact hnew t (mem_typesNamed.1 ht).1 (mem_typesNamed.1 ht).2
    simp only [hroot, false_or, List.any_eq_true, mem_typesNamed, Bool.and_eq_true, bne_iff_ne, HasBase]
    constructor
    · rintro ⟨t, ⟨ht, heq⟩, base, hbase, hne, hrest⟩
      exact ⟨base, ⟨hne, t, ht, heq, hbase⟩, hrest⟩
    · rintro ⟨base, ⟨hne, t, ht, heq, hbase⟩, hrest⟩
      exact ⟨t, ⟨ht, heq⟩, base, hbase, hne, hrest⟩

/-- The search finds a root along the ways that are short enough. -/
theorem isDisposableWithin_iff {steps : Nat} {name : String} :
    c.isDisposableWithin steps name = true ↔ ∃ n < steps, Search.Chain c.HasBase c.IsDisposableRoot n name := by
  induction steps generalizing name with
  | zero => simp [isDisposableWithin]
  | succ steps ih =>
    rw [isDisposableWithin_succ_iff]
    constructor
    · rintro (hroot | ⟨base, hbase, hrest⟩)
      · exact ⟨0, Nat.succ_pos steps, .leaf hroot⟩
      · obtain ⟨n, hn, hchain⟩ := ih.1 hrest
        exact ⟨n + 1, Nat.succ_lt_succ hn, .step hbase hchain⟩
    · rintro ⟨n, hn, hchain⟩
      cases hchain with
      | leaf hroot => exact .inl hroot
      | step hbase hchain => exact .inr ⟨_, hbase, ih.2 ⟨_, Nat.lt_of_succ_lt_succ hn, hchain⟩⟩

/-- A type can be disposed exactly if a disposable library type is found along its bases within 24 steps. Where no more
than 24 names are declared, it is enough that one is found at all, by whatever way and through whatever circles. -/
theorem isDisposableName_iff (c : Compilation) (name : String) :
    (c.isDisposableName name = true ↔ ∃ n ≤ 24, Search.Chain c.HasBase c.IsDisposableRoot n name) ∧
      (c.typeNames.length ≤ 24 →
        (c.isDisposableName name = true ↔ ∃ root, ReflTransGen c.HasBase name root ∧ c.IsDisposableRoot root)) := by
  have hwithin : c.isDisposableName name = true ↔ ∃ n ≤ 24, Search.Chain c.HasBase c.IsDisposableRoot n name := by
    rw [isDisposableName, isDisposableWithin_iff]
    simp only [lookupDepth, Nat.lt_succ_iff]
  refine ⟨hwithin, fun hfew => ?_⟩
  rw [hwithin]
  constructor
  · rintro ⟨n, -, hchain⟩
    exact hchain.reaches
  · rintro ⟨root, hreach, hroot⟩
    obtain ⟨n, hn, hchain⟩ := Search.exists_chain_le (fun _ _ => HasBase.mem_typeNames) hreach hroot
    exact ⟨n, Nat.le_trans hn hfew, hchain⟩

end Compilation

namespace Sample

open Sketch

/-- `class A:B{}class B:A{}class B:C,IDisposable{}class C:A{}class D:E{}class E:D,D{}` -/
def circling : Document :=
  document "C.cs"
    [subclassOf "A" ["B"] [], subclassOf "B" ["A"] [], subclassOf "B" ["C", "IDisposable"] [], subclassOf "C" ["A"] [],
     subclassOf "D" ["E"] [], subclassOf "E" ["D", "D"] []]

/-- Classes from number `n` down to number 0, each the base of the next, the last of them disposable. -/
def ladder (n : Nat) : Document :=
  document "C.cs" (subclassOf "0" ["IDisposable"] [] ::
    (List.range n).map fun i => subclassOf (toString (i + 1)) [toString i] [])

end Sample

/-- The theorem where bases lead round in circles: one of them has a way out, and the other has none. -/
theorem Compilation.isDisposableName_iff_circling :
    (ofDocuments [Sample.circling]).typeNames.length ≤ 24 ∧
      (∃ root, ReflTransGen (ofDocuments [Sample.circling]).HasBase "C" root ∧
        (ofDocuments [Sample.circling]).IsDisposableRoot root) ∧
      ¬∃ root, ReflTransGen (ofDocuments [Sample.circling]).HasBase "D" root ∧
        (ofDocuments [Sample.circling]).IsDisposableRoot root := by
  have hfew : (ofDocuments [Sample.circling]).typeNames.length ≤ 24 := by decide +kernel
  have hyes : (ofDocuments [Sample.circling]).isDisposableName "C" = true := by decide +kernel
  have hno : ¬(ofDocuments [Sample.circling]).isDisposableName "D" = true := by decide +kernel
  refine ⟨hfew, ?_, ?_⟩
  · exact ((isDisposableName_iff _ "C").2 hfew).1 hyes
  · exact fun h => hno (((isDisposableName_iff _ "D").2 hfew).2 h)

/-- A way of 24 steps is found, one of 25 is not. -/
example : (Compilation.ofDocuments [Sample.ladder 23]).isDisposableName "23" = true ∧
    (Compilation.ofDocuments [Sample.ladder 24]).isDisposableName "24" = false := by decide +kernel

end Disposal
