import Mathlib.Data.List.Nodup
import Disposal.Proofs.DisposingScope

/-!
# The disposing branch

A statement that releases a member is put into the disposing branch of `Dispose(bool disposing)`. That place belongs to
the disposing scope, so that the member counts as released afterwards.

The branch is the first guard of the body that a statement can be put under; the scope is read off statement after
statement and stops where a guard leaves the method. A guard with an `else` may leave the method and still not be a
branch: then the scope stops ahead of the branch, and holds the statement that the branch belongs to as a whole.

* `Model.disposingAmong_append`: what is found behind some statements is found among all of them, as it is or as a part;
* `Model.disposingBranch?_isCovered`: the branch lies in the scope.
-/

namespace Disposal.Model

/-- A node of the scope is the node or holds it. -/
def IsCovered (scope : List Node) (n : Node) : Prop := ∃ s ∈ scope, n ∈ s.preorder

theorem IsCovered.of_mem {scope : List Node} {n : Node} (h : n ∈ scope) : IsCovered scope n :=
  ⟨n, h, Node.mem_preorder_self n⟩

section

variable {guard? : Node → Option Guard} {inner : List Node → List Node}

/-- Behind some statements the search goes on, unless one of them has ended it: then all that follows is found. -/
theorem disposingAmong_append (before rest : List Node) :
    (∀ x ∈ rest, x ∈ disposingAmong guard? inner (before ++ rest)) ∨
      ∀ x ∈ disposingAmong guard? inner rest, x ∈ disposingAmong guard? inner (before ++ rest) := by
  induction before with
  | nil => exact .inr fun _ hx => hx
  | cons s before ih =>
    rw [List.cons_append, disposingAmong]
    cases disposingIn guard? inner s with
    | none => exact .inl fun x hx => List.mem_append_right before hx
    | some parts =>
      refine ih.imp (fun h x hx => ?_) fun h x hx => ?_
      · exact List.mem_append_right parts (h x hx)
      · exact List.mem_append_right parts (h x hx)

/-- The block under a guard is covered by what is found among the statements around it. -/
private theorem isCovered_of_disposing {before after : List Node} {s b : Node} (hk : s.kind? = some .ifStatement)
    (hguard : s.ifCondition?.bind guard? = some .disposing) (hb : s.ifConsequence? = some b) :
    IsCovered (disposingAmong guard? inner (before ++ s :: after)) b := by
  have hfound : b ∈ disposingAmong guard? inner (s :: after) := by
    have hin : disposingIn guard? inner s = some [b] := by
      simp only [disposingIn, hk, hguard, hb, Option.toList_some]
    rw [disposingAmong, hin]
    exact List.mem_append_left _ (List.mem_singleton_self b)
  rcases disposingAmong_append before (s :: after) with h | h
  · exact ⟨s, h s List.mem_cons_self, Node.mem_preorder_of_mem_children (Node.mem_children_of_ifConsequence? hb)⟩
  · exact .of_mem (h b hfound)

/-- The statements behind a guard that leaves the method are found among all statements. -/
private theorem mem_disposingAmong_of_notDisposing {before after : List Node} {s b x : Node}
    (hk : s.kind? = some .ifStatement) (hguard : s.ifCondition?.bind guard? = some .notDisposing)
    (hb : s.ifConsequence? = some b) (hexits : b.exits = true) (hx : x ∈ after) :
    x ∈ disposingAmong guard? inner (before ++ s :: after) := by
  have hstop : disposingAmong guard? inner (s :: after) = after := by
    have hin : disposingIn guard? inner s = none := by
      simp only [disposingIn, hk, hguard, hb, Option.any_some, hexits, if_true]
    rw [disposingAmong, hin]
  rcases disposingAmong_append before (s :: after) with h | h
  · exact h x (List.mem_cons_of_mem s hx)
  · exact h x (hstop.symm ▸ hx)

end

/-! ### The branch of a method -/

/-- The statement that opens a branch: an `if` with a guard, and what that guard leads to. -/
theorem branchAt?_eq_some {m : Model} {param s : Node} {branch : DisposingBranch}
    (h : m.branchAt? param s = some branch) :
    s.kind? = some .ifStatement ∧ ∃ b, s.ifConsequence? = some b ∧
      (s.ifCondition?.bind (Guard.of? m param) = some .notDisposing ∧ b.exits = true ∧ branch = .earlyReturn s ∨
        s.ifCondition?.bind (Guard.of? m param) = some .disposing ∧ b.is .block = true ∧ branch = .block b) := by
  unfold branchAt? at h
  split at h
  · next hk =>
    obtain ⟨condition, hcond, h⟩ := Option.bind_eq_some_iff.1 h
    obtain ⟨b, hb, h⟩ := Option.bind_eq_some_iff.1 h
    obtain ⟨g, hg, h⟩ := Option.bind_eq_some_iff.1 h
    refine ⟨Node.is_iff.1 hk, b, hb, ?_⟩
    rw [hcond, Option.bind_some, hg]
    cases g with
    | notDisposing =>
      dsimp only at h
      split at h
      · next hexits =>
        cases h
        rw [Bool.and_eq_true] at hexits
        exact .inl ⟨rfl, hexits.1, rfl⟩
      · cases h
    | disposing =>
      dsimp only at h
      split at h
      · next hblock =>
        cases h
        exact .inr ⟨rfl, hblock, rfl⟩
      · cases h
  · cases h

/-- The scope of a method that has statements is found among them. -/
private theorem exists_disposingScope_eq (m : Model) {method param block : Node}
    (hparam : method.parameters.head? = some param) (hblock : method.blockBody? = some block) :
    ∃ inner, m.disposingScope method = disposingAmong (Guard.of? m param) inner block.statements := by
  obtain ⟨h, cs, hhere⟩ : ∃ h cs, block.here = .node h cs := by
    cases hhere : block.here with
    | node h cs => exact ⟨h, cs, rfl⟩
  rw [disposingScope, hparam, hblock]
  dsimp only
  rw [hhere, Tree.height, disposingWithin]
  exact ⟨_, rfl⟩

/-- A place among the statements of a body is told by the statement that stands there. -/
private theorem eq_of_append_statements {block s : Node} {before after before' after' : List Node}
    (h : block.statements = before ++ s :: after) (h' : block.statements = before' ++ s :: after') :
    after = after' := by
  have hnodup : block.statements.Nodup := by
    unfold Node.statements
    split
    · refine block.pairwise_rank_named.imp ?_
      rintro a _ hab rfl
      exact Nat.lt_irrefl _ hab
    · exact List.nodup_singleton block
  rw [h, List.nodup_append, List.nodup_cons] at hnodup
  have hbefore : s ∉ before := fun hs => hnodup.2.2 s hs s List.mem_cons_self rfl
  exact ((List.append_cons_inj_of_notMem hbefore hnodup.2.1.1).1 (h.symm.trans h')).2.2

/-- The place where a statement is put into `Dispose(bool)` lies in the disposing scope: the block of the branch, or all
statements that follow the guard which leaves the method. -/
theorem disposingBranch?_isCovered (m : Model) {method block : Node} {branch : DisposingBranch}
    (hblock : method.blockBody? = some block) (h : m.disposingBranch? method = some branch) :
    (∀ b, branch = .block b → IsCovered (m.disposingScope method) b ∧
        ∃ s ∈ block.statements, s.ifConsequence? = some b) ∧
      ∀ s, branch = .earlyReturn s → s ∈ block.statements ∧
        ∀ before after, block.statements = before ++ s :: after →
          ∀ x ∈ after, IsCovered (m.disposingScope method) x := by
  obtain ⟨param, hparam, h⟩ := Option.bind_eq_some_iff.1 h
  obtain ⟨block', hblock', h⟩ := Option.bind_eq_some_iff.1 h
  cases hblock.symm.trans hblock'
  obtain ⟨inner, hscope⟩ := exists_disposingScope_eq m hparam hblock
  obtain ⟨before, s, after, hstatements, hs, -⟩ := List.findSome?_eq_some_iff.1 h
  have hmem : s ∈ block.statements := by simp [hstatements]
  obtain ⟨hk, b, hb, ⟨hguard, hexits, rfl⟩ | ⟨hguard, -, rfl⟩⟩ := branchAt?_eq_some hs
  · refine ⟨nofun, ?_⟩
    rintro _ ⟨⟩
    refine ⟨hmem, fun before' after' hstatements' x hx => ?_⟩
    rw [eq_of_append_statements hstatements' hstatements] at hx
    rw [hscope, hstatements]
    exact .of_mem (mem_disposingAmong_of_notDisposing hk hguard hb hexits hx)
  · refine ⟨?_, nofun⟩
    rintro _ ⟨⟩
    rw [hscope, hstatements]
    exact ⟨isCovered_of_disposing hk hguard hb, s, hstatements ▸ hmem, hb⟩

namespace Sample

open Sketch

/-- `class C{void Dispose(bool disposing){if(!disposing){return;} else {A();}if(disposing){B();}}}` -/
def dividing : Document :=
  document "C.cs"
    [classOf "C"
      [method [] void "Dispose"
        [ofKind .parameter
          [((leaf (.kind .predefinedType) "bool").inField .type).spaced, (name "disposing").inField .name]]
        [chooseElse (negation (name "disposing")) (block [leaving]) (block [statement (call (name "A") [])]),
         choose (name "disposing") (block [statement (call (name "B") [])])]]]

/-- The block of a branch. -/
def blockOf? : DisposingBranch → Option Node
  | .block b => some b
  | .earlyReturn _ => none

end Sample

/-- The theorem where the scope stops at a guard ahead of the branch. -/
theorem disposingBranch?_isCovered_dividing :
    ∃ method block b, method.blockBody? = some block ∧
      (Compilation.ofDocuments [Sample.dividing]).model.disposingBranch? method = some (.block b) ∧
      ((Compilation.ofDocuments [Sample.dividing]).model.disposingScope method).map (·.text) =
        ["if(disposing)\x7bB();\x7d"] ∧
      b.text = "\x7bB();\x7d" ∧
      IsCovered ((Compilation.ofDocuments [Sample.dividing]).model.disposingScope method) b := by
  have hany : ((Compilation.ofDocuments [Sample.dividing]).places.any fun method =>
      method.blockBody?.isSome &&
        decide (((Compilation.ofDocuments [Sample.dividing]).model.disposingScope method).map (·.text) =
          ["if(disposing)\x7bB();\x7d"]) &&
        ((Compilation.ofDocuments [Sample.dividing]).model.disposingBranch? method).any fun branch =>
          (Sample.blockOf? branch).any fun b => b.text == "\x7bB();\x7d") = true := by
    decide +kernel
  obtain ⟨method, -, h⟩ := List.any_eq_true.1 hany
  simp only [Bool.and_eq_true, decide_eq_true_eq] at h
  obtain ⟨⟨hblock, hscope⟩, hbranch⟩ := h
  obtain ⟨block, hblock⟩ := Option.isSome_iff_exists.1 hblock
  obtain ⟨branch, hbranch, h⟩ := (Option.any_eq_true _ _).1 hbranch
  obtain ⟨b, hb, htext⟩ := (Option.any_eq_true _ _).1 h
  cases branch with
  | earlyReturn s => cases hb
  | block b' =>
    cases hb
    exact ⟨method, block, b, hblock, hbranch, hscope, LawfulBEq.eq_of_beq htext,
      ((disposingBranch?_isCovered _ hblock hbranch).1 b rfl).1⟩

end Disposal.Model
