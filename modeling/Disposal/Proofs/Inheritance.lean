import Mathlib.Data.List.Chain
import Disposal.Proofs.DisposableTypes
import Disposal.Symbol.Lookup

/-!
# Inheritance

A type may be declared in several parts, and what it inherits is told by the bases of all of them; declarations are told
apart from types by `TypeDecl.same`. The chain of base classes follows the bases as long as they lead to a type that has
not been met, through at most 25 of them, so that it ends however the bases lead round in circles.

* `Compilation.baseChain_congr`, `Compilation.lookupMember?_congr`: the parts of a type inherit the same;
* `Compilation.IsBaseChain.unique`, `Compilation.isBaseChain_baseChain`: the chain of base classes;
* `Compilation.countP_derivedTypes`: of each derived type one declaration is listed;
* `Compilation.inheritance_isWellFormed`: all together.
-/

namespace Disposal

namespace TypeDecl

private theorem same_iff {a b : TypeDecl} : a.same b = true ↔ a.name = b.name ∧ a.isInterface = b.isInterface := by
  rw [same, Bool.and_eq_true, beq_iff_eq, beq_iff_eq]

private theorem same_refl (a : TypeDecl) : a.same a = true := same_iff.2 ⟨rfl, rfl⟩

private theorem same_comm (a b : TypeDecl) : a.same b = b.same a := by
  rw [Bool.eq_iff_iff, same_iff, same_iff, eq_comm, and_congr_right_iff]
  exact fun _ => eq_comm

/-- Parts of one type are the same as the same declarations. -/
private theorem same_congr {a b : TypeDecl} (h : a.same b = true) (d : TypeDecl) : a.same d = b.same d := by
  obtain ⟨hname, hinterface⟩ := same_iff.1 h
  rw [same, same, hname, hinterface]

private theorem same_congr_right {a b : TypeDecl} (h : a.same b = true) (d : TypeDecl) : d.same a = d.same b := by
  rw [same_comm d a, same_comm d b, same_congr h]

end TypeDecl

namespace Compilation

variable {c : Compilation} {t u : TypeDecl}

/-! ### Parts of a type -/

private theorem mem_parts_iff : u ∈ c.parts t ↔ u ∈ c.types ∧ t.same u = true := by
  rw [parts, List.mem_filter, mem_typesNamed, and_assoc]
  exact and_congr_right fun _ => ⟨And.right, fun h => ⟨(TypeDecl.same_iff.1 h).1.symm, h⟩⟩

section

variable (h : t.same u = true)

include h

private theorem parts_congr : c.parts t = c.parts u := by
  rw [parts, parts, (TypeDecl.same_iff.1 h).1]
  congr 1
  funext d
  exact TypeDecl.same_congr h d

private theorem members_congr : c.members t = c.members u := by
  rw [members, members, parts_congr h]

private theorem baseClass?_congr : c.baseClass? t = c.baseClass? u := by
  unfold baseClass?
  simp only [parts_congr h, TypeDecl.same_congr_right h]

private theorem extendChain_congr (room : Nat) (chain : List TypeDecl) (b? : Option TypeDecl) :
    c.extendChain t room chain b? = c.extendChain u room chain b? := by
  induction room generalizing chain b? with
  | zero => rfl
  | succ room ih =>
    cases b? with
    | none => rfl
    | some b => rw [extendChain, extendChain, TypeDecl.same_congr_right h, ih]

/-- The parts of a type have the same base classes. -/
theorem baseChain_congr : c.baseChain t = c.baseChain u := by
  rw [baseChain, baseChain, baseClass?_congr h, extendChain_congr h]

private theorem ownMember?_congr (name : String) (arity? : Option Nat) :
    c.ownMember? t name arity? = c.ownMember? u name arity? := by
  rw [ownMember?, ownMember?, methodsNamed, methodsNamed, members_congr h]

/-- Members are looked up in all parts of a type. -/
theorem lookupMember?_congr (name : String) (arity? : Option Nat) :
    c.lookupMember? t name arity? = c.lookupMember? u name arity? := by
  rw [lookupMember?, lookupMember?, List.findSome?_cons, List.findSome?_cons, ownMember?_congr h, baseChain_congr h]

end

/-! ### The chain of base classes -/

private theorem baseClass?_eq_some {b : TypeDecl} (h : c.baseClass? t = some b) :
    b ∈ c.types ∧ b.isInterface = false ∧ b.same t = false := by
  obtain ⟨name, -, hb⟩ := List.exists_of_findSome?_eq_some h
  have hother := List.find?_some hb
  rw [Bool.and_eq_true, Bool.not_eq_true', Bool.not_eq_true'] at hother
  exact ⟨(mem_typesNamed.1 (List.mem_of_find?_eq_some hb)).1, hother⟩

/-- The way from a type along base classes has met no type twice. -/
structure IsTrail (c : Compilation) (t : TypeDecl) (chain : List TypeDecl) : Prop where
  linked : (t :: chain).IsChain fun a b => c.baseClass? a = some b
  others : ∀ b ∈ chain, b.same t = false
  distinct : chain.Pairwise fun a b => a.same b = false

/-- The way from a type along base classes goes on as long as it meets no type twice, through at most 25 of them. -/
structure IsBaseChain (c : Compilation) (t : TypeDecl) (chain : List TypeDecl) : Prop extends IsTrail c t chain where
  length_le : chain.length ≤ 25
  /-- A base class behind the last one is of a type that has been met, unless there is no room for it. -/
  ends : ∀ last b, (t :: chain).getLast? = some last → c.baseClass? last = some b → chain.length < 25 →
    ∃ a ∈ t :: chain, a.same b = true

variable {chain chain' : List TypeDecl} {last b : TypeDecl}

private theorem getLast?_cons_append (t : TypeDecl) (chain : List TypeDecl) (b : TypeDecl) :
    (t :: (chain ++ [b])).getLast? = some b := by
  rw [← List.cons_append, List.getLast?_concat]

theorem IsTrail.nil : c.IsTrail t [] := ⟨.singleton t, nofun, .nil⟩

/-- A trail leads from each type to its base class. -/
private theorem IsTrail.exists_baseClass? (h : c.IsTrail t chain) (hb : b ∈ chain) : ∃ a, c.baseClass? a = some b := by
  have linked := h.linked
  clear h
  induction chain generalizing t with
  | nil => cases hb
  | cons a chain ih =>
    obtain ⟨hstep, hrest⟩ := List.isChain_cons_cons.1 linked
    rcases List.mem_cons.1 hb with rfl | hb
    · exact ⟨t, hstep⟩
    · exact ih hb hrest

/-- A trail is extended by a type that it has not met. -/
private theorem IsTrail.concat (h : c.IsTrail t chain) (hlast : (t :: chain).getLast? = some last)
    (hb : c.baseClass? last = some b) (hnew : ¬∃ a ∈ t :: chain, a.same b = true) : c.IsTrail t (chain ++ [b]) := by
  have hne : ∀ a ∈ t :: chain, a.same b = false := by
    intro a ha
    rw [Bool.eq_false_iff]
    exact fun hab => hnew ⟨a, ha, hab⟩
  constructor
  · rw [← List.cons_append]
    refine h.linked.append (.singleton b) ?_
    intro x hx y hy
    rw [hlast] at hx
    cases hx
    cases hy
    exact hb
  · intro x hx
    rcases List.mem_append.1 hx with hx | hx
    · exact h.others x hx
    · rw [List.mem_singleton.1 hx, TypeDecl.same_comm]
      exact hne t List.mem_cons_self
  · rw [List.pairwise_append]
    refine ⟨h.distinct, List.pairwise_singleton .., ?_⟩
    intro a ha x hx
    rw [List.mem_singleton.1 hx]
    exact hne a (List.mem_cons_of_mem t ha)

/-- A trail does not go on to a type that it has met. -/
private theorem IsTrail.not_met (h : c.IsTrail t (chain ++ b :: chain')) : ¬∃ a ∈ t :: chain, a.same b = true := by
  rintro ⟨a, ha, hab⟩
  have hfalse : a.same b = false := by
    rcases List.mem_cons.1 ha with rfl | ha
    · rw [TypeDecl.same_comm]
      exact h.others b (by simp)
    · exact (List.pairwise_append.1 h.distinct).2.2 a ha b List.mem_cons_self
  rw [hfalse] at hab
  cases hab

/-- Whether a type has been met. -/
private theorem met_iff (t : TypeDecl) (chain : List TypeDecl) (b : TypeDecl) :
    (b.same t || chain.any (·.same b)) = true ↔ ∃ a ∈ t :: chain, a.same b = true := by
  rw [TypeDecl.same_comm b t, ← List.any_eq_true, List.any_cons]

private theorem isBaseChain_extendChain {room : Nat} (h : c.IsTrail t chain) (hlast : (t :: chain).getLast? = some last)
    (hlen : chain.length + room = 25) : c.IsBaseChain t (c.extendChain t room chain (c.baseClass? last)) := by
  induction room generalizing chain last with
  | zero =>
    rw [extendChain]
    exact { h with length_le := by omega, ends := fun _ _ _ _ hroom => by omega }
  | succ room ih =>
    cases hb : c.baseClass? last with
    | none =>
      refine { h with length_le := by rw [extendChain]; omega, ends := fun l b hl hb' _ => ?_ }
      rw [extendChain, hlast] at hl
      cases hl
      rw [hb] at hb'
      cases hb'
    | some b =>
      rw [extendChain]
      split
      · next hmet =>
        refine { h with length_le := by omega, ends := fun l b' hl hb' _ => ?_ }
        rw [hlast] at hl
        cases hl
        rw [hb] at hb'
        cases hb'
        exact (met_iff t chain b).1 hmet
      · next hnew =>
        refine ih (h.concat hlast hb fun hmet => hnew ((met_iff t chain b).2 hmet)) (getLast?_cons_append t chain b) ?_
        rw [List.length_append, List.length_singleton]
        omega

theorem isBaseChain_baseChain (c : Compilation) (t : TypeDecl) : c.IsBaseChain t (c.baseChain t) :=
  isBaseChain_extendChain .nil rfl rfl

/-- Of two ways along base classes one goes on from the other. -/
private theorem prefix_or_prefix_of_linked (h : (t :: chain).IsChain fun a b => c.baseClass? a = some b)
    (h' : (t :: chain').IsChain fun a b => c.baseClass? a = some b) : chain <+: chain' ∨ chain' <+: chain := by
  induction chain generalizing t chain' with
  | nil => exact .inl (List.nil_prefix)
  | cons a chain ih =>
    cases chain' with
    | nil => exact .inr (List.nil_prefix)
    | cons a' chain' =>
      obtain ⟨ha, h⟩ := List.isChain_cons_cons.1 h
      obtain ⟨ha', h'⟩ := List.isChain_cons_cons.1 h'
      rw [ha] at ha'
      cases ha'
      rw [List.prefix_cons_inj, List.prefix_cons_inj]
      exact ih h h'

/-- A trail does not go on where a chain of base classes ends. -/
private theorem IsBaseChain.eq_of_prefix (h : c.IsBaseChain t chain) (h' : c.IsBaseChain t chain')
    (hp : chain <+: chain') : chain = chain' := by
  obtain ⟨rest, rfl⟩ := hp
  cases rest with
  | nil => rw [List.append_nil]
  | cons b rest =>
    exfalso
    obtain ⟨last, hlast⟩ : ∃ last, (t :: chain).getLast? = some last := ⟨_, List.getLast?_cons⟩
    have hstep : c.baseClass? last = some b := by
      have hlinked := h'.linked
      rw [← List.cons_append] at hlinked
      exact (List.isChain_append.1 hlinked).2.2 last hlast b rfl
    have hlen := h'.length_le
    rw [List.length_append, List.length_cons] at hlen
    exact h'.not_met (h.ends last b hlast hstep (by omega))

/-- There is one chain of base classes. -/
private theorem baseChain_eq_iff : c.baseChain t = chain ↔ c.IsBaseChain t chain := by
  constructor
  · rintro rfl
    exact isBaseChain_baseChain c t
  · intro h
    have h' := isBaseChain_baseChain c t
    rcases prefix_or_prefix_of_linked h'.linked h.linked with hp | hp
    · exact h'.eq_of_prefix h hp
    · exact (h.eq_of_prefix h' hp).symm

/-! ### Derived types -/

/-- Whether a type is another one than `t` and has it among its base classes. -/
def derivesFrom (c : Compilation) (d t : TypeDecl) : Bool := !d.same t && (c.baseChain d).any (·.same t)

private theorem derivesFrom_congr {d e : TypeDecl} (h : d.same e = true) : c.derivesFrom d t = c.derivesFrom e t := by
  rw [derivesFrom, derivesFrom, TypeDecl.same_congr h, baseChain_congr h]

private theorem addDerived_eq (found : List TypeDecl) (d : TypeDecl) :
    c.addDerived t found d = if c.derivesFrom d t && !found.any (·.same d) then found ++ [d] else found := by
  unfold addDerived derivesFrom
  cases d.same t <;> cases found.any (·.same d) <;> cases (c.baseChain d).any (·.same t) <;> rfl

private theorem mem_of_mem_foldl_addDerived {ds : List TypeDecl} (h : t ∈ ds.foldl (c.addDerived u) []) : t ∈ ds := by
  induction ds using List.reverseRecOn with
  | nil => cases h
  | append_singleton ds d ih =>
    rw [List.foldl_concat, addDerived_eq] at h
    rw [List.mem_append]
    split at h
    · rcases List.mem_append.1 h with h | h
      · exact .inl (ih h)
      · exact .inr h
    · exact .inl (ih h)

/-- Among the derived types found in a list there is one declaration of each type that the list declares. -/
private theorem countP_foldl_addDerived (ds : List TypeDecl) (d : TypeDecl) :
    (ds.foldl (c.addDerived t) []).countP (·.same d) = if c.derivesFrom d t && ds.any (·.same d) then 1 else 0 := by
  induction ds using List.reverseRecOn with
  | nil => simp
  | append_singleton ds e ih =>
    rw [List.foldl_concat, addDerived_eq, List.any_append, List.any_cons, List.any_nil, Bool.or_false]
    generalize ds.foldl (c.addDerived t) [] = found at ih
    cases hed : e.same d with
    | false =>
      have hskip : (found ++ [e]).countP (·.same d) = found.countP (·.same d) := by
        rw [List.countP_append, List.countP_singleton, hed]
        rfl
      rw [Bool.or_false, ← ih]
      split
      · exact hskip
      · rfl
    | true =>
      have hadd : (found ++ [e]).countP (·.same d) = found.countP (·.same d) + 1 := by
        rw [List.countP_append, List.countP_singleton, hed]
        rfl
      -- a part of the type of `d` has been found exactly if one has been passed
      have hfound : found.any (·.same e) = (c.derivesFrom d t && ds.any (·.same d)) := by
        simp only [TypeDecl.same_congr_right hed]
        rw [Bool.eq_iff_iff, List.any_eq_true, ← List.countP_pos_iff, ih]
        split <;> simp [*]
      rw [derivesFrom_congr hed, hfound, Bool.or_true, Bool.and_true]
      cases hd : c.derivesFrom d t with
      | false =>
        rw [hd] at ih
        exact ih
      | true =>
        rw [hd] at ih
        cases hs : ds.any (·.same d) with
        | false =>
          rw [hs] at ih
          exact hadd.trans (congrArg (· + 1) ih)
        | true =>
          rw [hs] at ih
          exact ih

/-- Of each derived type one declaration is listed, and no declaration of any other type. -/
theorem countP_derivedTypes {d : TypeDecl} (hd : d ∈ c.types) :
    (c.derivedTypes t).countP (·.same d) = if c.derivesFrom d t then 1 else 0 := by
  have hany : c.types.any (·.same d) = true := List.any_eq_true.2 ⟨d, hd, d.same_refl⟩
  rw [derivedTypes, countP_foldl_addDerived, hany, Bool.and_true]

/-- What a type inherits, in every compilation: its chain of base classes is the one that goes from base class to base
class until it would meet a type twice or has 25 entries, which are all classes; the parts of a type have the same
members, base classes and inherited members; and the derived types are listed by one declaration of each. -/
theorem inheritance_isWellFormed (c : Compilation) (t : TypeDecl) :
    (∀ chain, c.baseChain t = chain ↔ c.IsBaseChain t chain) ∧
      (∀ b ∈ c.baseChain t, b ∈ c.types ∧ b.isInterface = false) ∧
      (∀ u ∈ c.parts t, c.members u = c.members t ∧ c.baseClass? u = c.baseClass? t ∧
        c.baseChain u = c.baseChain t ∧
        ∀ name arity?, c.lookupMember? u name arity? = c.lookupMember? t name arity?) ∧
      (∀ d ∈ c.derivedTypes t, d ∈ c.types) ∧
      ∀ d ∈ c.types, (c.derivedTypes t).countP (·.same d) =
        if !d.same t && (c.baseChain d).any (·.same t) then 1 else 0 := by
  refine ⟨fun _ => baseChain_eq_iff, ?_, ?_, fun _ => mem_of_mem_foldl_addDerived, fun _ => countP_derivedTypes⟩
  · intro b hb
    obtain ⟨a, ha⟩ := (isBaseChain_baseChain c t).exists_baseClass? hb
    exact ⟨(baseClass?_eq_some ha).1, (baseClass?_eq_some ha).2.1⟩
  · intro u hu
    have h := (mem_parts_iff.1 hu).2
    exact ⟨(members_congr h).symm, (baseClass?_congr h).symm, (baseChain_congr h).symm,
      fun name arity? => (lookupMember?_congr h name arity?).symm⟩

/-- Bases that lead round in circles, and a ladder the top of which is not reached. -/
example : (ofDocuments [Sample.circling]).types.map (fun t =>
      (t.name, ((ofDocuments [Sample.circling]).baseChain t).map (·.name),
        ((ofDocuments [Sample.circling]).derivedTypes t).map (·.name))) =
      [("A", ["B"], ["B", "C"]), ("B", ["A"], ["A", "C"]), ("B", ["A"], ["A", "C"]), ("C", ["A", "B"], []),
       ("D", ["E"], ["E"]), ("E", ["D"], ["D"])] ∧
    ((ofDocuments [Sample.ladder 30]).types.map fun t =>
      ((ofDocuments [Sample.ladder 30]).baseChain t).length).getLast? = some 25 := by decide +kernel

end Compilation

end Disposal
