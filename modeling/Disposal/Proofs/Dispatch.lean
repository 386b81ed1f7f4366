import Mathlib.Data.List.FinRange
import Mathlib.Data.List.Induction
import Disposal.Engine
import Disposal.Proofs.Places
import Disposal.Proofs.Sketch

/-!
# Dispatch

The index of a registry is kept in step with its rules however they are put in, and a walk that leaves out declarations
lists the nodes that are neither left out nor lie in one that is. So every rule is called on every node whose word it
lists and that is not left out, once, and the calls come in the order of the nodes and, at one node, of the rules.

* `Registry.subscribers_push`, `Registry.subscribers_ofRules`: the index, rule by rule;
* `Node.walk_eq`, `Node.pairwise_number_preorder`: walks go from node to node in the order of their numbers;
* `Exclusion.visible_eq_filter`: what a walk leaves out;
* `Registry.dispatch_isExact`: the calls of a registry.
-/

namespace Disposal

/-! ### The index -/

namespace KindIndex

private theorem positions_cons (kind : String) (is : List Nat) (rest : KindIndex) (k : String) :
    positions ((kind, is) :: rest) k = if k = kind then is else positions rest k := by
  unfold positions
  rw [List.lookup_cons]
  by_cases h : k = kind
  · rw [if_pos h, beq_iff_eq.2 h]
    rfl
  · rw [if_neg h, beq_eq_false_iff_ne.2 h]

/-- A position is entered for one word only. -/
private theorem positions_enter (position : Nat) (index : KindIndex) (k k' : String) :
    (enter position index k).positions k' = index.positions k' ++ List.replicate ([k].count k') position := by
  induction index with
  | nil =>
    rw [enter, positions_cons]
    by_cases h : k' = k
    · subst h
      simp [positions]
    · simp [positions, h, Ne.symm h]
  | cons entry rest ih =>
    obtain ⟨kind, is⟩ := entry
    rw [enter]
    by_cases h : kind = k
    · subst h
      rw [if_pos rfl, positions_cons, positions_cons]
      by_cases hk : k' = kind
      · subst hk
        simp
      · simp [hk, Ne.symm hk]
    · rw [if_neg h, positions_cons, positions_cons]
      by_cases hk : k' = kind
      · subst hk
        simp [Ne.symm h]
      · rw [if_neg hk, if_neg hk, ih]

private theorem positions_enterAll (position : Nat) (index : KindIndex) (ks : List String) (k : String) :
    (ks.foldl (enter position) index).positions k = index.positions k ++ List.replicate (ks.count k) position := by
  induction ks generalizing index with
  | nil => simp
  | cons k' ks ih =>
    rw [List.foldl_cons, ih, positions_enter, List.append_assoc, List.replicate_append_replicate,
      ← List.count_append, List.singleton_append]

end KindIndex

namespace Registry

variable {rules : List Rule}

private theorem subscribers_eq_filterMap (g : Registry) (k : String) :
    g.subscribers k = (g.index.positions k).filterMap fun i => g.rules[i]? := by
  have hget : ∀ is : List Nat, ∀ his : ∀ i ∈ is, i < g.rules.length,
      is.pmap (fun i h => g.rules.get ⟨i, h⟩) his = is.filterMap fun i => g.rules[i]? := by
    intro is his
    induction is with
    | nil => rfl
    | cons i is ih =>
      have hi := List.getElem?_eq_getElem (his i List.mem_cons_self)
      rw [List.pmap_cons, List.filterMap_cons_some hi, ih]
      rfl
  exact hget _ _

/-- A rule that is put in looks at a node as often as it lists the word for the node, after all others. -/
theorem subscribers_push (g : Registry) (r : Rule) (k : String) :
    (g.push r).subscribers k = g.subscribers k ++ List.replicate (r.kinds.count k) r := by
  have hpositions : (g.push r).index.positions k =
      g.index.positions k ++ List.replicate (r.kinds.count k) g.rules.length :=
    KindIndex.positions_enterAll ..
  have hrules : (g.push r).rules = g.rules ++ [r] := rfl
  have hold : (g.index.positions k).filterMap (fun i => (g.rules ++ [r])[i]?) = g.subscribers k := by
    rw [subscribers_eq_filterMap]
    refine List.filterMap_congr fun i hi => ?_
    rw [List.getElem?_append_left (lt_of_mem_positions hi)]
  rw [subscribers_eq_filterMap, hpositions, hrules, List.filterMap_append, hold]
  simp

private theorem ofRules_concat (rules : List Rule) (r : Rule) : ofRules (rules ++ [r]) = (ofRules rules).push r := by
  rw [ofRules, List.foldl_concat, ofRules]

theorem subscribers_ofRules (rules : List Rule) (k : String) :
    (ofRules rules).subscribers k = rules.flatMap fun r => List.replicate (r.kinds.count k) r := by
  induction rules using List.reverseRecOn with
  | nil => rfl
  | append_singleton rules r ih =>
    rw [ofRules_concat, subscribers_push, ih, List.flatMap_append, List.flatMap_singleton]

private theorem rulesFor_ofRules_eq_flatMap (rules : List Rule) (n : Node) :
    (ofRules rules).rulesFor n = rules.flatMap fun r => List.replicate (r.kinds.count n.label.text) r :=
  subscribers_ofRules rules n.label.text

theorem mem_of_mem_rulesFor {n : Node} {r : Rule} (h : r ∈ (ofRules rules).rulesFor n) : r ∈ rules := by
  rw [rulesFor_ofRules_eq_flatMap] at h
  obtain ⟨s, hs, hr⟩ := List.mem_flatMap.1 h
  rwa [(List.mem_replicate.1 hr).2]

/-- A part of some rules looks at nodes as it does among all of them. -/
theorem rulesFor_filter (p : Rule → Bool) (rules : List Rule) (n : Node) :
    (ofRules (rules.filter p)).rulesFor n = ((ofRules rules).rulesFor n).filter p := by
  rw [rulesFor_ofRules_eq_flatMap, rulesFor_ofRules_eq_flatMap]
  induction rules with
  | nil => rfl
  | cons r rules ih =>
    rw [List.flatMap_cons, List.filter_append, List.filter_replicate, ← ih, List.filter_cons]
    split
    · rw [List.flatMap_cons]
    · rw [List.nil_append]

/-- Rules that list no word twice look at a node at most once. -/
private theorem rulesFor_ofRules (h : ∀ r ∈ rules, r.kinds.Nodup) (n : Node) :
    (ofRules rules).rulesFor n = rules.filter fun r => r.kinds.contains n.label.text := by
  rw [rulesFor_ofRules_eq_flatMap]
  induction rules with
  | nil => rfl
  | cons r rules ih =>
    rw [List.flatMap_cons, (h r List.mem_cons_self).count, List.filter_cons,
      ih fun s hs => h s (List.mem_cons_of_mem r hs)]
    by_cases hr : n.label.text ∈ r.kinds
    · rw [if_pos hr, if_pos (List.contains_iff_mem.2 hr)]
      rfl
    · rw [if_neg hr, if_neg (by simpa using hr)]
      rfl

end Registry

/-! ### Walks -/

namespace Node

private theorem walkTrees_eq_flatMap (enter : Node → Bool) (doc : Nat) (parent : Tree) (above : List Frame) (i : Nat)
    (ts : List Tree) :
    walkTrees enter doc parent above i ts =
      (ts.zipIdx i).flatMap fun (t, j) => walkTree enter doc (⟨parent, j⟩ :: above) t := by
  induction ts generalizing i with
  | nil => rfl
  | cons t ts ih => rw [walkTrees, ih, List.zipIdx_cons, List.flatMap_cons]

/-- A walk goes through a node and then through its children one after the other. -/
theorem walk_eq (n : Node) (enter : Node → Bool) :
    n.walk enter = n :: if enter n then n.children.flatMap (·.walk enter) else [] := by
  obtain ⟨doc, above, ⟨h, cs⟩⟩ := n
  show walkTree enter doc above (.node h cs) = _
  rw [walkTree, walkTrees_eq_flatMap, children, List.flatMap_map]
  rfl

private theorem preorder_eq (n : Node) : n.preorder = n :: n.children.flatMap preorder := walk_eq n _

/-- A walk lists nodes by their numbers. -/
theorem pairwise_number_preorder (n : Node) : n.preorder.Pairwise fun a b => a.number < b.number := by
  rw [preorder_eq, List.pairwise_cons, List.pairwise_flatMap]
  refine ⟨?_, fun c hc => ?_, ?_⟩
  · intro x hx
    obtain ⟨c, hc, hx⟩ := List.mem_flatMap.1 hx
    obtain ⟨i, t, -, rfl⟩ := mem_children_iff.1 hc
    have := (number_of_mem_preorder hx).1
    rw [number_child] at this
    omega
  · have := sizeOf_of_mem_children hc
    exact pairwise_number_preorder c
  · unfold children
    rw [List.pairwise_map, List.pairwise_iff_getElem]
    intro i j hi hj hij x hx y hy
    simp only [List.getElem_zipIdx, Nat.zero_add] at hx hy
    rw [List.length_zipIdx] at hi
    -- what lies below the earlier child ends before the later one begins
    have hsize := Tree.sizeAll_take_le_of_lt (List.getElem?_eq_getElem hi) hij
    have hlast := (number_of_mem_preorder hx).2
    have hfirst := (number_of_mem_preorder hy).1
    rw [number_child] at hlast hfirst
    have ht : (n.child i n.here.children[i]).here = n.here.children[i] := rfl
    rw [ht] at hlast
    omega
termination_by sizeOf n.here

end Node

/-! ### Declarations that are left out -/

namespace Exclusion

/-- Whether a node is neither left out nor lies in a declaration that is. -/
def shows (e : Exclusion) (n : Node) : Bool := (n :: n.ancestors).all fun a => !e.excludesDeclaration a

private theorem shows_iff {e : Exclusion} {n : Node} :
    e.shows n = true ↔ ∀ a ∈ n :: n.ancestors, e.excludesDeclaration a = false := by
  rw [shows, List.all_eq_true]
  simp only [Bool.not_eq_true']

private theorem shows_of_mem_children {e : Exclusion} {n c : Node} (hc : c ∈ n.children) :
    e.shows c = (!e.excludesDeclaration c && e.shows n) := by
  rw [shows, shows, Node.ancestors_of_mem_children hc, List.all_cons]

/-- A node that lies in a declaration that is left out is left out. -/
private theorem shows_eq_false_of_mem_preorder {e : Exclusion} {n x : Node} (h : e.shows n = false)
    (hx : x ∈ n.preorder) : e.shows x = false := by
  revert h
  refine Node.preorder_induction (motive := fun n => e.shows n = false → e.shows x = false) id ?_ n hx
  intro n c hc _ ih hn
  exact ih (by rw [shows_of_mem_children hc, hn, Bool.and_false])

/-- From a node in no declaration that is left out, a walk lists what is not left out. -/
private theorem filter_walk_eq_filter {e : Exclusion} (n : Node)
    (h : ∀ a ∈ n.ancestors, e.excludesDeclaration a = false) :
    (n.walk fun m => !e.excludesDeclaration m).filter (fun m => !e.excludesDeclaration m) =
      n.preorder.filter e.shows := by
  have hshows : e.shows n = !e.excludesDeclaration n := by
    have hall : (n.ancestors.all fun a => !e.excludesDeclaration a) = true := by
      rw [List.all_eq_true]
      exact fun a ha => by rw [h a ha]; rfl
    rw [shows, List.all_cons, hall, Bool.and_true]
  cases hn : e.excludesDeclaration n with
  | true =>
    rw [hn] at hshows
    have hnone : n.preorder.filter e.shows = [] := by
      rw [List.filter_eq_nil_iff]
      intro x hx
      rw [shows_eq_false_of_mem_preorder hshows hx]
      exact Bool.false_ne_true
    rw [hnone, Node.walk_eq, hn]
    simp [hn]
  | false =>
    have hup : ∀ a ∈ n :: n.ancestors, e.excludesDeclaration a = false := by
      intro a ha
      rcases List.mem_cons.1 ha with rfl | ha
      · exact hn
      · exact h a ha
    rw [Node.walk_eq, Node.preorder_eq, hn, List.filter_cons_of_pos (by rw [hn]; rfl),
      List.filter_cons_of_pos (by rw [hshows, hn]; rfl)]
    simp only [Bool.not_false, if_true, List.filter_flatMap]
    congr 1
    refine List.flatMap_congr fun c hc => ?_
    have := Node.sizeOf_of_mem_children hc
    exact filter_walk_eq_filter c (by rwa [Node.ancestors_of_mem_children hc])
termination_by sizeOf n.here

/-- The nodes of a document that are looked at. -/
theorem visible_eq_filter (e : Exclusion) (doc : Nat) (tree : Tree) :
    e.visible (.root doc tree) = (Node.root doc tree).preorder.filter e.shows :=
  filter_walk_eq_filter _ nofun

end Exclusion

/-! ### Calls -/

namespace Registry

/-- The calls of rules, which are told by their positions, on nodes below a root: every rule is called on every node
whose word it lists and that is not left out, once; the calls come in the order of the nodes and, at one node, of the
rules. -/
structure IsExact (rules : List Rule) (exclusion : Exclusion) (root : Node)
    (calls : List (Fin rules.length × Node)) : Prop where
  mem_iff : ∀ i n, (i, n) ∈ calls ↔ n ∈ root.preorder ∧ n.label.text ∈ (rules.get i).kinds ∧
    ∀ a ∈ n :: n.ancestors, exclusion.excludesDeclaration a = false
  nodup : calls.Nodup
  inOrder : calls.Pairwise fun a b => a.2.number < b.2.number ∨ a.2 = b.2 ∧ a.1 < b.1

/-- The calls as they are made: at each node that is not left out, those of the rules that list its word. -/
def callsIn (rules : List Rule) (exclusion : Exclusion) (root : Node) : List (Fin rules.length × Node) :=
  (root.preorder.filter exclusion.shows).flatMap fun n =>
    ((List.finRange rules.length).filter fun i => (rules.get i).kinds.contains n.label.text).map (·, n)

variable (rules : List Rule) (exclusion : Exclusion) (root : Node)

private theorem pairwise_callsIn : (callsIn rules exclusion root).Pairwise fun a b =>
    a.2.number < b.2.number ∨ a.2 = b.2 ∧ a.1 < b.1 := by
  rw [callsIn, List.pairwise_flatMap]
  constructor
  · intro n _
    rw [List.pairwise_map]
    exact ((List.pairwise_lt_finRange _).filter _).imp fun hij => .inr ⟨rfl, hij⟩
  · refine ((Node.pairwise_number_preorder root).filter _).imp ?_
    intro n m hnm x hx y hy
    obtain ⟨i, -, rfl⟩ := List.mem_map.1 hx
    obtain ⟨j, -, rfl⟩ := List.mem_map.1 hy
    exact .inl hnm

private theorem isExact_callsIn : IsExact rules exclusion root (callsIn rules exclusion root) where
  mem_iff i n := by
    simp only [callsIn, List.mem_flatMap, List.mem_map, List.mem_filter, List.mem_finRange, true_and, Prod.mk.injEq,
      Exclusion.shows_iff, List.contains_iff_mem]
    constructor
    · rintro ⟨m, ⟨hm, hshows⟩, j, hj, rfl, rfl⟩
      exact ⟨hm, hj, hshows⟩
    · rintro ⟨hn, hi, hshows⟩
      exact ⟨n, ⟨hn, hshows⟩, i, hi, rfl, rfl⟩
  nodup := (pairwise_callsIn rules exclusion root).imp fun {a b} hab heq => by
    subst heq
    rcases hab with hab | ⟨-, hab⟩ <;> exact absurd hab (lt_irrefl _)
  inOrder := pairwise_callsIn rules exclusion root

/-- Some elements of a list, by their positions. -/
private theorem filter_eq_map_finRange {α : Type} (p : α → Bool) (xs : List α) :
    xs.filter p = ((List.finRange xs.length).filter fun i => p (xs.get i)).map xs.get := by
  conv_lhs => rw [← List.map_get_finRange xs]
  rw [List.filter_map]
  rfl

/-- Whatever rules are put into a registry one after the other, as long as none of them lists a word twice, the calls
that it makes on a document are exact. -/
theorem dispatch_isExact (hkinds : ∀ r ∈ rules, r.kinds.Nodup) (doc : Nat) (tree : Tree) :
    ∃ calls, IsExact rules exclusion (.root doc tree) calls ∧
      (ofRules rules).dispatch exclusion (.root doc tree) = calls.map fun (i, n) => (rules.get i, n) := by
  refine ⟨callsIn rules exclusion _, isExact_callsIn .., ?_⟩
  rw [dispatch, Exclusion.visible_eq_filter, callsIn, List.map_flatMap]
  refine List.flatMap_congr fun n _ => ?_
  rw [rulesFor_ofRules hkinds, filter_eq_map_finRange, List.map_map, List.map_map]
  rfl

end Registry

namespace Sample

open Sketch

/-- `class A{void M(){x.Dispose();}}class B{void M(){x.Dispose();}}`, the first class with a mark in front of it that
says that a tool wrote it. -/
def halfGenerated : Document :=
  let disposing := method [] void "M" [] [statement (call (access (name "x") "Dispose") [])]
  document "A.cs" [marked (mark "GeneratedCode" "a" "b") (classOf "A" [disposing]), classOf "B" [disposing]]

end Sample

/-- The theorem for all rules, on a document with a class that is left out. -/
theorem Registry.dispatch_isExact_halfGenerated :
    (∀ r ∈ Rule.all, r.kinds.Nodup) ∧
      ∃ calls, IsExact Rule.all {} (.root 0 Sample.halfGenerated.tree) calls ∧
        (ofRules Rule.all).dispatch {} (.root 0 Sample.halfGenerated.tree) =
          calls.map fun (i, n) => (Rule.all.get i, n) :=
  have hkinds : ∀ r ∈ Rule.all, r.kinds.Nodup := by decide +kernel
  ⟨hkinds, dispatch_isExact Rule.all {} hkinds 0 Sample.halfGenerated.tree⟩

/-- The calls in the class that is not left out. -/
example : ((Registry.ofRules Rule.all).dispatch {} (.root 0 Sample.halfGenerated.tree)).map
    (fun (r, n) => (r.lint, n.number)) =
      [(.callBaseDispose, 48), (.dontIgnoreCreated, 56), (.dontDisposeInjected, 57), (.suppressFinalizeThis, 57)] := by
  decide +kernel

end Disposal
