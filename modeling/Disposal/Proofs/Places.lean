import Disposal.Compilation
import Disposal.Proofs.Nodes

/-!
# The places of a compilation

The nodes of the trees of a compilation, how many there are, and their *ranks*: the number of a node when children are
counted before their parents. Going down from a node, or to an earlier one beside it, lowers the rank.

* `Compilation.HasPlace.of_mem_preorder`, `Compilation.HasPlace.of_mem_ancestors`: places below and above places;
* `Compilation.length_places`: there are as many places as the trees have nodes;
* `Node.rank_lt_of_mem_children`, `Node.rank_lt_of_index_lt`: what lowers the rank;
* `Compilation.HasPlace.eq_of_id`: places are told apart by their numbers;
* `Compilation.HasPlace.rank_le`: no rank exceeds the number of nodes.
-/

namespace Disposal

namespace Tree

private theorem sizeAll_append (ts us : List Tree) : sizeAll (ts ++ us) = sizeAll ts + sizeAll us := by
  induction ts with
  | nil => rw [List.nil_append, sizeAll, Nat.zero_add]
  | cons t ts ih => rw [List.cons_append, sizeAll, sizeAll, ih, Nat.add_assoc]

private theorem size_pos (t : Tree) : 0 < t.size := by
  obtain ⟨h, cs⟩ := t
  exact Nat.succ_pos _

/-- The trees in front of an element, and that element, are no larger than the whole list. -/
private theorem sizeAll_take_add_size {ts : List Tree} {i : Nat} {t : Tree} (h : ts[i]? = some t) :
    sizeAll (ts.take i) + t.size ≤ sizeAll ts := by
  obtain ⟨hi, rfl⟩ := List.getElem?_eq_some_iff.1 h
  have hsplit : ts = ts.take i ++ ts[i] :: ts.drop (i + 1) := by simp
  have hsize := congrArg sizeAll hsplit
  rw [sizeAll_append, sizeAll] at hsize
  omega

theorem sizeAll_take_le_of_lt {ts : List Tree} {i j : Nat} {t : Tree} (h : ts[i]? = some t) (hij : i < j) :
    sizeAll (ts.take i) + t.size ≤ sizeAll (ts.take j) := by
  have h' : (ts.take j)[i]? = some t := by rw [List.getElem?_take_of_lt hij, h]
  have := sizeAll_take_add_size h'
  rwa [List.take_take, Nat.min_eq_left (Nat.le_of_lt hij)] at this

end Tree

namespace Node

/-! ### Ranks -/

/-- The number of nodes that come before the children of the steps up. -/
def before : List Frame → Nat
  | [] => 0
  | f :: fs => Tree.sizeAll (f.parent.children.take f.index) + before fs

/-- The number of a node when children are counted before their parents. -/
def rank (n : Node) : Nat := before n.above + n.here.size

theorem rank_pos (n : Node) : 0 < n.rank := Nat.add_pos_right _ n.here.size_pos

theorem rank_lt_of_mem_children {n c : Node} (h : c ∈ n.children) : c.rank < n.rank := by
  obtain ⟨i, t, ht, rfl⟩ := mem_children_iff.1 h
  obtain ⟨doc, above, ⟨hd, cs⟩⟩ := n
  have := Tree.sizeAll_take_add_size ht
  show Tree.sizeAll (cs.take i) + before above + t.size < before above + (Tree.sizeAll cs + 1)
  simp only [Tree.children] at this
  omega

theorem rank_le_of_mem_preorder {n x : Node} (h : x ∈ n.preorder) : x.rank ≤ n.rank :=
  preorder_induction (motive := fun n => x.rank ≤ n.rank) (Nat.le_refl _)
    (fun _ _ hc _ ih => Nat.le_of_lt (Nat.lt_of_le_of_lt ih (rank_lt_of_mem_children hc))) n h

/-- Of two nodes beside each other, the earlier has the lower rank. -/
theorem rank_lt_of_index_lt {n : Node} {i j : Nat} {t u : Tree} (ht : n.here.children[i]? = some t) (hij : i < j) :
    (n.child i t).rank < (n.child j u).rank := by
  have h₁ := Tree.sizeAll_take_le_of_lt ht hij
  have h₂ := Tree.size_pos u
  show Tree.sizeAll (n.here.children.take i) + before n.above + t.size <
    Tree.sizeAll (n.here.children.take j) + before n.above + u.size
  omega

/-- The children stand in the order of their ranks. -/
theorem pairwise_rank_children (n : Node) : n.children.Pairwise fun a b => a.rank < b.rank := by
  unfold children
  rw [List.pairwise_map, List.pairwise_iff_getElem]
  intro i j hi hj hij
  simp only [List.getElem_zipIdx, Nat.zero_add]
  apply rank_lt_of_index_lt _ hij
  rw [List.length_zipIdx] at hi
  exact List.getElem?_eq_getElem hi

theorem pairwise_rank_named (n : Node) : n.named.Pairwise fun a b => a.rank < b.rank :=
  n.pairwise_rank_children.filter _

/-- The first of the named children has the lowest rank. -/
theorem rank_lt_of_firstNamed? {n first c : Node} (hf : n.firstNamed? = some first) (hc : c ∈ n.named)
    (hne : (first == c) = false) : first.rank < c.rank := by
  have hsorted := n.pairwise_rank_named
  unfold firstNamed? at hf
  cases hl : n.named with
  | nil =>
    rw [hl] at hf
    cases hf
  | cons a as =>
    rw [hl] at hf hc hsorted
    cases hf
    rcases List.mem_cons.1 hc with rfl | hc
    · rw [beq_refl] at hne
      cases hne
    · exact (List.pairwise_cons.1 hsorted).1 c hc

/-! ### Numbers -/

theorem number_child (n : Node) (i : Nat) (t : Tree) :
    (n.child i t).number = Tree.sizeAll (n.here.children.take i) + 1 + n.number := rfl

/-- The numbers below a node follow its own without a gap. -/
theorem number_of_mem_preorder {n x : Node} (h : x ∈ n.preorder) :
    n.number ≤ x.number ∧ x.number < n.number + n.here.size := by
  refine preorder_induction (motive := fun n => n.number ≤ x.number ∧ x.number < n.number + n.here.size) ?_ ?_ n h
  · have := x.here.size_pos
    omega
  · rintro n c hc - ⟨hle, hlt⟩
    obtain ⟨i, t, ht, rfl⟩ := mem_children_iff.1 hc
    have hsize := Tree.sizeAll_take_add_size ht
    have hn : n.here.size = Tree.sizeAll n.here.children + 1 := by
      obtain ⟨doc, above, ⟨hd, cs⟩⟩ := n
      rfl
    have hc : (n.child i t).here.size = t.size := rfl
    rw [number_child] at hle hlt
    omega

/-! ### Counting -/

mutual

private theorem length_walkTree (doc : Nat) (above : List Frame) (t : Tree) :
    (walkTree (fun _ => true) doc above t).length = t.size := by
  obtain ⟨h, cs⟩ := t
  rw [walkTree, Tree.size, List.length_cons, if_pos rfl, length_walkTrees]

private theorem length_walkTrees (doc : Nat) (parent : Tree) (above : List Frame) (i : Nat) (ts : List Tree) :
    (walkTrees (fun _ => true) doc parent above i ts).length = Tree.sizeAll ts := by
  cases ts with
  | nil => rfl
  | cons t ts => rw [walkTrees, List.length_append, Tree.sizeAll, length_walkTree, length_walkTrees]

end

end Node

namespace Compilation

/-- The node is a place in one of the trees of the compilation. -/
inductive HasPlace (c : Compilation) : Node → Prop
  | root {r : Node} (h : r ∈ c.roots) : HasPlace c r
  | child {n k : Node} (h : HasPlace c n) (hk : k ∈ n.children) : HasPlace c k

/-- All places of a compilation. -/
def places (c : Compilation) : List Node := c.roots.flatMap Node.preorder

theorem length_places (c : Compilation) : c.places.length = c.size := by
  have key : ∀ (ds : List Document) (i : Nat),
      (((ds.zipIdx i).map fun x => Node.root x.2 x.1.tree).flatMap Node.preorder).length =
        Tree.sizeAll (ds.map (·.tree)) := by
    intro ds
    induction ds with
    | nil => intro i; rfl
    | cons d ds ih =>
      intro i
      rw [List.zipIdx_cons, List.map_cons, List.flatMap_cons, List.length_append, ih, List.map_cons, Tree.sizeAll]
      exact congrArg (· + _) (Node.length_walkTree i [] d.tree)
  exact key c.documents 0

theorem HasPlace.mem_places {c : Compilation} {n : Node} (h : c.HasPlace n) : n ∈ c.places := by
  induction h with
  | root h => exact List.mem_flatMap.2 ⟨_, h, Node.mem_preorder_self _⟩
  | child _ hk ih =>
    obtain ⟨r, hr, hn⟩ := List.mem_flatMap.1 ih
    exact List.mem_flatMap.2 ⟨r, hr, Node.mem_preorder_trans hn (Node.mem_preorder_of_mem_children hk)⟩

theorem HasPlace.of_mem_preorder {c : Compilation} {n x : Node} (h : c.HasPlace n) (hx : x ∈ n.preorder) :
    c.HasPlace x := by
  revert h
  refine Node.preorder_induction (motive := fun n => c.HasPlace n → c.HasPlace x) id ?_ n hx
  intro n k hk _ ih hn
  exact ih (.child hn hk)

theorem mem_places_iff {c : Compilation} {n : Node} : n ∈ c.places ↔ c.HasPlace n := by
  refine ⟨fun h => ?_, HasPlace.mem_places⟩
  obtain ⟨r, hr, hn⟩ := List.mem_flatMap.1 h
  exact (HasPlace.root hr).of_mem_preorder hn

/-- A place is a child of the node above it. -/
theorem HasPlace.of_parent? {c : Compilation} {n p : Node} (h : c.HasPlace n) (hp : n.parent? = some p) :
    c.HasPlace p ∧ n ∈ p.children := by
  cases h with
  | root hr =>
    obtain ⟨⟨d, i⟩, -, rfl⟩ := List.mem_map.1 hr
    cases hp
  | child hn hk =>
    rw [Node.parent?_of_mem_children hk] at hp
    cases hp
    exact ⟨hn, hk⟩

theorem HasPlace.of_mem_ancestors {c : Compilation} {n a : Node} (h : c.HasPlace n) (ha : a ∈ n.ancestors) :
    c.HasPlace a := by
  induction h with
  | root hr =>
    obtain ⟨⟨d, i⟩, -, rfl⟩ := List.mem_map.1 hr
    cases ha
  | child hn hk ih =>
    rw [Node.ancestors_of_mem_children hk] at ha
    rcases List.mem_cons.1 ha with rfl | ha
    · exact hn
    · exact ih ha

/-- Places with one number are one place. -/
theorem HasPlace.eq_of_id {c : Compilation} {n k : Node} (hn : c.HasPlace n) (hk : c.HasPlace k) (h : n.id = k.id) :
    n = k := by
  induction hn generalizing k with
  | root hr =>
    obtain ⟨⟨d, i⟩, hd, rfl⟩ := List.mem_map.1 hr
    cases hk with
    | root hr' =>
      obtain ⟨⟨d', j⟩, hd', rfl⟩ := List.mem_map.1 hr'
      obtain rfl : i = j := congrArg Node.Id.doc h
      have hdocs := List.mem_zipIdx_iff_getElem?.1 hd
      rw [List.mem_zipIdx_iff_getElem?.1 hd'] at hdocs
      cases hdocs
      rfl
    | child _ hk =>
      obtain ⟨j, hj⟩ := Node.path_of_mem_children hk
      rw [← h] at hj
      cases hj
  | @child p n hp hn ih =>
    obtain ⟨i, hi⟩ := Node.path_of_mem_children hn
    cases hk with
    | root hr =>
      obtain ⟨⟨d, j⟩, -, rfl⟩ := List.mem_map.1 hr
      rw [h] at hi
      cases hi
    | @child q _ hq hk =>
      obtain ⟨j, hj⟩ := Node.path_of_mem_children hk
      have hpath : i :: p.id.path = j :: q.id.path := by rw [← hi, ← hj, h]
      have hdoc : p.id.doc = q.id.doc := by
        show p.doc = q.doc
        rw [← Node.doc_of_mem_children hn, ← Node.doc_of_mem_children hk]
        exact congrArg Node.Id.doc h
      have hpq : p.id = q.id := by
        calc p.id = ⟨p.id.doc, p.id.path⟩ := rfl
          _ = ⟨q.id.doc, q.id.path⟩ := by rw [hdoc, (List.cons.inj hpath).2]
          _ = q.id := rfl
      obtain rfl := ih hq hpq
      exact Node.eq_of_mem_children hn hk h

/-- No rank exceeds the number of nodes. -/
theorem HasPlace.rank_le {c : Compilation} {n : Node} (h : c.HasPlace n) : n.rank ≤ c.size := by
  induction h with
  | root hr =>
    obtain ⟨⟨d, i⟩, hd, rfl⟩ := List.mem_map.1 hr
    have hmem : c.documents[i]? = some d := List.mem_zipIdx_iff_getElem?.1 hd
    have hle : Tree.sizeAll _ + d.tree.size ≤ Tree.sizeAll (c.documents.map (·.tree)) :=
      Tree.sizeAll_take_add_size (i := i) (by rw [List.getElem?_map, hmem]; rfl)
    show 0 + d.tree.size ≤ c.size
    unfold size
    omega
  | child _ hk ih => exact Nat.le_of_lt (Nat.lt_of_lt_of_le (Node.rank_lt_of_mem_children hk) ih)

end Compilation

namespace Node

/-- A place lies below all nodes above it. -/
theorem mem_preorder_of_mem_ancestors {c : Compilation} {n a : Node} (h : c.HasPlace n) (ha : a ∈ n.ancestors) :
    n ∈ a.preorder := by
  obtain ⟨root, hroot, hn⟩ := List.mem_flatMap.1 h.mem_places
  obtain ⟨⟨d, i⟩, -, rfl⟩ := List.mem_map.1 hroot
  exact mem_preorder_of_root rfl hn ha

theorem doc_of_mem_preorder {n x : Node} (h : x ∈ n.preorder) : x.doc = n.doc :=
  preorder_induction (motive := fun n => x.doc = n.doc) rfl
    (fun _ _ hk _ ih => ih.trans (doc_of_mem_children hk)) n h

end Node

end Disposal
