import Disposal.Order
import Disposal.Proofs.Places

/-!
# Where the ways to two nodes part

Two nodes of a tree neither of which lies below the other lie below two children of one node. `Order.fork?` finds that
node, and what `Order.executedBefore` answers is told by the two children and by the steps further down.

* `Node.exists_parting`, `Order.fork?_of_children`: the node where the ways part, and that it is found;
* `Order.onWay_iff`: what is looked at on a way up, as a statement about the steps below a child;
* `Order.region?_of_fork`: two nodes of one region have no other region on the ways to where they part;
* `Order.executedBefore_eq_always_iff`, `Order.executedBefore_eq_never_iff`: when the answer is `always` and `never`.
-/

namespace Disposal

namespace Node

/-! ### Ways down -/

theorem length_path_lt {n c x : Node} (hc : c ∈ n.children) (hx : x ∈ c.preorder) :
    n.id.path.length < x.id.path.length := by
  obtain ⟨i, hi⟩ := path_of_mem_children hc
  obtain ⟨l, hl⟩ := exists_path_of_mem_preorder hx
  rw [hl, hi, List.length_append, List.length_cons]
  omega

theorem length_path_le {n x : Node} (hx : x ∈ n.preorder) : n.id.path.length ≤ x.id.path.length := by
  obtain ⟨l, hl⟩ := exists_path_of_mem_preorder hx
  rw [hl, List.length_append]
  omega

/-- Different children of a node have nothing below them in common. -/
theorem eq_of_mem_preorder {n c d x : Node} (hc : c ∈ n.children) (hd : d ∈ n.children) (hxc : x ∈ c.preorder)
    (hxd : x ∈ d.preorder) : c = d := by
  obtain ⟨l, hl⟩ := exists_path_of_mem_preorder hxc
  obtain ⟨l', hl'⟩ := exists_path_of_mem_preorder hxd
  exact eq_of_append_path hc hd (hl.symm.trans hl')

/-- Of two nodes above a third one, one lies below the other. -/
theorem mem_preorder_or {n x y z : Node} (hx : x ∈ n.preorder) (hy : y ∈ n.preorder) (hzx : z ∈ x.preorder)
    (hzy : z ∈ y.preorder) : x ∈ y.preorder ∨ y ∈ x.preorder := by
  refine preorder_induction (motive := fun n => y ∈ n.preorder → x ∈ y.preorder ∨ y ∈ x.preorder) .inr ?_ n hx hy
  intro n c hc hxc ih hy
  rcases mem_preorder_iff.1 hy with rfl | ⟨d, hd, hyd⟩
  · exact .inl (mem_preorder_of_child hc hxc)
  · obtain rfl := eq_of_mem_preorder hc hd (mem_preorder_trans hxc hzx) (mem_preorder_trans hyd hzy)
    exact ih hyd

/-- The way up from a node goes through every node that it lies below. -/
theorem exists_ancestors {n x : Node} (h : x ∈ n.preorder) :
    ∃ l, x :: x.ancestors = l ++ n :: n.ancestors ∧ ∀ m ∈ l, ∃ c ∈ n.children, m ∈ c.preorder := by
  refine preorder_induction (motive := fun n => ∃ l, x :: x.ancestors = l ++ n :: n.ancestors ∧
    ∀ m ∈ l, ∃ c ∈ n.children, m ∈ c.preorder) ⟨[], rfl, by simp⟩ ?_ n h
  rintro n c hc - ⟨l, hl, hm⟩
  refine ⟨l ++ [c], ?_, ?_⟩
  · rw [hl, ancestors_of_mem_children hc, List.append_assoc]
    rfl
  · intro m hmem
    refine ⟨c, hc, ?_⟩
    rcases List.mem_append.1 hmem with hmem | hmem
    · obtain ⟨d, hd, hmd⟩ := hm m hmem
      exact mem_preorder_of_child hd hmd
    · rw [List.mem_singleton.1 hmem]
      exact mem_preorder_self c

/-- Below a root, everything on the way up from a node lies below the root too. -/
theorem mem_root_of_mem_ancestors {root x m : Node} (hroot : root.ancestors = []) (hx : x ∈ root.preorder)
    (hm : m ∈ x :: x.ancestors) : m ∈ root.preorder := by
  obtain ⟨xs, hxs, hbelow⟩ := exists_ancestors hx
  rw [hxs, hroot] at hm
  rcases List.mem_append.1 hm with hm | hm
  · obtain ⟨c, hc, hmc⟩ := hbelow m hm
    exact mem_preorder_of_child hc hmc
  · rw [List.mem_singleton.1 hm]
    exact mem_preorder_self root

/-- A node of a tree is only below nodes of that tree. -/
theorem mem_root_of_mem_preorder {root n x : Node} (hroot : root.ancestors = []) (hx : x ∈ root.preorder)
    (hn : x ∈ n.preorder) : n ∈ root.preorder := by
  obtain ⟨xs, hxs, -⟩ := exists_ancestors hn
  apply mem_root_of_mem_ancestors hroot hx
  rw [hxs]
  simp

theorem contains_of_mem_preorder {n x : Node} (h : x ∈ n.preorder) : n.contains x = true := by
  rcases mem_preorder_iff.1 h with rfl | ⟨c, hc, hx⟩
  · rw [contains, beq_refl, Bool.true_or]
  · obtain ⟨l, hl, -⟩ := exists_ancestors h
    have hmem : n ∈ x.ancestors := by
      cases l with
      | nil =>
        have hlen := length_path_lt hc hx
        obtain ⟨rfl, -⟩ := List.cons.inj hl
        omega
      | cons y l =>
        obtain ⟨-, hl⟩ := List.cons.inj hl
        simp [hl]
    have habove : n.isAbove x = true := List.any_eq_true.2 ⟨n, hmem, beq_refl n⟩
    rw [contains, habove, Bool.or_true]

/-- Two nodes below a node neither of which lies below the other lie below different children of one node. -/
theorem exists_parting {n a b : Node} (ha : a ∈ n.preorder) (hb : b ∈ n.preorder) (hab : b ∉ a.preorder)
    (hba : a ∉ b.preorder) :
    ∃ top ∈ n.preorder, ∃ l ∈ top.children, ∃ r ∈ top.children, l ≠ r ∧ a ∈ l.preorder ∧ b ∈ r.preorder := by
  refine preorder_induction (motive := fun n => b ∈ n.preorder → ∃ top ∈ n.preorder, ∃ l ∈ top.children,
    ∃ r ∈ top.children, l ≠ r ∧ a ∈ l.preorder ∧ b ∈ r.preorder) (fun hb => absurd hb hab) ?_ n ha hb
  intro n c hc hac ih hb
  rcases mem_preorder_iff.1 hb with rfl | ⟨d, hd, hbd⟩
  · exact absurd (mem_preorder_of_child hc hac) hba
  · by_cases hcd : c = d
    · subst hcd
      obtain ⟨top, htop, h⟩ := ih hbd
      exact ⟨top, mem_preorder_of_child hc htop, h⟩
    · exact ⟨n, mem_preorder_self n, c, hc, d, hd, hcd, hac, hbd⟩

/-- The ways to two nodes part above every node that lies on one of them only. -/
theorem mem_preorder_of_parting {root top n l r a b : Node} (hn : n ∈ root.preorder) (htop : top ∈ root.preorder)
    (hl : l ∈ top.children) (hr : r ∈ top.children) (ha : a ∈ l.preorder) (hb : b ∈ r.preorder)
    (han : a ∈ n.preorder) (hbn : b ∉ n.preorder) : n ∈ l.preorder := by
  rcases mem_preorder_or hn htop han (mem_preorder_of_child hl ha) with hmem | hmem
  · rcases mem_preorder_iff.1 hmem with rfl | ⟨d, hd, hnd⟩
    · exact absurd (mem_preorder_of_child hr hb) hbn
    · obtain rfl := eq_of_mem_preorder hd hl (mem_preorder_trans hnd han) ha
      exact hnd
  · exact absurd (mem_preorder_trans hmem (mem_preorder_of_child hr hb)) hbn

/-! ### Numbers -/

/-- Of two nodes below different children, that with the lower number lies below the child of the lower rank. -/
theorem rank_lt_of_number_lt {n l r a b : Node} (hl : l ∈ n.children) (hr : r ∈ n.children) (hlr : l ≠ r)
    (ha : a ∈ l.preorder) (hb : b ∈ r.preorder) (h : a.number < b.number) : l.rank < r.rank := by
  obtain ⟨i, t, ht, rfl⟩ := mem_children_iff.1 hl
  obtain ⟨j, u, hu, rfl⟩ := mem_children_iff.1 hr
  rcases Nat.lt_trichotomy i j with hij | rfl | hij
  · exact rank_lt_of_index_lt ht hij
  · rw [ht] at hu
    cases hu
    exact absurd rfl hlr
  · have h₁ := (number_of_mem_preorder ha).1
    have h₂ := (number_of_mem_preorder hb).2
    have hsize := Tree.sizeAll_take_le_of_lt hu hij
    have hr : (n.child j u).here.size = u.size := rfl
    rw [number_child] at h₁ h₂
    omega

end Node

namespace Order

/-! ### The fork that is found -/

private theorem below?_eq_none {u : Node} {path : List Node} (h : ∀ y ∈ path, (y == u) = false) :
    below? u path = none := by
  induction path with
  | nil => rfl
  | cons x path ih =>
    cases path with
    | nil => rfl
    | cons y rest =>
      rw [below?, h y (by simp), if_neg (by simp)]
      exact ih fun z hz => h z (List.mem_cons_of_mem x hz)

private theorem below?_append {top l : Node} {xs rest : List Node} (hxs : ∀ y ∈ xs, (y == top) = false)
    (hl : (l == top) = false) : below? top (xs ++ l :: top :: rest) = some l := by
  induction xs with
  | nil => rw [List.nil_append, below?, if_pos (Node.beq_refl top)]
  | cons x xs ih =>
    have ih := ih fun y hy => hxs y (List.mem_cons_of_mem x hy)
    cases xs with
    | nil =>
      rw [List.cons_append, List.nil_append, below?, hl, if_neg (by simp)]
      exact ih
    | cons y xs =>
      rw [List.cons_append, List.cons_append, below?, hxs y (by simp), if_neg (by simp)]
      exact ih

private theorem forkFrom?_eq {path ups xs rest : List Node} {top l r x : Node} (hx : x :: ups = xs ++ r :: top :: rest)
    (hnone : ∀ m ∈ xs ++ [r], below? m path = none) (htop : below? top path = some l) :
    forkFrom? path x ups = some ⟨top, l, r⟩ := by
  induction xs generalizing x ups with
  | nil =>
    obtain ⟨rfl, rfl⟩ := List.cons.inj hx
    rw [forkFrom?, htop]
  | cons y xs ih =>
    obtain ⟨rfl, rfl⟩ := List.cons.inj hx
    cases xs with
    | nil =>
      show forkFrom? path x (r :: top :: rest) = _
      rw [forkFrom?, hnone r (by simp)]
      exact ih rfl fun m hm => hnone m (List.mem_cons_of_mem x hm)
    | cons z xs =>
      show forkFrom? path x (z :: (xs ++ r :: top :: rest)) = _
      rw [forkFrom?, hnone z (by simp)]
      exact ih rfl fun m hm => hnone m (List.mem_cons_of_mem x hm)

section

variable {top l r a b : Node} (hl : l ∈ top.children) (hr : r ∈ top.children) (hlr : l ≠ r) (ha : a ∈ l.preorder)
  (hb : b ∈ r.preorder)

include hl hr hlr ha hb

/-- The ways to what lies below two children of a node part at that node. -/
theorem fork?_of_children : fork? a b = some ⟨top, l, r⟩ := by
  obtain ⟨xs, hxs, hxl⟩ := Node.exists_ancestors ha
  obtain ⟨ys, hys, hyr⟩ := Node.exists_ancestors hb
  rw [Node.ancestors_of_mem_children hl] at hxs
  rw [Node.ancestors_of_mem_children hr] at hys
  have below : ∀ {k : Node} {zs : List Node}, (∀ m ∈ zs, ∃ c ∈ k.children, m ∈ c.preorder) →
      ∀ m ∈ zs ++ [k], m ∈ k.preorder := by
    intro k zs hz m hm
    rcases List.mem_append.1 hm with hm | hm
    · obtain ⟨c, hc, hmc⟩ := hz m hm
      exact Node.mem_preorder_of_child hc hmc
    · rw [List.mem_singleton.1 hm]
      exact Node.mem_preorder_self k
  have hnot : ∀ {k m : Node}, k ∈ top.children → m ∈ k.preorder → (m == top) = false := by
    intro k m hk hm
    exact Node.beq_eq_false_of_length_ne (Nat.ne_of_gt (Node.length_path_lt hk hm))
  have other : ∀ m ∈ ys ++ [r], below? m (a :: a.ancestors) = none := by
    intro m hm
    have hrm := below hyr m hm
    apply below?_eq_none
    intro y hy
    rw [hxs, ← List.singleton_append, ← List.append_assoc, List.mem_append] at hy
    rw [Bool.eq_false_iff]
    intro hym
    rcases hy with hy | hy
    · -- below different children there are no two nodes with one place
      obtain ⟨p, hp⟩ := Node.exists_path_of_mem_preorder (below hxl y hy)
      obtain ⟨q, hq⟩ := Node.exists_path_of_mem_preorder hrm
      rw [← Node.beq_iff.1 hym, hp] at hq
      exact hlr (Node.eq_of_append_path hl hr hq)
    · -- `top` and what is above it lie higher than `m`
      have hle : y.id.path.length ≤ top.id.path.length := by
        rcases List.mem_cons.1 hy with rfl | hy
        · exact Nat.le_refl _
        · obtain ⟨p, hp⟩ := Node.exists_path_of_mem_ancestors hy
          rw [hp, List.length_append]
          omega
      have hlt := Node.length_path_lt hr hrm
      rw [Node.beq_iff.1 hym] at hle
      omega
  have meet : below? top (a :: a.ancestors) = some l := by
    rw [hxs]
    exact below?_append (fun y hy => hnot hl (below hxl y (List.mem_append_left _ hy)))
      (hnot hl (Node.mem_preorder_self l))
  exact forkFrom?_eq hys other meet

end

/-! ### Steps of a way up -/

/-- Whether `f` holds of a step of a way up, not counting that to `stop`. -/
def onWay (f : Node → Node → Bool) (stop child : Node) : List Node → Bool
  | [] => false
  | parent :: rest => if parent == stop then false else f parent child || onWay f stop parent rest

private theorem conditionalOn_eq_onWay (stop child : Node) (ups : List Node) :
    conditionalOn stop child ups = onWay isConditionalChild stop child ups := by
  induction ups generalizing child with
  | nil => rfl
  | cons p ups ih => rw [conditionalOn, onWay, ih]

/-- Without a region on the way, the way to `stop` is not cut short. -/
private theorem skippedOn_eq_onWay {n stop child : Node} {ups : List Node}
    (h : onWay (fun p _ => p.isRegion) stop child ups = false) :
    skippedOn n stop child ups = onWay (leavesBefore n) stop child ups := by
  induction ups generalizing child with
  | nil => rfl
  | cons p ups ih =>
    rw [onWay] at h
    rw [skippedOn, onWay]
    by_cases hp : (p == stop) = true
    · simp [hp]
    · simp only [hp, Bool.false_eq_true, if_false, Bool.or_eq_false_iff] at h
      rw [ih h.2]
      simp [hp, h.1]

/-- A step of the way up from a node below `c` leads from a child to a node below `c`. -/
theorem onWay_iff {f : Node → Node → Bool} {stop c n : Node} (hc : c ∈ stop.children) (hn : n ∈ c.preorder) :
    onWay f stop n n.ancestors = true ↔ ∃ p ∈ c.preorder, ∃ k ∈ p.children, n ∈ k.preorder ∧ f p k = true := by
  have key : c ∈ c.preorder → (onWay f stop n n.ancestors = true ↔
      (∃ p ∈ c.preorder, ∃ k ∈ p.children, n ∈ k.preorder ∧ f p k = true) ∨
        onWay f stop c c.ancestors = true) := by
    -- from `n` upwards, each node on the way adds one step
    refine Node.preorder_induction (motive := fun m => m ∈ c.preorder → (onWay f stop n n.ancestors = true ↔
      (∃ p ∈ m.preorder, ∃ k ∈ p.children, n ∈ k.preorder ∧ f p k = true) ∨
        onWay f stop m m.ancestors = true)) ?_ ?_ c hn
    · intro _
      refine ⟨.inr, fun h => h.resolve_left ?_⟩
      rintro ⟨p, hp, k, hk, hnk, -⟩
      have h₁ := Node.length_path_le hp
      have h₂ := Node.length_path_lt hk hnk
      omega
    · intro m k hk hnk ih hm
      have hstop : (m == stop) = false :=
        Node.beq_eq_false_of_length_ne (Nat.ne_of_gt (Node.length_path_lt hc hm))
      rw [ih (Node.mem_preorder_trans hm (Node.mem_preorder_of_mem_children hk)), Node.ancestors_of_mem_children hk,
        onWay, hstop, if_neg Bool.false_ne_true, Bool.or_eq_true, ← or_assoc]
      refine or_congr_left ⟨?_, ?_⟩
      · rintro (⟨p, hp, h⟩ | h)
        · exact ⟨p, Node.mem_preorder_of_child hk hp, h⟩
        · exact ⟨m, Node.mem_preorder_self m, k, hk, hnk, h⟩
      · rintro ⟨p, hp, j, hj, hnj, h⟩
        rcases Node.mem_preorder_iff.1 hp with rfl | ⟨i, hi, hpi⟩
        · obtain rfl := Node.eq_of_mem_preorder hj hk hnj hnk
          exact .inr h
        · have hni := Node.mem_preorder_trans hpi (Node.mem_preorder_of_child hj hnj)
          obtain rfl := Node.eq_of_mem_preorder hi hk hni hnk
          exact .inl ⟨p, hpi, j, hj, hnj, h⟩
  rw [key (Node.mem_preorder_self c), Node.ancestors_of_mem_children hc, onWay, if_pos (Node.beq_refl stop)]
  simp

private theorem isConditional_iff {stop c n : Node} (hc : c ∈ stop.children) (hn : n ∈ c.preorder) :
    isConditional n stop = true ↔
      ∃ p ∈ c.preorder, ∃ k ∈ p.children, n ∈ k.preorder ∧ isConditionalChild p k = true := by
  rw [isConditional, conditionalOn_eq_onWay, onWay_iff hc hn]

private theorem isSkipped_iff {stop c n : Node} (hc : c ∈ stop.children) (hn : n ∈ c.preorder)
    (hregion : ∀ p ∈ c.preorder, ∀ k ∈ p.children, n ∈ k.preorder → p.isRegion = false) :
    isSkipped n stop = true ↔
      ∃ p ∈ c.preorder, ∃ k ∈ p.children, n ∈ k.preorder ∧ leavesBefore n p k = true := by
  have hnone : onWay (fun p _ => p.isRegion) stop n n.ancestors = false := by
    rw [Bool.eq_false_iff, Ne, onWay_iff hc hn]
    rintro ⟨p, hp, k, hk, hnk, h⟩
    rw [hregion p hp k hk hnk] at h
    cases h
  rw [isSkipped, skippedOn_eq_onWay hnone, onWay_iff hc hn]

/-! ### Regions -/

theorem region?_of_mem_children {n c : Node} (hc : c ∈ n.children) :
    c.region? = if n.isRegion then some n else n.region? := by
  rw [Node.region?, Node.nearest?, Node.ancestors_of_mem_children hc, List.find?_cons]
  unfold Node.isRegion Node.region? Node.nearest?
  cases n.isAny Node.regions <;> rfl

/-- A node lies in a region below `m`, or in the region of `m` without another one between. -/
theorem region?_of_mem_preorder {m n : Node} (h : n ∈ m.preorder) :
    (∃ region ∈ m.preorder, n.region? = some region) ∨
      (n.region? = m.region? ∧ ∀ p ∈ m.preorder, ∀ k ∈ p.children, n ∈ k.preorder → p.isRegion = false) := by
  refine Node.preorder_induction (motive := fun m => (∃ region ∈ m.preorder, n.region? = some region) ∨
    (n.region? = m.region? ∧ ∀ p ∈ m.preorder, ∀ k ∈ p.children, n ∈ k.preorder → p.isRegion = false)) ?_ ?_ m h
  · refine .inr ⟨rfl, ?_⟩
    intro p hp k hk hnk
    have h₁ := Node.length_path_le hp
    have h₂ := Node.length_path_lt hk hnk
    omega
  · rintro m k hk hnk (⟨region, hmem, hregion⟩ | ⟨hregion, hway⟩)
    · exact .inl ⟨region, Node.mem_preorder_of_child hk hmem, hregion⟩
    · rw [region?_of_mem_children hk] at hregion
      cases hm : m.isRegion with
      | true =>
        rw [hm, if_pos rfl] at hregion
        exact .inl ⟨m, Node.mem_preorder_self m, hregion⟩
      | false =>
        rw [hm, if_neg Bool.false_ne_true] at hregion
        refine .inr ⟨hregion, ?_⟩
        intro p hp j hj hnj
        rcases Node.mem_preorder_iff.1 hp with rfl | ⟨i, hi, hpi⟩
        · exact hm
        · have hni := Node.mem_preorder_trans hpi (Node.mem_preorder_of_child hj hnj)
          obtain rfl := Node.eq_of_mem_preorder hi hk hni hnk
          exact hway p hpi j hj hnj

section

variable {top l r a b : Node} (hl : l ∈ top.children) (hr : r ∈ top.children) (hlr : l ≠ r) (ha : a ∈ l.preorder)
  (hb : b ∈ r.preorder)

include hl hr hlr ha hb

omit ha in
/-- The region of `b` does not lie below another child than `b` does. -/
private theorem not_mem_preorder_of_region? {region region' : Node} (hb' : b.region? = some region')
    (h : (region == region') = true) : region ∉ l.preorder := by
  intro hmem
  obtain ⟨p, hp⟩ := Node.exists_path_of_mem_preorder hmem
  obtain ⟨q, hq⟩ := Node.exists_path_of_mem_ancestors (List.mem_of_find?_eq_some hb')
  obtain ⟨q', hq'⟩ := Node.exists_path_of_mem_preorder hb
  rw [← Node.beq_iff.1 h, hp, hq', ← List.append_assoc] at hq
  exact hlr (Node.eq_of_append_path hr hl hq).symm

/-- Two nodes of one region have no region on the ways to where they part. -/
theorem region?_of_fork {region region' : Node} (ha' : a.region? = some region) (hb' : b.region? = some region')
    (h : (region == region') = true) :
    region = region' ∧ l.region? = some region ∧
      ∀ p ∈ l.preorder, ∀ k ∈ p.children, a ∈ k.preorder → p.isRegion = false := by
  have h' : (region' == region) = true := Node.beq_iff.2 (Node.beq_iff.1 h).symm
  have hnot := not_mem_preorder_of_region? hl hr hlr hb hb' h
  have hnot' := not_mem_preorder_of_region? hr hl hlr.symm ha ha' h'
  rcases region?_of_mem_preorder ha with ⟨s, hs, has⟩ | ⟨hal, hway⟩
  · rw [ha'] at has
    cases has
    exact absurd hs hnot
  rcases region?_of_mem_preorder hb with ⟨s, hs, hbs⟩ | ⟨hbr, -⟩
  · rw [hb'] at hbs
    cases hbs
    exact absurd hs hnot'
  have hlr' : l.region? = r.region? := by
    rw [Node.region?, Node.region?, Node.nearest?, Node.nearest?, Node.ancestors_of_mem_children hl,
      Node.ancestors_of_mem_children hr]
  rw [ha'] at hal
  rw [hb', ← hlr', ← hal] at hbr
  exact ⟨(Option.some.inj hbr).symm, hal.symm, hway⟩

end

/-! ### When the answer is `always` -/

/-- Nothing below a child `l` that leads down to `a` may be left out, or left before `a` runs. -/
def IsCertain (l a : Node) : Prop :=
  ∀ p ∈ l.preorder, ∀ k ∈ p.children, a ∈ k.preorder →
    isConditionalChild p k = false ∧ leavesBefore a p k = false

/-- Two nodes lie in one region, in which there is no `goto`. -/
def ShareRegion (a b : Node) : Prop :=
  ∃ region, a.region? = some region ∧ b.region? = some region ∧ hasGoto region = false

private theorem isCertain_iff {top l a : Node} (hl : l ∈ top.children) (ha : a ∈ l.preorder)
    (hway : ∀ p ∈ l.preorder, ∀ k ∈ p.children, a ∈ k.preorder → p.isRegion = false) :
    IsCertain l a ↔ isConditional a top = false ∧ isSkipped a top = false := by
  rw [Bool.eq_false_iff, Bool.eq_false_iff, Ne, Ne, isConditional_iff hl ha, isSkipped_iff hl ha hway]
  constructor
  · intro h
    constructor <;> rintro ⟨p, hp, k, hk, hak, hpk⟩
    · rw [(h p hp k hk hak).1] at hpk
      cases hpk
    · rw [(h p hp k hk hak).2] at hpk
      cases hpk
  · rintro ⟨h₁, h₂⟩ p hp k hk hak
    constructor <;> rw [Bool.eq_false_iff] <;> intro hpk
    · exact h₁ ⟨p, hp, k, hk, hak, hpk⟩
    · exact h₂ ⟨p, hp, k, hk, hak, hpk⟩

section

variable {top l r a b : Node} (hl : l ∈ top.children) (hr : r ∈ top.children) (hlr : l ≠ r) (ha : a ∈ l.preorder)
  (hb : b ∈ r.preorder)

include hl hr hlr ha hb

/-- Neither of two nodes below different children holds the other. -/
private theorem executedBefore_of_fork :
    executedBefore a b =
      match a.region?, b.region? with
      | some ra, some rb => if ra == rb then within ra a b else sometimes
      | _, _ => sometimes := by
  have hab := Node.contains_eq_false_of_ne hl hr hlr ha hb
  have hba := Node.contains_eq_false_of_ne hr hl hlr.symm hb ha
  have hne : (a == b) = false := (Bool.or_eq_false_iff.1 hab).1
  calc executedBefore a b
    _ = if a == b then never else if a.contains b || b.contains a then sometimes else
        match a.region?, b.region? with
        | some ra, some rb => if ra == rb then within ra a b else sometimes
        | _, _ => sometimes := rfl
    _ = _ := by simp only [hne, hab, hba, Bool.or_false, Bool.false_eq_true, if_false]

/-- What the answer `always` rests on. -/
theorem executedBefore_eq_always_iff :
    executedBefore a b = always ↔ ofChildren top l r = always ∧ ShareRegion a b ∧ IsCertain l a := by
  have hfork := fork?_of_children hl hr hlr ha hb
  rw [executedBefore_of_fork hl hr hlr ha hb]
  constructor
  · intro h
    split at h
    · next ra rb hra hrb =>
      split at h
      · next hrr =>
        obtain ⟨rfl, -, hway⟩ := region?_of_fork hl hr hlr ha hb hra hrb hrr
        simp only [within, hfork] at h
        split at h
        · next ho =>
          split at h
          · cases h
          · next hc =>
            simp only [Bool.or_eq_true, not_or, Bool.not_eq_true] at hc
            exact ⟨ho, ⟨ra, hra, hrb, hc.2⟩, (isCertain_iff hl ha hway).2 hc.1⟩
        · split at h <;> cases h
        · cases h
      · cases h
    · cases h
  · rintro ⟨ho, ⟨region, hra, hrb, hgoto⟩, hcertain⟩
    obtain ⟨-, -, hway⟩ := region?_of_fork hl hr hlr ha hb hra hrb (Node.beq_refl region)
    obtain ⟨hcond, hskip⟩ := (isCertain_iff hl ha hway).1 hcertain
    simp only [hra, hrb, Node.beq_refl, if_true, within, hfork, ho, hcond, hskip, hgoto]
    rfl

/-- What the answer `never` rests on. -/
theorem executedBefore_eq_never_iff :
    executedBefore a b = never ↔
      ofChildren top l r = never ∧ (∃ region, a.region? = some region ∧ b.region? = some region) ∧
        inLoop top = false := by
  have hfork := fork?_of_children hl hr hlr ha hb
  rw [executedBefore_of_fork hl hr hlr ha hb]
  constructor
  · intro h
    split at h
    · next ra rb hra hrb =>
      split at h
      · next hrr =>
        obtain ⟨rfl, -, -⟩ := region?_of_fork hl hr hlr ha hb hra hrb hrr
        simp only [within, hfork] at h
        split at h
        · split at h <;> cases h
        · next ho =>
          split at h
          · cases h
          · next hloop => exact ⟨ho, ⟨ra, hra, hrb⟩, Bool.eq_false_iff.2 hloop⟩
        · cases h
      · cases h
    · cases h
  · rintro ⟨ho, ⟨region, hra, hrb⟩, hloop⟩
    simp only [hra, hrb, Node.beq_refl, if_true, within, hfork, ho, hloop]
    rfl

/-- Children that come in either order leave the answer open. -/
theorem executedBefore_eq_sometimes (ho : ofChildren top l r = sometimes) : executedBefore a b = sometimes := by
  rw [executedBefore_of_fork hl hr hlr ha hb]
  split
  · split
    · rw [within, fork?_of_children hl hr hlr ha hb]
      simp only [ho]
    · rfl
  · rfl

end

/-- With the answer `always` neither of the two nodes lies below the other. -/
theorem not_mem_preorder_of_always {a b : Node} (h : executedBefore a b = always) :
    b ∉ a.preorder ∧ a ∉ b.preorder := by
  have hnone : (a.contains b || b.contains a) = false := by
    rw [Bool.eq_false_iff]
    intro hc
    rw [executedBefore, hc, if_pos rfl] at h
    split at h <;> cases h
  rw [Bool.or_eq_false_iff] at hnone
  constructor <;> intro hmem
  · rw [Node.contains_of_mem_preorder hmem] at hnone
    cases hnone.1
  · rw [Node.contains_of_mem_preorder hmem] at hnone
    cases hnone.2

/-- With the answer `always` the ways to the two nodes part. -/
theorem exists_fork_of_always {n a b : Node} (ha : a ∈ n.preorder) (hb : b ∈ n.preorder)
    (h : executedBefore a b = always) :
    ∃ top ∈ n.preorder, ∃ l ∈ top.children, ∃ r ∈ top.children, l ≠ r ∧ a ∈ l.preorder ∧ b ∈ r.preorder :=
  Node.exists_parting ha hb (not_mem_preorder_of_always h).1 (not_mem_preorder_of_always h).2

end Order

end Disposal
