import Disposal.Node.Declaration

/-!
# Nodes and what lies below them

Facts about kinds, places and walks that do not depend on what the tree stands for.

* `Node.mem_walk_iff`, `Node.mem_preorder_iff`: what a walk lists;
* `Node.preorder_induction`: induction from a node upwards to a node that it lies below;
* `Node.follow_eq`: going down step by step.
-/

namespace Disposal.Node

/-! ### Kinds -/

theorem is_eq_of_kind? {n : Node} {k : Kind} (h : n.kind? = some k) (k' : Kind) : n.is k' = (k == k') := by
  unfold kind? at h
  unfold is
  split at h
  · next hl =>
    cases h
    rw [hl, Bool.eq_iff_iff, beq_iff_eq, beq_iff_eq, Label.kind.injEq]
  · cases h

theorem isAny_eq_of_kind? {n : Node} {k : Kind} (h : n.kind? = some k) (ks : List Kind) :
    n.isAny ks = ks.contains k := by
  unfold kind? at h
  unfold isAny
  split at h
  · cases h; rfl
  · cases h

theorem is_iff {n : Node} {k : Kind} : n.is k = true ↔ n.kind? = some k := by
  constructor
  · intro h
    have hl : n.label = .kind k := LawfulBEq.eq_of_beq h
    rw [kind?, hl]
  · intro h
    rw [is_eq_of_kind? h, beq_self_eq_true]

theorem isAny_iff {n : Node} {ks : List Kind} : n.isAny ks = true ↔ ∃ k ∈ ks, n.kind? = some k := by
  constructor
  · intro h
    unfold isAny at h
    split at h
    · next k hl => exact ⟨k, by simpa using h, by rw [kind?, hl]⟩
    · cases h
  · rintro ⟨k, hk, hn⟩
    rw [isAny_eq_of_kind? hn]
    simpa using hk

theorem isAny_append (n : Node) (ks ks' : List Kind) : n.isAny (ks ++ ks') = (n.isAny ks || n.isAny ks') := by
  unfold isAny
  split
  · rw [Bool.eq_iff_iff]
    simp
  · rfl

theorem isAny_of_subset {n : Node} {ks ks' : List Kind} (h : n.isAny ks = true) (hsub : ks ⊆ ks') :
    n.isAny ks' = true := by
  obtain ⟨k, hk, hn⟩ := isAny_iff.1 h
  exact isAny_iff.2 ⟨k, hsub hk, hn⟩

theorem isAny_eq_false_of_disjoint {n : Node} {ks ks' : List Kind} (h : n.isAny ks = true) (hne : ∀ k ∈ ks, k ∉ ks') :
    n.isAny ks' = false := by
  obtain ⟨k, hk, hn⟩ := isAny_iff.1 h
  rw [isAny_eq_of_kind? hn]
  simpa using hne k hk

theorem isAny_singleton (n : Node) (k : Kind) : n.isAny [k] = n.is k := by
  rw [Bool.eq_iff_iff, isAny_iff, is_iff]
  simp

/-! ### Places -/

theorem beq_iff {a b : Node} : (a == b) = true ↔ a.id = b.id := by
  show (a.id == b.id) = true ↔ a.id = b.id
  exact beq_iff_eq

theorem beq_eq_false_of_length_ne {a b : Node} (h : a.id.path.length ≠ b.id.path.length) : (a == b) = false := by
  rw [Bool.eq_false_iff]
  intro hab
  exact h (by rw [beq_iff.1 hab])

theorem beq_refl (a : Node) : (a == a) = true := beq_iff.2 rfl

theorem mem_children_iff {n c : Node} :
    c ∈ n.children ↔ ∃ i t, n.here.children[i]? = some t ∧ c = n.child i t := by
  simp only [children, List.mem_map, Prod.exists, List.mem_zipIdx_iff_getElem?]
  constructor
  · rintro ⟨t, i, ht, rfl⟩
    exact ⟨i, t, ht, rfl⟩
  · rintro ⟨i, t, ht, rfl⟩
    exact ⟨t, i, ht, rfl⟩

theorem ancestors_of_mem_children {n c : Node} (h : c ∈ n.children) : c.ancestors = n :: n.ancestors := by
  obtain ⟨i, t, -, rfl⟩ := mem_children_iff.1 h
  rfl

/-- The place of a child is that of its parent with one number in front. -/
theorem path_of_mem_children {n c : Node} (h : c ∈ n.children) : ∃ i, c.id.path = i :: n.id.path := by
  obtain ⟨i, t, -, rfl⟩ := mem_children_iff.1 h
  exact ⟨i, rfl⟩

theorem eq_of_mem_children {n c d : Node} (hc : c ∈ n.children) (hd : d ∈ n.children) (h : c.id = d.id) :
    c = d := by
  obtain ⟨i, t, ht, rfl⟩ := mem_children_iff.1 hc
  obtain ⟨j, u, hu, rfl⟩ := mem_children_iff.1 hd
  have hp : i :: n.id.path = j :: n.id.path := congrArg Id.path h
  obtain ⟨rfl, -⟩ := List.cons.inj hp
  rw [ht] at hu
  cases hu
  rfl

/-! ### Walks -/

private theorem mem_walkTrees {enter : Node → Bool} {doc : Nat} {parent : Tree} {above : List Frame} {x : Node}
    {ts : List Tree} {i : Nat} :
    x ∈ walkTrees enter doc parent above i ts ↔
      ∃ j t, ts[j]? = some t ∧ x ∈ walkTree enter doc (⟨parent, i + j⟩ :: above) t := by
  induction ts generalizing i with
  | nil => simp [walkTrees]
  | cons t ts ih =>
    rw [walkTrees, List.mem_append, ih]
    constructor
    · rintro (h | ⟨j, u, hu, hx⟩)
      · exact ⟨0, t, rfl, h⟩
      · refine ⟨j + 1, u, by simpa using hu, ?_⟩
        rwa [show i + (j + 1) = i + 1 + j by omega]
    · rintro ⟨j, u, hu, hx⟩
      cases j with
      | zero =>
        simp only [List.getElem?_cons_zero, Option.some.injEq] at hu
        subst hu
        exact Or.inl hx
      | succ j =>
        refine Or.inr ⟨j, u, by simpa using hu, ?_⟩
        rwa [show i + 1 + j = i + (j + 1) by omega]

/-- A walk lists the node it starts from and, if that is entered, the walks from its children. -/
theorem mem_walk_iff {n x : Node} {enter : Node → Bool} :
    x ∈ n.walk enter ↔ x = n ∨ (enter n = true ∧ ∃ c ∈ n.children, x ∈ c.walk enter) := by
  obtain ⟨doc, above, ⟨h, cs⟩⟩ := n
  show x ∈ walkTree enter doc above (.node h cs) ↔ _
  rw [walkTree, List.mem_cons]
  apply or_congr Iff.rfl
  split
  · next he =>
    rw [mem_walkTrees]
    constructor
    · rintro ⟨j, t, ht, hx⟩
      rw [Nat.zero_add] at hx
      exact ⟨he, _, mem_children_iff.2 ⟨j, t, ht, rfl⟩, hx⟩
    · rintro ⟨-, c, hc, hx⟩
      obtain ⟨j, t, ht, rfl⟩ := mem_children_iff.1 hc
      refine ⟨j, t, ht, ?_⟩
      rw [Nat.zero_add]
      exact hx
  · next he => simp [he]

theorem mem_preorder_iff {n x : Node} : x ∈ n.preorder ↔ x = n ∨ ∃ c ∈ n.children, x ∈ c.preorder := by
  unfold preorder
  rw [mem_walk_iff]
  simp

theorem mem_preorder_self (n : Node) : n ∈ n.preorder := mem_preorder_iff.2 (Or.inl rfl)

theorem mem_preorder_of_child {n c x : Node} (hc : c ∈ n.children) (hx : x ∈ c.preorder) : x ∈ n.preorder :=
  mem_preorder_iff.2 (Or.inr ⟨c, hc, hx⟩)

theorem sizeOf_of_mem_children {n c : Node} (h : c ∈ n.children) : sizeOf c.here < sizeOf n.here := by
  obtain ⟨i, t, ht, rfl⟩ := mem_children_iff.1 h
  obtain ⟨doc, above, ⟨hd, cs⟩⟩ := n
  have hs := List.sizeOf_lt_of_mem (List.mem_of_getElem? ht)
  show sizeOf t < sizeOf (Tree.node hd cs)
  rw [Tree.node.sizeOf_spec]
  simp only [Tree.children] at hs
  omega

/-- Induction from a node upwards to a node that it lies below. -/
theorem preorder_induction {x : Node} {motive : Node → Prop} (self : motive x)
    (child : ∀ n c, c ∈ n.children → x ∈ c.preorder → motive c → motive n) (n : Node) (hx : x ∈ n.preorder) :
    motive n := by
  rcases mem_preorder_iff.1 hx with rfl | ⟨c, hc, hxc⟩
  · exact self
  · have := sizeOf_of_mem_children hc
    exact child n c hc hxc (preorder_induction self child c hxc)
termination_by sizeOf n.here

theorem mem_preorder_of_mem_children {n c : Node} (hc : c ∈ n.children) : c ∈ n.preorder :=
  mem_preorder_of_child hc (mem_preorder_self c)

theorem mem_preorder_trans {n m x : Node} (hm : m ∈ n.preorder) (hx : x ∈ m.preorder) : x ∈ n.preorder :=
  preorder_induction (motive := fun n => x ∈ n.preorder) hx (fun _ _ hc _ ih => mem_preorder_of_child hc ih) n hm

theorem mem_preorder_of_mem_walk {n x : Node} {enter : Node → Bool} (h : x ∈ n.walk enter) : x ∈ n.preorder := by
  rcases mem_walk_iff.1 h with rfl | ⟨-, c, hc, hx⟩
  · exact mem_preorder_self x
  · have := sizeOf_of_mem_children hc
    exact mem_preorder_of_child hc (mem_preorder_of_mem_walk hx)
termination_by sizeOf n.here

/-- A walk that enters more nodes lists more. -/
theorem mem_walk_mono {n x : Node} {enter enter' : Node → Bool} (h : ∀ m, enter m = true → enter' m = true)
    (hx : x ∈ n.walk enter) : x ∈ n.walk enter' := by
  rcases mem_walk_iff.1 hx with rfl | ⟨he, c, hc, hx⟩
  · exact mem_walk_iff.2 (Or.inl rfl)
  · have := sizeOf_of_mem_children hc
    exact mem_walk_iff.2 (Or.inr ⟨h n he, c, hc, mem_walk_mono h hx⟩)
termination_by sizeOf n.here

/-! ### Nodes above and below -/

/-- The place of a node ends in that of every node it lies below. -/
theorem exists_path_of_mem_preorder {n x : Node} (h : x ∈ n.preorder) : ∃ l, x.id.path = l ++ n.id.path := by
  refine preorder_induction (motive := fun n => ∃ l, x.id.path = l ++ n.id.path) ⟨[], rfl⟩ ?_ n h
  rintro n c hc - ⟨l, hl⟩
  obtain ⟨i, hi⟩ := path_of_mem_children hc
  refine ⟨l ++ [i], ?_⟩
  rw [hl, hi, List.append_assoc]
  rfl

theorem exists_path_of_mem_ancestors {n a : Node} (h : a ∈ n.ancestors) : ∃ l, n.id.path = l ++ a.id.path := by
  obtain ⟨doc, above, here⟩ := n
  show ∃ l, above.map (·.index) = l ++ a.id.path
  change a ∈ placesUp doc above at h
  induction above with
  | nil => cases h
  | cons f fs ih =>
    rcases List.mem_cons.1 h with rfl | h
    · exact ⟨[f.index], rfl⟩
    · obtain ⟨l, hl⟩ := ih h
      exact ⟨f.index :: l, by rw [List.map_cons, hl]; rfl⟩

private theorem exists_path_of_contains {a x : Node} (h : a.contains x = true) : ∃ l, x.id.path = l ++ a.id.path := by
  rcases Bool.or_eq_true _ _ ▸ h with h | h
  · exact ⟨[], by rw [beq_iff.1 h]; rfl⟩
  · obtain ⟨b, hb, hba⟩ := List.any_eq_true.1 h
    obtain ⟨l, hl⟩ := exists_path_of_mem_ancestors hb
    exact ⟨l, by rw [hl, beq_iff.1 hba]⟩

/-- Below a root, a node lies below everything that is on its way up. -/
theorem mem_preorder_of_root {root x m : Node} (hroot : root.ancestors = []) (hx : x ∈ root.preorder)
    (hm : m ∈ x.ancestors) : x ∈ m.preorder := by
  have key : x ∈ m.preorder ∨ m ∈ root.ancestors := by
    refine preorder_induction (motive := fun n => x ∈ m.preorder ∨ m ∈ n.ancestors) (.inr hm) ?_ root hx
    rintro n c hc hxc (h | h)
    · exact .inl h
    · rw [ancestors_of_mem_children hc] at h
      rcases List.mem_cons.1 h with rfl | h
      · exact .inl (mem_preorder_of_child hc hxc)
      · exact .inr h
  rw [hroot] at key
  exact key.resolve_right List.not_mem_nil

/-- Different children of a node have no place below them in common. -/
theorem eq_of_append_path {n c d : Node} (hc : c ∈ n.children) (hd : d ∈ n.children) {l l' : List Nat}
    (h : l ++ c.id.path = l' ++ d.id.path) : c = d := by
  obtain ⟨i, hi⟩ := path_of_mem_children hc
  obtain ⟨j, hj⟩ := path_of_mem_children hd
  have hpath : c.id.path = d.id.path := (List.append_inj' h (by rw [hi, hj]; rfl)).2
  have hdoc : c.id.doc = d.id.doc := by
    show c.doc = d.doc
    rw [doc_of_mem_children hc, doc_of_mem_children hd]
  apply eq_of_mem_children hc hd
  calc c.id = ⟨c.id.doc, c.id.path⟩ := rfl
    _ = ⟨d.id.doc, d.id.path⟩ := by rw [hdoc, hpath]
    _ = d.id := rfl

/-- What lies below one child contains nothing that lies below another. -/
theorem contains_eq_false_of_ne {n c d x y : Node} (hc : c ∈ n.children) (hd : d ∈ n.children) (hne : c ≠ d)
    (hx : x ∈ c.preorder) (hy : y ∈ d.preorder) : x.contains y = false := by
  rw [Bool.eq_false_iff]
  intro h
  obtain ⟨l, hl⟩ := exists_path_of_contains h
  obtain ⟨lx, hlx⟩ := exists_path_of_mem_preorder hx
  obtain ⟨ly, hly⟩ := exists_path_of_mem_preorder hy
  have hpath : (l ++ lx) ++ c.id.path = ly ++ d.id.path := by rw [List.append_assoc, ← hlx, ← hl, hly]
  exact hne (eq_of_append_path hc hd hpath)

theorem beq_eq_false_of_ne {n c d x y : Node} (hc : c ∈ n.children) (hd : d ∈ n.children) (hne : c ≠ d)
    (hx : x ∈ c.preorder) (hy : y ∈ d.preorder) : (x == y) = false :=
  (Bool.or_eq_false_iff.1 (contains_eq_false_of_ne hc hd hne hx hy)).1

/-- What lies below a child does not contain the node itself. -/
theorem contains_eq_false_of_child {n c x : Node} (hc : c ∈ n.children) (hx : x ∈ c.preorder) :
    x.contains n = false := by
  rw [Bool.eq_false_iff]
  intro h
  obtain ⟨i, hi⟩ := path_of_mem_children hc
  obtain ⟨l, hl⟩ := exists_path_of_contains h
  obtain ⟨lx, hlx⟩ := exists_path_of_mem_preorder hx
  have := congrArg List.length hl
  rw [hlx, hi] at this
  simp only [List.length_append, List.length_cons] at this
  omega

/-! ### Looking up children -/

theorem mem_children_of_field {n c : Node} {f : Field} (h : n.field f = some c) : c ∈ n.children :=
  List.mem_of_find?_eq_some h

theorem mem_children_of_named {n c : Node} (h : c ∈ n.named) : c ∈ n.children := (List.mem_filter.1 h).1

theorem mem_children_of_firstNamed? {n c : Node} (h : n.firstNamed? = some c) : c ∈ n.children :=
  mem_children_of_named (List.mem_of_mem_head? h)

theorem mem_children_of_lastNamed? {n c : Node} (h : n.lastNamed? = some c) : c ∈ n.children :=
  mem_children_of_named (List.mem_of_getLast? h)

theorem mem_children_of_childOf? {n c : Node} {ks : List Kind} (h : n.childOf? ks = some c) : c ∈ n.children :=
  mem_children_of_named (List.mem_of_find?_eq_some h)

theorem mem_children_of_namedOf {n c : Node} {k : Kind} (h : c ∈ n.namedOf k) : c ∈ n.children :=
  mem_children_of_named (List.mem_filter.1 h).1

/-- Nodes of a kind other than comments are counted among the named children. -/
theorem isShown_of_kind? {n : Node} {k : Kind} (hk : k ≠ .comment) (h : n.kind? = some k) :
    (n.isNamed && !n.isTrivia) = true := by
  have hlabel : n.label = .kind k := LawfulBEq.eq_of_beq (is_iff.2 h)
  rw [isNamed, isTrivia, hlabel]
  simpa [Label.isNamed, Label.isTrivia] using hk

theorem mem_named_of_kind? {n c : Node} {k : Kind} (hk : k ≠ .comment) (h : c.kind? = some k) (hc : c ∈ n.children) :
    c ∈ n.named :=
  List.mem_filter.2 ⟨hc, isShown_of_kind? hk h⟩

/-- A part that is looked up by its field and, failing that, in another way. -/
theorem mem_children_of_orElse {n c : Node} {f : Field} {other? : Option Node}
    (hother : ∀ d, other? = some d → d ∈ n.children) (h : (n.field f <|> other?) = some c) : c ∈ n.children := by
  rw [Option.orElse_eq_orElse, Option.orElse_eq_or, Option.or_eq_some_iff] at h
  rcases h with h | ⟨-, h⟩
  · exact mem_children_of_field h
  · exact hother c h

/-! ### Going down -/

private theorem height_le_heightAll {t : Tree} {ts : List Tree} (h : t ∈ ts) : t.height ≤ Tree.heightAll ts := by
  induction ts with
  | nil => cases h
  | cons u ts ih =>
    rw [Tree.heightAll]
    rcases List.mem_cons.1 h with rfl | h
    · exact Nat.le_max_left ..
    · exact Nat.le_trans (ih h) (Nat.le_max_right ..)

private theorem height_of_mem_children {n c : Node} (h : c ∈ n.children) : c.here.height < n.here.height := by
  obtain ⟨i, t, ht, rfl⟩ := mem_children_iff.1 h
  obtain ⟨doc, above, ⟨hd, cs⟩⟩ := n
  show t.height < (Tree.node hd cs).height
  rw [Tree.height]
  exact Nat.lt_succ_of_le (height_le_heightAll (List.mem_of_getElem? ht))

section

variable {next : Node → Option Node} (hnext : ∀ n c, next n = some c → c ∈ n.children)

include hnext

private theorem followFor_eq_followFor {k l : Nat} {n : Node} (hk : n.here.height ≤ k) (hl : n.here.height ≤ l) :
    followFor next k n = followFor next l n := by
  have hpos : 0 < n.here.height := by
    obtain ⟨doc, above, ⟨hd, cs⟩⟩ := n
    exact Nat.succ_pos _
  induction k generalizing l n with
  | zero => omega
  | succ k ih =>
    cases l with
    | zero => omega
    | succ l =>
      rw [followFor, followFor]
      cases hn : next n with
      | none => rfl
      | some c =>
        have hc := height_of_mem_children (hnext n c hn)
        have hpos : 0 < c.here.height := by
          obtain ⟨doc, above, ⟨hd, cs⟩⟩ := c
          exact Nat.succ_pos _
        exact ih (by omega) (by omega) hpos

/-- Going down step by step. -/
theorem follow_eq (n : Node) : n.follow next = match next n with | some c => c.follow next | none => n := by
  have hstep : n.follow next = followFor next (n.here.height + 1) n :=
    followFor_eq_followFor hnext (Nat.le_refl _) (Nat.le_succ _)
  rw [hstep, followFor]
  cases hn : next n with
  | none => rfl
  | some c =>
    exact followFor_eq_followFor hnext (Nat.le_of_lt (height_of_mem_children (hnext n c hn))) (Nat.le_refl _)

theorem follow_mem_preorder (n : Node) : n.follow next ∈ n.preorder := by
  rw [follow_eq hnext]
  cases hn : next n with
  | none => exact mem_preorder_self n
  | some c =>
    have := sizeOf_of_mem_children (hnext n c hn)
    exact mem_preorder_of_child (hnext n c hn) (follow_mem_preorder c)
termination_by sizeOf n.here

/-- There is no next step where the way down ends. -/
theorem next_follow (n : Node) : next (n.follow next) = none := by
  rw [follow_eq hnext]
  cases hn : next n with
  | none => exact hn
  | some c =>
    have := sizeOf_of_mem_children (hnext n c hn)
    exact next_follow c
termination_by sizeOf n.here

end

/-- What holds where a way down ends and goes up along the way holds where the way begins. -/
theorem follow_induction {next : Node → Option Node} (hnext : ∀ n c, next n = some c → c ∈ n.children)
    {motive : Node → Prop} (step : ∀ n c, next n = some c → motive c → motive n) {n : Node}
    (h : motive (n.follow next)) : motive n := by
  rw [follow_eq hnext] at h
  cases hn : next n with
  | none =>
    rw [hn] at h
    exact h
  | some c =>
    rw [hn] at h
    have := sizeOf_of_mem_children (hnext n c hn)
    exact step n c hn (follow_induction hnext step h)
termination_by sizeOf n.here

/-! ### Expressions -/

theorem mem_children_of_insideParens? (n c : Node) (h : n.insideParens? = some c) : c ∈ n.children := by
  unfold insideParens? at h
  split at h
  · exact mem_children_of_firstNamed? h
  · cases h

theorem mem_children_of_insideConversion? (n c : Node) (h : n.insideConversion? = some c) : c ∈ n.children := by
  unfold insideConversion? at h
  split at h
  · exact mem_children_of_firstNamed? h
  · exact mem_children_of_lastNamed? h
  · exact mem_children_of_firstNamed? h
  · exact mem_children_of_firstNamed? h
  · split at h
    · exact mem_children_of_firstNamed? h
    · cases h
  · split at h
    · exact mem_children_of_firstNamed? h
    · cases h
  · cases h

theorem mem_children_of_towardsName? (n c : Node) (h : n.towardsName? = some c) : c ∈ n.children := by
  unfold towardsName? at h
  split at h
  · exact mem_children_of_firstNamed? h
  · exact mem_children_of_lastNamed? h
  · exact mem_children_of_lastNamed? h
  · exact mem_children_of_lastNamed? h
  · exact mem_children_of_orElse (fun _ hd => mem_children_of_lastNamed? hd) h
  · cases h

theorem stripParens_mem_preorder (n : Node) : n.stripParens ∈ n.preorder :=
  follow_mem_preorder mem_children_of_insideParens? n

theorem stripConversions_mem_preorder (n : Node) : n.stripConversions ∈ n.preorder :=
  follow_mem_preorder mem_children_of_insideConversion? n

theorem stripParens_eq (n : Node) :
    n.stripParens = match n.insideParens? with | some c => c.stripParens | none => n :=
  follow_eq mem_children_of_insideParens? n

theorem stripConversions_eq (n : Node) :
    n.stripConversions = match n.insideConversion? with | some c => c.stripConversions | none => n :=
  follow_eq mem_children_of_insideConversion? n

/-- What is left without parentheses is not in parentheses. -/
theorem insideParens?_stripParens (n : Node) : n.stripParens.insideParens? = none :=
  next_follow mem_children_of_insideParens? n

theorem stripParens_stripParens (n : Node) : n.stripParens.stripParens = n.stripParens := by
  rw [stripParens_eq n.stripParens, insideParens?_stripParens]

theorem stripParens_of_kind? {n : Node} {k : Kind} (hk : n.kind? = some k) (hne : k ≠ .parenthesizedExpression) :
    n.stripParens = n := by
  rw [stripParens_eq, insideParens?, if_neg]
  rw [is_iff, hk]
  intro h
  exact hne (Option.some.inj h)

theorem stripConversions_of_insideConversion?_eq_none {n : Node} (h : n.insideConversion? = none) :
    n.stripConversions = n := by
  rw [stripConversions_eq, h]

theorem simpleName?_of_identifier {n : Node} (hn : n.kind? = some .identifier) : n.simpleName? = some n := by
  have hf : n.follow towardsName? = n := by rw [follow_eq mem_children_of_towardsName?, towardsName?, hn]
  rw [simpleName?, hf, is_eq_of_kind? hn]
  rfl

theorem follow_of_simpleName? {n s : Node} (h : n.simpleName? = some s) : n.follow towardsName? = s := by
  unfold simpleName? at h
  dsimp only at h
  split at h
  · exact Option.some.inj h
  · cases h

/-- The name at the end of a chain is an identifier in it. -/
theorem simpleName?_eq_some {n s : Node} (h : n.simpleName? = some s) : s ∈ n.preorder ∧ s.is .identifier = true := by
  have hf := follow_of_simpleName? h
  subst hf
  refine ⟨follow_mem_preorder mem_children_of_towardsName? n, ?_⟩
  unfold simpleName? at h
  dsimp only at h
  split at h
  · next hk => exact hk
  · cases h

/-- The parts of an assignment that is taken apart. -/
theorem kind_of_assignment? {n : Node} {s : Assignment} (h : n.assignment? = some s) :
    n.kind? = some .assignmentExpression ∧ s.left ∈ n.children ∧ s.right ∈ n.children := by
  unfold assignment? at h
  split at h
  · next hk =>
    simp only [Option.bind_eq_bind, Option.bind_eq_some_iff, Option.pure_def, Option.some.injEq] at h
    obtain ⟨left, hleft, right, hright, operator, -, rfl⟩ := h
    exact ⟨is_iff.1 hk, mem_children_of_orElse (fun _ hd => mem_children_of_firstNamed? hd) hleft,
      mem_children_of_orElse (fun _ hd => mem_children_of_lastNamed? hd) hright⟩
  · cases h

end Disposal.Node
