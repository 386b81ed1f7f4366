import Mathlib.Logic.Relation
import Disposal.Proofs.Forks
import Disposal.Proofs.Names
import Disposal.Proofs.Sites

/-!
# Writes and mentions

Writes are found from assignments and arguments downwards, mentions from identifiers upwards. Both ways meet: what a
write writes to is among the mentions of the symbol, as far as it is an identifier or an access that ends in one.

* `Write.Targets.isHeld`: what stands above a target is not part of a name, so that no declaration ends there;
* `Model.mentionAt?_of_refersTo`: a target is the mention of the identifier that it ends in;
* `Model.writes_areMentioned`: writes and mentions of a symbol in a scope.
-/

namespace Disposal

open Relation

namespace Node

variable {n d t x : Node}

/-! ### Names of declarations -/

/-- One step down to the last name. -/
def TowardsName (n x : Node) : Prop := n.towardsName? = some x

private theorem reflTransGen_simpleName? (h : n.simpleName? = some x) : ReflTransGen TowardsName n x := by
  rw [← follow_of_simpleName? h]
  refine follow_induction (motive := fun k => ReflTransGen TowardsName k (n.follow towardsName?))
    mem_children_of_towardsName? (fun _ _ hstep ih => .head hstep ih) .refl

private theorem exists_chain_of_nameOf? (h : d.nameOf? = some x) : ∃ k ∈ d.children, ReflTransGen TowardsName k x := by
  obtain ⟨k, hk, rfl | hx⟩ := nameOf?_eq_some h
  · exact ⟨k, hk, .refl⟩
  · exact ⟨k, hk, reflTransGen_simpleName? hx⟩

/-! ### Targets -/

/-- The nodes that stand right above a target of a write. -/
def targetHolders : List Kind := writers ++ [.tupleExpression, .parenthesizedExpression]

/-- The node stands where a target does. -/
def IsHeld (n : Node) : Prop := ∃ p, n.parent? = some p ∧ p.isAny targetHolders = true

private theorem isHeld_of_mem_children (hn : n.isAny targetHolders = true) (hx : x ∈ n.children) : x.IsHeld :=
  ⟨n, parent?_of_mem_children hx, hn⟩

private theorem isHeld_stripParens {n : Node} (h : n.IsHeld) : n.stripParens.IsHeld := by
  rw [stripParens_eq]
  cases hn : n.insideParens? with
  | none => exact h
  | some x =>
    have hx := mem_children_of_insideParens? n x hn
    have hk : n.isAny targetHolders = true := by
      unfold insideParens? at hn
      split at hn
      · next hk => exact isAny_iff.2 ⟨_, by decide, is_iff.1 hk⟩
      · cases hn
    have := sizeOf_of_mem_children hx
    exact isHeld_stripParens (isHeld_of_mem_children hk hx)
termination_by sizeOf n.here

private theorem towardsName?_of_targetHolders (hn : n.isAny targetHolders = true) : n.towardsName? = none := by
  unfold towardsName?
  split
  case h_6 => rfl
  all_goals
    next hk =>
    rw [isAny_eq_of_kind? hk] at hn
    exact absurd hn (by decide)

/-- No chain of names leads down to a target; it can only begin there. -/
private theorem IsHeld.eq_of_chain (ht : t.IsHeld) (h : ReflTransGen TowardsName n t) : n = t := by
  rcases h.cases_tail with rfl | ⟨p, -, hp⟩
  · rfl
  · obtain ⟨q, hq, hk⟩ := ht
    rw [parent?_of_mem_children (mem_children_of_towardsName? p t hp)] at hq
    cases hq
    rw [TowardsName, towardsName?_of_targetHolders hk] at hp
    cases hp

/-- An identifier, or an access that ends in one. -/
def isPlainTarget (t : Node) : Bool :=
  t.is .identifier || (t.is .memberAccessExpression && t.towardsName?.any (·.is .identifier))

/-- The node is an identifier, which is the target or the name of the access that is the target. -/
structure IsNameOf (x t : Node) : Prop where
  identifier : x.kind? = some .identifier
  target : x = t ∨ (t.kind? = some .memberAccessExpression ∧ t.towardsName? = some x)

private theorem exists_name_of_isPlainTarget (h : t.isPlainTarget = true) : ∃ x : Node, x.IsNameOf t := by
  rcases Bool.or_eq_true_iff.1 h with h | h
  · exact ⟨t, is_iff.1 h, .inl rfl⟩
  · obtain ⟨hk, hx⟩ := Bool.and_eq_true_iff.1 h
    obtain ⟨x, hx, hident⟩ := (Option.any_eq_true _ _).1 hx
    exact ⟨x, is_iff.1 hident, .inr ⟨is_iff.1 hk, hx⟩⟩

private theorem IsNameOf.isAny_namings (h : x.IsNameOf t) : t.isAny namings = true := by
  rcases h.target with rfl | ⟨hk, -⟩
  · exact isAny_iff.2 ⟨_, by decide, h.identifier⟩
  · exact isAny_iff.2 ⟨_, by decide, hk⟩

theorem IsNameOf.simpleName? (h : x.IsNameOf t) : t.simpleName? = some x := by
  have hx := simpleName?_of_identifier h.identifier
  rcases h.target with rfl | ⟨-, htowards⟩
  · exact hx
  · rw [simpleName?_of_towardsName? htowards, hx]

end Node

/-! ### Symbols and targets -/

namespace Symbol

/-- The nodes that declare symbols, apart from identifiers. -/
def declarations : List Kind :=
  [.variableDeclarator, .declarationExpression, .declarationPattern, .parameter, .propertyDeclaration,
   .indexerDeclaration, .eventDeclaration, .methodDeclaration, .localFunctionStatement]

/-- The nodes right below which an identifier declares a symbol. -/
def nameHolders : List Kind := .lambdaExpression :: localHolders

variable {s : Symbol} {d : Node}

/-- A symbol with a node is declared by it, or by the node right above. -/
private theorem HasForm.of_node? (h : s.HasForm) (hd : s.node? = some d) :
    d.isAny declarations = true ∨ d.IsNameIn nameHolders := by
  have hname : ∀ ks, ks ⊆ nameHolders → d.IsNameIn ks → d.IsNameIn nameHolders := by
    rintro ks hks ⟨hident, p, hp, hk⟩
    exact ⟨hident, p, hp, Node.isAny_of_subset hk hks⟩
  cases s with
  | localVar n =>
    cases hd
    exact h.imp (Node.isAny_of_subset · (by decide)) (hname _ (by decide))
  | parameter n =>
    cases hd
    rw [HasForm, ← Node.isAny_singleton] at h
    exact h.imp (Node.isAny_of_subset · (by decide)) (hname _ (by decide))
  | field n | property n =>
    cases hd
    rw [HasForm, ← Node.isAny_singleton] at h
    exact .inl (Node.isAny_of_subset h (by decide))
  | method n | setterValue n =>
    cases hd
    exact .inl (Node.isAny_of_subset h (by decide))
  | _ => cases hd

private theorem HasForm.isAny_eq_false (h : s.HasForm) (hd : s.node? = some d) :
    d.isAny (.memberAccessExpression :: Node.targetHolders) = false := by
  rcases h.of_node? hd with hk | ⟨hident, -⟩
  · exact Node.isAny_eq_false_of_disjoint hk (by decide)
  · rw [← Node.isAny_singleton] at hident
    exact Node.isAny_eq_false_of_disjoint hident (by decide)

/-- A symbol that is declared at an identifier alone is not declared at or below a target. -/
private theorem HasForm.parent_of_identifier (h : s.HasForm) (hd : s.node? = some d) (hk : d.kind? = some .identifier)
    {p : Node} (hp : d.parent? = some p) : p.isAny (.memberAccessExpression :: Node.targetHolders) = false := by
  rcases h.of_node? hd with hd | ⟨-, q, hq, hkq⟩
  · rw [Node.isAny_eq_of_kind? hk] at hd
    exact absurd hd (by decide)
  · rw [hp] at hq
    cases hq
    exact Node.isAny_eq_false_of_disjoint hkq (by decide)

end Symbol

namespace Model

variable {c : Compilation} {m : Model} {s : Symbol} {name : String} {d t x : Node}

section

variable (hform : s.HasForm) (hd : s.node? = some d) (ht : t.IsHeld) (hx : x.IsNameOf t)

include hform hd ht hx

/-- A symbol is not declared at a target. -/
private theorem ne_target : d ≠ t := by
  rintro rfl
  obtain ⟨p, hp, hk⟩ := ht
  rcases hx.target with rfl | ⟨hkind, -⟩
  · have hfalse := hform.parent_of_identifier hd hx.identifier hp
    rw [Node.isAny_of_subset hk (List.subset_cons_self _ _)] at hfalse
    cases hfalse
  · have hfalse := hform.isAny_eq_false hd
    rw [Node.isAny_eq_of_kind? hkind] at hfalse
    exact absurd hfalse (by decide)

/-- Nor is it declared at the name of a target. -/
private theorem ne_name : d ≠ x := by
  rcases hx.target with heq | ⟨hkind, htowards⟩
  · rw [heq]
    exact ne_target hform hd ht hx
  · rintro rfl
    have hfalse := hform.parent_of_identifier hd hx.identifier
      (Node.parent?_of_mem_children (Node.mem_children_of_towardsName? t d htowards))
    rw [Node.isAny_eq_of_kind? hkind] at hfalse
    exact absurd hfalse (by decide)

/-- The name of a target is not that of the declaration. -/
private theorem nameOf?_ne_name : d.nameOf? ≠ some x := by
  intro hname
  obtain ⟨k, hk, hchain⟩ := Node.exists_chain_of_nameOf? hname
  have hd := hform.isAny_eq_false hd
  have hkt : k ≠ t := by
    rintro rfl
    obtain ⟨p, hp, hkp⟩ := ht
    rw [Node.parent?_of_mem_children hk] at hp
    cases hp
    rw [Node.isAny_of_subset hkp (List.subset_cons_self _ _)] at hd
    cases hd
  -- the chain of names from the declaration down to `x` would lead through the target
  rcases hx.target with rfl | ⟨hkind, htowards⟩
  · exact hkt (ht.eq_of_chain hchain)
  · have hparent := Node.parent?_of_mem_children (Node.mem_children_of_towardsName? t x htowards)
    rcases hchain.cases_tail with rfl | ⟨q, hchain, hq⟩
    · rw [Node.parent?_of_mem_children hk] at hparent
      cases hparent
      rw [Node.isAny_eq_of_kind? hkind] at hd
      exact absurd hd (by decide)
    · rw [Node.parent?_of_mem_children (Node.mem_children_of_towardsName? q x hq)] at hparent
      cases hparent
      exact hkt (ht.eq_of_chain hchain)

end

/-- What mentions a symbol by the name of a target is the target. -/
private theorem exists_mention_eq (ht : t.IsHeld) (hx : x.IsNameOf t) : ∃ p, x.parent? = some p ∧ mention x p = t := by
  rcases hx.target with rfl | ⟨hkind, htowards⟩
  · obtain ⟨p, hp, hk⟩ := ht
    refine ⟨p, hp, ?_⟩
    unfold mention
    split
    case h_3 => rfl
    all_goals
      next hkind =>
      rw [Node.isAny_eq_of_kind? hkind] at hk
      exact absurd hk (by decide)
  · refine ⟨t, Node.parent?_of_mem_children (Node.mem_children_of_towardsName? t x htowards), ?_⟩
    have hany : t.memberName?.any (· == x) = true := by
      rw [Node.memberName?_eq_simpleName? hkind, hx.simpleName?]
      exact Node.beq_refl x
    rw [mention, hkind]
    exact if_pos hany

section

variable (hin : s.IsIn c) (hform : s.HasForm) (hplace : c.HasPlace t) (ht : t.IsHeld)

include hin hform hplace ht

private theorem isDeclarationName_eq_false (hx : x.IsNameOf t) : isDeclarationName s x = false := by
  have hplace := hplace.of_simpleName? hx.simpleName?
  rw [isDeclarationName, Bool.or_eq_false_iff]
  constructor
  · have hnames : ∀ y, s.node?.bind Node.nameOf? = some y → c.HasPlace y := by
      intro y hy
      obtain ⟨d, hd, hy⟩ := Option.bind_eq_some_iff.1 hy
      exact (hin d hd).of_nameOf? hy
    rw [Bool.eq_false_iff, Ne, Compilation.any_beq_iff hnames hplace]
    intro hname
    obtain ⟨d, hd, hname⟩ := Option.bind_eq_some_iff.1 hname
    exact nameOf?_ne_name hform hd ht hx hname
  · rw [Bool.eq_false_iff, Ne, Compilation.any_beq_iff hin hplace]
    exact fun hd => ne_name hform hd ht hx rfl

/-- A target that refers to a symbol is mentioned by the identifier that it is or ends in. -/
theorem mentionAt?_of_refersTo (hplain : t.isPlainTarget = true) (h : m.refersTo t s name = true) :
    ∃ x ∈ t.preorder, m.mentionAt? s name x = some t := by
  obtain ⟨x, hx⟩ := Node.exists_name_of_isPlainTarget hplain
  have hname := hx.simpleName?
  have hnode : s.node?.any (· == t) = false := by
    rw [Bool.eq_false_iff, Ne, Compilation.any_beq_iff hin hplace]
    exact fun hd => ne_target hform hd ht hx rfl
  rw [refersTo, Node.stripParens_of_namings hx.isAny_namings, hname, hnode, Bool.false_or, Bool.and_eq_true] at h
  obtain ⟨htext, hanswer⟩ := h
  obtain ⟨p, hp, hmention⟩ := exists_mention_eq ht hx
  have hcond : (x.is .identifier && x.text == name && !isDeclarationName s x) = true := by
    rw [Node.is_iff.2 hx.identifier, isDeclarationName_eq_false hin hform hplace ht hx]
    simpa using htext
  refine ⟨x, (Node.simpleName?_eq_some hname).1, ?_⟩
  rw [mentionAt?, if_pos hcond, hp]
  dsimp only [Option.bind_eq_bind, Option.bind_some]
  rw [hmention, if_pos hanswer]

end

/-! ### Mentions in a scope -/

private theorem any_addNew (found : List Node) (n e : Node) :
    (addNew found n).any (· == e) = (found.any (· == e) || n == e) := by
  unfold addNew
  split
  · next hfound =>
    cases hne : (n == e) with
    | false => rw [Bool.or_false]
    | true =>
      obtain ⟨k, hk, hkn⟩ := List.any_eq_true.1 hfound
      rw [Bool.or_true]
      exact List.any_eq_true.2 ⟨k, hk, Node.beq_iff.2 ((Node.beq_iff.1 hkn).trans (Node.beq_iff.1 hne))⟩
  · rw [List.any_append, List.any_cons, List.any_nil, Bool.or_false]

private theorem any_foldl_addNew (found ns : List Node) (e : Node) :
    (ns.foldl addNew found).any (· == e) = (found.any (· == e) || ns.any (· == e)) := by
  induction ns generalizing found with
  | nil => rw [List.foldl_nil, List.any_nil, Bool.or_false]
  | cons n ns ih => rw [List.foldl_cons, ih, any_addNew, List.any_cons, Bool.or_assoc]

private theorem pairwise_foldl_addNew {found ns : List Node} (h : found.Pairwise fun a b => (a == b) = false) :
    (ns.foldl addNew found).Pairwise fun a b => (a == b) = false := by
  induction ns generalizing found with
  | nil => exact h
  | cons n ns ih =>
    rw [List.foldl_cons]
    apply ih
    unfold addNew
    split
    · exact h
    · next hnew =>
      rw [List.pairwise_append]
      refine ⟨h, List.pairwise_singleton _ _, fun a ha b hb => ?_⟩
      rw [List.mem_singleton.1 hb, Bool.eq_false_iff]
      exact fun hab => hnew (List.any_eq_true.2 ⟨a, ha, hab⟩)

end Model

namespace Scope

/-- A scope lies in the compilation. -/
def IsIn (c : Compilation) (scope : Scope) : Prop := ∀ r ∈ scope.roots c, c.HasPlace r

variable {c : Compilation} {scope : Scope} {n x : Node}

private theorem isIn_of_ofSymbol? {s : Symbol} (hc : c.IsRead) (hs : s.IsIn c) (h : ofSymbol? c s = some scope) :
    scope.IsIn c := by
  cases s with
  | localVar d | parameter d =>
    obtain ⟨region, hregion, rfl⟩ := Option.map_eq_some_iff.1 h
    intro r hr
    rw [List.mem_singleton.1 hr]
    exact (hs d rfl).of_nearest? hregion
  | field d | property d =>
    obtain ⟨t, -, rfl⟩ := Option.map_eq_some_iff.1 h
    exact fun r hr => hc.hasPlace_of_members hr
  | _ => cases h

private theorem IsIn.of_mem_nodes (h : scope.IsIn c) (hn : n ∈ scope.nodes c) : c.HasPlace n := by
  obtain ⟨r, hr, hn⟩ := List.mem_flatMap.1 hn
  exact (h r hr).of_mem_preorder hn

private theorem mem_nodes_of_mem_preorder (hn : n ∈ scope.nodes c) (hx : x ∈ n.preorder) : x ∈ scope.nodes c := by
  obtain ⟨r, hr, hn⟩ := List.mem_flatMap.1 hn
  exact List.mem_flatMap.2 ⟨r, hr, Node.mem_preorder_trans hn hx⟩

end Scope

/-! ### Targets of writes -/

namespace Model

private theorem isHeld_of_mem_tupleElements {n x : Node} (hn : n.is .tupleExpression = true)
    (hx : x ∈ tupleElements n) : x.IsHeld := by
  obtain ⟨a, ha, hx⟩ := List.mem_filterMap.1 hx
  unfold Node.argumentExpression? at hx
  split at hx
  · next hk =>
    exact Node.isHeld_of_mem_children (Node.isAny_iff.2 ⟨_, by decide, Node.is_iff.1 hk⟩)
      (Node.mem_children_of_lastNamed? hx)
  · cases hx
    exact Node.isHeld_of_mem_children (Node.isAny_iff.2 ⟨_, by decide, Node.is_iff.1 hn⟩)
      (Node.mem_children_of_named ha)

private theorem isHeld_of_mem_targetsWithin {fuel : Nat} {target t : Node} {value? v? : Option Node} (h : target.IsHeld)
    (ht : (t, v?) ∈ targetsWithin fuel target value?) : t.IsHeld := by
  refine targetsWithin_induction (motive := fun target => target.IsHeld → t.IsHeld) ?_ ?_ ht h
  · rintro target rfl
    exact Node.isHeld_stripParens
  · intro target e hk he ih _
    exact ih (isHeld_of_mem_tupleElements hk he)

end Model

/-- Above what a write writes to there is no part of a name. -/
theorem Write.Targets.isHeld {w : Write} {t : Node} (h : w.Targets t) : t.IsHeld := by
  cases h with
  | assigned ha ht =>
    obtain ⟨hk, hleft, -⟩ := Node.kind_of_assignment? ha
    exact Model.isHeld_of_mem_targetsWithin (Node.isHeld_of_mem_children (Node.isAny_iff.2 ⟨_, by decide, hk⟩) hleft) ht
  | passed hn he ht =>
    subst ht
    unfold Node.argumentExpression? at he
    rw [if_pos (Node.is_iff.2 hn)] at he
    exact Node.isHeld_stripParens (Node.isHeld_of_mem_children (Node.isAny_iff.2 ⟨_, by decide, hn⟩)
      (Node.mem_children_of_lastNamed? he))
  | stepped hn he ht =>
    subst ht
    exact Node.isHeld_stripParens (Node.isHeld_of_mem_children (Node.isAny_of_subset hn (by decide))
      (Node.mem_children_of_firstNamed? he))

namespace Model

section

variable {m : Model} {s : Symbol} {scope : Scope} (hscope : scope.IsIn m.compilation)

include hscope

private theorem hasPlace_of_mentionAt? {name : String} {n e : Node} (hn : n ∈ scope.nodes m.compilation)
    (he : m.mentionAt? s name n = some e) : m.compilation.HasPlace e := by
  have hplace := hscope.of_mem_nodes hn
  rcases eq_or_parent?_of_mentionAt? he with rfl | hp
  · exact hplace
  · exact (hplace.of_parent? hp).1

/-- What an identifier of the scope mentions is among the mentions. -/
private theorem mem_references {name : String} (hname : s.name? = some name) {n e : Node}
    (hn : n ∈ scope.nodes m.compilation) (he : m.mentionAt? s name n = some e) : e ∈ m.references s scope := by
  have hany : (m.references s scope).any (· == e) = true := by
    rw [references, hname]
    dsimp only
    rw [any_foldl_addNew, List.any_nil, Bool.false_or]
    exact List.any_eq_true.2 ⟨e, List.mem_filterMap.2 ⟨n, hn, he⟩, Node.beq_refl e⟩
  obtain ⟨k, hk, hke⟩ := List.any_eq_true.1 hany
  obtain ⟨_, l, -, hl, hlk⟩ := exists_mention_of_mem_references hk
  rwa [(hasPlace_of_mentionAt? hscope hl hlk).eq_of_id (hasPlace_of_mentionAt? hscope hn he) (Node.beq_iff.1 hke)] at hk

end

private theorem isAnswer_of_mem_references {m : Model} {s : Symbol} {scope : Scope} {e : Node}
    (h : e ∈ m.references s scope) : s.isAnswer (m.symbol? e) = true := by
  obtain ⟨name, n, -, -, h⟩ := exists_mention_of_mem_references h
  unfold mentionAt? at h
  split at h
  · obtain ⟨p, -, h⟩ := Option.bind_eq_some_iff.1 h
    dsimp only at h
    split at h
    · next hanswer =>
      cases h
      exact hanswer
    · cases h
  · cases h

private theorem pairwise_references (m : Model) (s : Symbol) (scope : Scope) :
    (m.references s scope).Pairwise fun a b => (a == b) = false := by
  unfold references
  split
  · exact pairwise_foldl_addNew .nil
  · exact .nil

private theorem kind_of_declaredValue? {s : Symbol} {w : Write} (h : declaredValue? s = some w) :
    w.kind = .initializer := by
  unfold declaredValue? at h
  split at h
  · split at h
    · obtain ⟨v, -, rfl⟩ := Option.map_eq_some_iff.1 h
      rfl
    · cases h
  · split at h
    · obtain ⟨v, -, rfl⟩ := Option.map_eq_some_iff.1 h
      rfl
    · cases h
  · obtain ⟨v, -, rfl⟩ := Option.map_eq_some_iff.1 h
    rfl
  · cases h

/-- Whatever a write of a symbol writes to is a mention of the symbol in the write, if it is an identifier or an access
that ends in one. All mentions stand for the symbol, and none is listed twice. -/
theorem writes_areMentioned (documents : List Document) {s : Symbol} {scope : Scope}
    (hin : s.IsIn (.ofDocuments documents)) (hform : s.HasForm) (hscope : scope.IsIn (.ofDocuments documents)) :
    (∀ w ∈ (Compilation.ofDocuments documents).model.writes s scope, w.kind ≠ .initializer →
      ∃ name, s.name? = some name ∧
        (∃ t, w.Targets t ∧ (Compilation.ofDocuments documents).model.refersTo t s name = true) ∧
        ∀ t, w.Targets t → t.isPlainTarget = true →
          (Compilation.ofDocuments documents).model.refersTo t s name = true →
            t ∈ (Compilation.ofDocuments documents).model.references s scope ∧ w.node.contains t = true) ∧
    (∀ e ∈ (Compilation.ofDocuments documents).model.references s scope,
      s.isAnswer ((Compilation.ofDocuments documents).model.symbol? e) = true) ∧
    ((Compilation.ofDocuments documents).model.references s scope).Pairwise fun a b => (a == b) = false := by
  refine ⟨fun w hw hkind => ?_, fun _ => isAnswer_of_mem_references, pairwise_references ..⟩
  rcases List.mem_append.1 hw with hw | hw
  · exact absurd (kind_of_declaredValue? (Option.mem_toList.1 hw)) hkind
  split at hw
  · next name hname =>
    obtain ⟨n, hn, hw⟩ := List.mem_flatMap.1 hw
    obtain ⟨rfl, htarget⟩ := exists_target_of_mem_writesAt hw
    refine ⟨name, hname, htarget, fun t ht hplain hrefers => ?_⟩
    have hmem := ht.mem_preorder
    have hplace := (hscope.of_mem_nodes hn).of_mem_preorder hmem
    obtain ⟨x, hx, hmention⟩ := mentionAt?_of_refersTo hin hform hplace ht.isHeld hplain hrefers
    have hxscope := Scope.mem_nodes_of_mem_preorder hn (Node.mem_preorder_trans hmem hx)
    exact ⟨mem_references hscope hname hxscope hmention, Node.contains_of_mem_preorder hmem⟩
  · cases hw

end Model

namespace Sample

open Sketch

/-- `class C{C x=y;void M(C p){this.x=p;(x,((x),p))=p;x+=p;F(out x,ref this.x);x++;}}` -/
def everyWrite : Document :=
  let pair (left right : Sketch) : Sketch :=
    ofKind .tupleExpression (between "(" ")" [ofKind .argument [left], token ",", ofKind .argument [right]])
  document "C.cs"
    [classOf "C"
      [fieldOf [] "C" "x" (name "y"),
       method [] void "M" [parameterOf "C" "p"]
        [assign (access self "x") (name "p"),
         assign (pair (name "x") (pair (parens (name "x")) (name "p"))) (name "p"),
         statement (ofKind .assignmentExpression
          [(name "x").inField .left, ofLabel (.other "assignment_operator") [token "+="], (name "p").inField .right]),
         statement (ofKind .invocationExpression
          [(name "F").inField .function,
           (ofKind .argumentList (between "(" ")"
            [ofKind .argument [(token "out").spaced, name "x"], token ",",
             ofKind .argument [(token "ref").spaced, access self "x"]])).inField .arguments]),
         statement (ofKind .postfixUnaryExpression [name "x", token "++"])]]]

end Sample

/-- The theorem for a field and a write of each kind. -/
theorem Model.writes_areMentioned_everyWrite :
    ∃ d scope, (Symbol.field d).IsIn (.ofDocuments [Sample.everyWrite]) ∧ (Symbol.field d).HasForm ∧
      scope.IsIn (.ofDocuments [Sample.everyWrite]) ∧
      Scope.ofSymbol? (.ofDocuments [Sample.everyWrite]) (.field d) = some scope ∧
      ∀ k ∈ [WriteKind.assign, .compound, .out, .ref, .increment],
        ∃ w ∈ (Compilation.ofDocuments [Sample.everyWrite]).model.writes (.field d) scope, w.kind = k ∧
          ∃ t ∈ (Compilation.ofDocuments [Sample.everyWrite]).model.references (.field d) scope,
            w.node.contains t = true := by
  have hany : ((Compilation.ofDocuments [Sample.everyWrite]).places.any fun d =>
      d.is .variableDeclarator && (Symbol.field d).name? == some "x" &&
        (Scope.ofSymbol? (.ofDocuments [Sample.everyWrite]) (.field d)).any fun scope =>
          [WriteKind.assign, .compound, .out, .ref, .increment].all fun k =>
            ((Compilation.ofDocuments [Sample.everyWrite]).model.writes (.field d) scope).any fun w => w.kind == k &&
              w.node.preorder.all fun t => !(t.stripParens == t) || t.isPlainTarget ||
                !(Compilation.ofDocuments [Sample.everyWrite]).model.refersTo t (.field d) "x") = true := by
    decide +kernel
  simp only [List.any_eq_true, List.all_eq_true, Option.any_eq_true, Bool.and_eq_true, Bool.or_eq_true,
    Bool.not_eq_true', beq_iff_eq] at hany
  obtain ⟨d, hd, ⟨hform, hx⟩, scope, hscope, hkinds⟩ := hany
  have hin : (Symbol.field d).IsIn (.ofDocuments [Sample.everyWrite]) :=
    Symbol.isIn_of_eq rfl (Compilation.mem_places_iff.1 hd)
  have hscopeIn := Scope.isIn_of_ofSymbol? (Compilation.isRead_ofDocuments _) hin hscope
  refine ⟨d, scope, hin, hform, hscopeIn, hscope, fun k hk => ?_⟩
  obtain ⟨w, hw, rfl, hplain⟩ := hkinds k hk
  have hinitializer : w.kind ≠ .initializer := by
    intro h
    rw [h] at hk
    exact absurd hk (by decide)
  obtain ⟨name, hname, ⟨t, ht, hrefers⟩, hall⟩ :=
    (writes_areMentioned [Sample.everyWrite] hin hform hscopeIn).1 w hw hinitializer
  obtain rfl : "x" = name := Option.some.inj (hx.symm.trans hname)
  have htarget : t.isPlainTarget = true := by
    rcases hplain t ht.mem_preorder with (h | h) | h
    · rw [ht.stripParens_eq, Node.beq_refl] at h
      cases h
    · exact h
    · rw [hrefers] at h
      cases h
  obtain ⟨hmem, hcontains⟩ := hall t ht htarget hrefers
  exact ⟨w, hw, rfl, t, hmem, hcontains⟩

/-- The writes of the field, two of them by one assignment, and the seven mentions in them. -/
example : ((Compilation.ofDocuments [Sample.everyWrite]).places.filter (·.is .variableDeclarator)).map (fun d =>
      (((Compilation.ofDocuments [Sample.everyWrite]).model.writes (.field d)
          (.node (.root 0 Sample.everyWrite.tree))).map fun w => (w.kind, w.node.number),
        ((Compilation.ofDocuments [Sample.everyWrite]).model.references (.field d)
          (.node (.root 0 Sample.everyWrite.tree))).map (·.number))) =
    [([(.initializer, 9), (.assign, 27), (.assign, 38), (.assign, 38), (.compound, 62), (.out, 73), (.ref, 77),
      (.increment, 87)], [28, 42, 50, 63, 75, 79, 88])] := by
  decide +kernel

end Disposal
