import Mathlib.Algebra.GroupWithZero.Nat
import Disposal.Ownership.Sharing
import Disposal.Proofs.Declarations

/-!
# Loop variables

A loop variable stands for the collection that its loop runs through. Where the name of the variable is read, the loop
is above, and the way from the loop down to the name does not lead through the collection, unless the collection
mentions the name. So going from a loop variable to the collection leads out of the loop, and cannot be done forever.

* `Compilation.exists_catch`: which locals are declared by an identifier alone;
* `Compilation.mentions_of_symbol?`: what is read as a loop variable is read in the loop, by its name;
* `Node.loopDepth_lt`: the collection lies less deep inside loops than the place where the variable is read.
-/

namespace Disposal

namespace Node

/-! ### Going up -/

theorem ancestors_of_parent? {n p : Node} (h : n.parent? = some p) : n.ancestors = p :: p.ancestors := by
  obtain ⟨doc, above, here⟩ := n
  cases above with
  | nil => cases h
  | cons f fs =>
    cases h
    rfl

/-! ### Loops -/

def isLoop (n : Node) : Bool := n.isAny [.forEachStatement, .foreachStatement]

/-- The collection that a loop runs through. -/
def collection? (loop : Node) : Option Node := loop.field .right <|> (loop.named.reverse.drop 1).head?

theorem mem_children_of_collection? {loop x : Node} (h : loop.collection? = some x) : x ∈ loop.children := by
  refine mem_children_of_orElse (fun d hd => ?_) h
  exact mem_children_of_named (List.mem_reverse.1 (List.mem_of_mem_drop (List.mem_of_mem_head? hd)))

theorem exists_loop {decl x : Node} (h : decl.loopCollection? = some x) :
    ∃ loop, decl.parent? = some loop ∧ loop.isLoop = true ∧ loop.collection? = some x := by
  unfold loopCollection? at h
  obtain ⟨loop, hloop, h⟩ := Option.bind_eq_some_iff.1 h
  split at h
  · next hk => exact ⟨loop, hloop, hk, h⟩
  · cases h

theorem isLoop_eq_false {n : Node} {k : Kind} (hk : n.kind? = some k)
    (h : [Kind.forEachStatement, .foreachStatement].contains k = false) : n.isLoop = false := by
  rw [isLoop, isAny_eq_of_kind? hk, h]

private theorem isLoop_of_insideParens? {n x : Node} (h : n.insideParens? = some x) : n.isLoop = false := by
  unfold insideParens? at h
  split at h
  · next hk => exact isLoop_eq_false (is_iff.1 hk) rfl
  · cases h

theorem mem_children_of_foreachVariable? {loop x : Node} (h : loop.foreachVariable? = some x) : x ∈ loop.children := by
  unfold foreachVariable? at h
  split at h
  · next left hl =>
    split at h
    · cases h
      exact mem_children_of_field hl
    · cases h
  · split at h
    · rw [Option.filter_eq_some_iff] at h
      exact (List.takeWhile_sublist _).subset (List.mem_reverse.1 (List.mem_of_find?_eq_some h.1))
    · cases h

/-- How much the step down to a node leads into a loop: half as much to the collection as to any other part. -/
def loopWeight (n : Node) : Nat :=
  match n.parent? with
  | some loop => if loop.isLoop then (if loop.collection?.any (· == n) then 1 else 2) else 0
  | none => 0

/-- How deep a node lies inside loops. -/
def loopDepth (n : Node) : Nat := ((n :: n.ancestors).map loopWeight).sum

private theorem loopDepth_of_parent? {n p : Node} (h : n.parent? = some p) :
    n.loopDepth = n.loopWeight + p.loopDepth := by
  rw [loopDepth, ancestors_of_parent? h]
  rfl

theorem loopDepth_of_mem_children {n x : Node} (hn : n.isLoop = false) (hx : x ∈ n.children) :
    x.loopDepth = n.loopDepth := by
  have hp := parent?_of_mem_children hx
  rw [loopDepth_of_parent? hp, loopWeight, hp]
  simp [hn]

private theorem loopDepth_stripParens (n : Node) : n.stripParens.loopDepth = n.loopDepth := by
  refine follow_induction (motive := fun x => n.stripParens.loopDepth = x.loopDepth) mem_children_of_insideParens?
    (fun x y hxy h => ?_) rfl
  rw [h, loopDepth_of_mem_children (isLoop_of_insideParens? hxy) (mem_children_of_insideParens? x y hxy)]

/-- What a call is called on lies as deep inside loops as the call. -/
theorem loopDepth_of_invoked? {call name receiver : Node} (hk : call.kind? = some .invocationExpression)
    (hi : call.invoked? = some (name, some receiver)) : receiver.loopDepth = call.loopDepth := by
  unfold invoked? at hi
  obtain ⟨function, hf, hi⟩ := Option.bind_eq_some_iff.1 hi
  have hchild : function ∈ call.children := mem_children_of_orElse (fun _ hd => mem_children_of_firstNamed? hd) hf
  have hfun : function.stripParens.loopDepth = call.loopDepth := by
    rw [loopDepth_stripParens, loopDepth_of_mem_children (isLoop_eq_false hk rfl) hchild]
  dsimp only at hi
  split at hi
  case h_1 | h_2 =>
    obtain ⟨n, -, hi⟩ := Option.bind_eq_some_iff.1 hi
    cases hi
  case h_3 hk' =>
    obtain ⟨n, -, hi⟩ := Option.bind_eq_some_iff.1 hi
    obtain ⟨-, hr⟩ := Prod.mk.inj (Option.some.inj hi)
    have hmem := mem_children_of_orElse (fun _ hd => mem_children_of_firstNamed? hd) hr
    rw [loopDepth_of_mem_children (isLoop_eq_false hk' rfl) hmem, hfun]
  case h_4 =>
    obtain ⟨n, -, hi⟩ := Option.bind_eq_some_iff.1 hi
    obtain ⟨-, hr⟩ := Prod.mk.inj (Option.some.inj hi)
    -- the receiver stands beside the call, below a conditional access
    obtain ⟨parent, hp, hr⟩ := Option.bind_eq_some_iff.1 hr
    split at hr
    · next hparent =>
      obtain ⟨first, hfirst, hr⟩ := Option.bind_eq_some_iff.1 hr
      split at hr
      · cases hr
      · cases hr
        have hloop := isLoop_eq_false (is_iff.1 hparent) rfl
        rw [loopDepth_of_mem_children hloop (mem_children_of_firstNamed? hfirst), loopDepth_of_parent? hp, loopWeight,
            hp]
        simp [hloop]
    · cases hr
  case h_5 hk' =>
    obtain ⟨last, -, hi⟩ := Option.bind_eq_some_iff.1 hi
    obtain ⟨n, -, hi⟩ := Option.bind_eq_some_iff.1 hi
    obtain ⟨-, hr⟩ := Prod.mk.inj (Option.some.inj hi)
    rw [loopDepth_of_mem_children (isLoop_eq_false hk' rfl) (mem_children_of_firstNamed? hr), hfun]
  case h_6 => cases hi

private theorem exists_below {n a : Node} (h : a ∈ n.ancestors) :
    ∃ t ∈ n :: n.ancestors, t.parent? = some a ∧ t.loopWeight + a.loopDepth ≤ n.loopDepth := by
  obtain ⟨doc, above, here⟩ := n
  induction above generalizing here with
  | nil => cases h
  | cons f fs ih =>
    have hp : (⟨doc, f :: fs, here⟩ : Node).parent? = some ⟨doc, fs, f.parent⟩ := rfl
    rw [ancestors_of_parent? hp] at h ⊢
    rw [loopDepth_of_parent? hp]
    rcases List.mem_cons.1 h with rfl | h
    · exact ⟨_, List.mem_cons_self, hp, Nat.le_refl _⟩
    · obtain ⟨t, ht, hparent, hle⟩ := ih f.parent h
      exact ⟨t, List.mem_cons_of_mem _ ht, hparent, by omega⟩

/-! ### Names read in a loop -/

/-- A node lies in a loop and mentions a name there: an identifier with the name lies below every node on the way down
from the loop. -/
structure Mentions (n loop : Node) (name : String) : Prop where
  inLoop : loop ∈ n.ancestors
  mention : ∃ x, x.is .identifier = true ∧ x.text = name ∧
    ∀ t ∈ n :: n.ancestors, t.parent? = some loop → x ∈ t.preorder

theorem Mentions.of_child {n x loop : Node} {name : String} (h : x.Mentions loop name) (hx : x ∈ n.children)
    (hloop : loop.isLoop = true) (hn : n.isLoop = false) : n.Mentions loop name := by
  obtain ⟨hin, y, hy, hname, hall⟩ := h
  rw [ancestors_of_mem_children hx] at hin hall
  refine ⟨?_, y, hy, hname, fun t ht => hall t (List.mem_cons_of_mem _ ht)⟩
  rcases List.mem_cons.1 hin with rfl | hin
  · rw [hn] at hloop
    cases hloop
  · exact hin

theorem Mentions.of_parent? {n p loop : Node} {name : String} (h : p.Mentions loop name) (hp : n.parent? = some p)
    (hloop : loop.isLoop = true) (hn : p.isLoop = false) : n.Mentions loop name := by
  obtain ⟨hin, y, hy, hname, hall⟩ := h
  refine ⟨?_, y, hy, hname, ?_⟩
  · rw [ancestors_of_parent? hp]
    exact List.mem_cons_of_mem _ hin
  · rw [ancestors_of_parent? hp]
    intro t ht htp
    rcases List.mem_cons.1 ht with rfl | ht
    · rw [hp] at htp
      cases htp
      rw [hn] at hloop
      cases hloop
    · exact hall t ht htp

/-- The collection of a loop lies less deep inside loops than a place where its variable is mentioned. -/
theorem loopDepth_lt {c : Compilation} {n loop x : Node} {name : String} (hplace : c.HasPlace n)
    (h : n.Mentions loop name) (hloop : loop.isLoop = true) (hx : loop.collection? = some x)
    (hnot : ∀ y ∈ x.preorder, y.is .identifier = true → y.text ≠ name) : x.loopDepth < n.loopDepth := by
  obtain ⟨hin, y, hy, hname, hall⟩ := h
  obtain ⟨t, ht, htp, hle⟩ := exists_below hin
  have hxp := parent?_of_mem_children (mem_children_of_collection? hx)
  have hxweight : x.loopWeight = 1 := by
    rw [loopWeight, hxp]
    simp [hloop, hx, beq_refl]
  have htweight : t.loopWeight = 2 := by
    have hplacet : c.HasPlace t := by
      rcases List.mem_cons.1 ht with rfl | ht
      · exact hplace
      · exact hplace.of_mem_ancestors ht
    -- the way does not lead through the collection, which does not mention the name
    have hne : (x == t) = false := by
      rw [Bool.eq_false_iff]
      intro heq
      have hplacex : c.HasPlace x := .child (hplace.of_mem_ancestors hin) (mem_children_of_collection? hx)
      obtain rfl := hplacex.eq_of_id hplacet (beq_iff.1 heq)
      exact hnot y (hall x ht htp) hy hname
    rw [loopWeight, htp]
    simp [hloop, hx, hne]
  rw [loopDepth_of_parent? hxp, hxweight]
  omega

end Node

namespace Compilation

/-! ### What is read as a loop variable -/

variable {c : Compilation}

private theorem memberSymbol?_ne_localVar {name : String} {member : Node} (d : Node) :
    c.memberSymbol? name member ≠ some (.localVar d) := by
  intro h
  unfold memberSymbol? at h
  split at h
  · obtain ⟨v, -, h⟩ := Option.map_eq_some_iff.1 h
    cases h
  · split at h <;> cases h
  · split at h
    · obtain ⟨u, -, h⟩ := Option.map_eq_some_iff.1 h
      cases h
    · cases h

theorem lookupMember?_ne_localVar {t : TypeDecl} {name : String} {arity? : Option Nat} (d : Node) :
    c.lookupMember? t name arity? ≠ some (.localVar d) := by
  intro h
  obtain ⟨u, -, h⟩ := List.exists_of_findSome?_eq_some h
  unfold ownMember? at h
  rw [Option.orElse_eq_orElse, Option.orElse_eq_or, Option.or_eq_some_iff] at h
  rcases h with h | ⟨-, h⟩
  · obtain ⟨member, -, h⟩ := List.exists_of_findSome?_eq_some h
    exact memberSymbol?_ne_localVar d h
  · obtain ⟨method, -, h⟩ := Option.map_eq_some_iff.1 h
    cases h

private theorem memberOf_ne_localVar {t : TypeDecl} {name : String} {arity? : Option Nat} (d : Node) :
    Resolver.memberOf c t name arity? ≠ .localVar d := by
  intro h
  unfold Resolver.memberOf at h
  cases hs : c.lookupMember? t name arity? with
  | none =>
    rw [hs] at h
    cases h
  | some s =>
    rw [hs] at h
    exact lookupMember?_ne_localVar d (hs.trans (congrArg some h))

theorem memberOn?_ne_localVar {r : Resolver} {receiver : Node} {name : String} {arity? : Option Nat} (d : Node) :
    Resolver.memberOn? c r receiver name arity? ≠ some (.localVar d) := by
  intro h
  unfold Resolver.memberOn? at h
  split at h
  case h_1 | h_2 =>
    obtain ⟨t, -, h⟩ := Option.map_eq_some_iff.1 h
    exact memberOf_ne_localVar d h
  case h_3 => cases h
  case h_4 =>
    split at h
    · exact memberOf_ne_localVar d (Option.some.inj h)
    · cases h
    · split at h
      · exact memberOf_ne_localVar d (Option.some.inj h)
      · cases h

private theorem not_identifier_of_variableNamed? {list d : Node} {name : String}
    (h : list.variableNamed? name = some d) : d.is .identifier = false := by
  have hd := (List.mem_filter.1 (List.mem_of_find?_eq_some h)).2
  rw [Node.is_eq_of_kind? (Node.is_iff.1 hd)]
  rfl

private theorem not_identifier_of_localOfStatement? {statement use d : Node} {name : String}
    (h : statement.localOfStatement? use name = some d) : d.is .identifier = false := by
  unfold Node.localOfStatement? at h
  split at h
  · rw [Option.orElse_eq_orElse, Option.orElse_eq_or, Option.or_eq_some_iff] at h
    rcases h with h | ⟨-, h⟩
    · have hd := (List.mem_filter.1 (List.mem_of_getLast? h)).2
      simp only [Bool.and_eq_true] at hd
      obtain ⟨k, hk, hkind⟩ := Node.isAny_iff.1 hd.2.1
      simp only [List.mem_cons, List.not_mem_nil, or_false] at hk
      rw [Node.is_eq_of_kind? hkind]
      rcases hk with rfl | rfl <;> rfl
    · split at h
      · obtain ⟨list, -, h⟩ := Option.bind_eq_some_iff.1 h
        exact not_identifier_of_variableNamed? h
      · cases h
  · cases h

theorem mem_children_of_catchVariable? {decl x : Node} (h : decl.catchVariable? = some x) : x ∈ decl.children := by
  unfold Node.catchVariable? at h
  split at h
  · next name hname =>
    cases h
    exact Node.mem_children_of_field hname
  · split at h
    · next hl =>
      cases h
      exact Node.mem_children_of_named (by rw [hl]; simp)
    · cases h

private theorem inScope?_cases {use scope decl : Node} {name : String} {arity? : Option Nat}
    (hident : decl.is .identifier = true) (h : c.inScope? use name arity? scope = some (.localVar decl)) :
    (scope.isLoop = true ∧ scope.foreachVariable? = some decl ∧ decl.text = name) ∨
      ∃ clause ∈ scope.children, clause.is .catchDeclaration = true ∧ clause.catchVariable? = some decl := by
  have hne : decl.is .identifier ≠ false := by
    rw [hident]
    decide
  unfold inScope? at h
  split at h
  case h_1 | h_2 =>
    unfold Node.inBlock? at h
    split at h
    · cases h
    · obtain ⟨d, hd, h⟩ := Option.map_eq_some_iff.1 h
      cases h
      obtain ⟨statement, -, hd⟩ := List.mem_filterMap.1 (List.mem_of_getLast? hd)
      exact absurd (not_identifier_of_localOfStatement? hd) hne
  case h_3 | h_4 | h_5 =>
    obtain ⟨d, hd, h⟩ := Option.map_eq_some_iff.1 h
    cases h
    obtain ⟨list, -, hd⟩ := Option.bind_eq_some_iff.1 hd
    exact absurd (not_identifier_of_variableNamed? hd) hne
  case h_6 hk | h_7 hk =>
    obtain ⟨d, hd, h⟩ := Option.map_eq_some_iff.1 h
    cases h
    obtain ⟨hd, hname⟩ := Option.filter_eq_some_iff.1 hd
    refine .inl ⟨?_, hd, LawfulBEq.eq_of_beq hname⟩
    rw [Node.isLoop, Node.isAny_eq_of_kind? hk]
    rfl
  case h_8 =>
    obtain ⟨d, hd, h⟩ := Option.map_eq_some_iff.1 h
    cases h
    obtain ⟨clause, hclause, hd⟩ := Option.bind_eq_some_iff.1 (Option.filter_eq_some_iff.1 hd).1
    have hkind := List.find?_some hclause
    rw [Node.isAny_singleton] at hkind
    exact .inr ⟨clause, Node.mem_children_of_childOf? hclause, hkind, hd⟩
  case h_18 =>
    split at h
    · obtain ⟨owner, -, h⟩ := Option.map_eq_some_iff.1 h
      cases h
    · cases h
  case h_19 =>
    split at h
    · rw [Option.orElse_eq_orElse, Option.orElse_eq_or, Option.or_eq_some_iff] at h
      rcases h with h | ⟨-, h⟩
      · obtain ⟨p, -, h⟩ := Option.map_eq_some_iff.1 h
        cases h
      · obtain ⟨t, -, h⟩ := Option.bind_eq_some_iff.1 h
        exact absurd h (lookupMember?_ne_localVar decl)
    · cases h
  all_goals
    obtain ⟨p, -, h⟩ := Option.map_eq_some_iff.1 h
    cases h

private theorem lookupName_cases {use decl : Node} {name : String} {arity? : Option Nat}
    (hident : decl.is .identifier = true) (h : c.lookupName use name arity? = .localVar decl) :
    ∃ scope ∈ use.ancestors, (scope.isLoop = true ∧ scope.foreachVariable? = some decl ∧ decl.text = name) ∨
      ∃ clause ∈ scope.children, clause.is .catchDeclaration = true ∧ clause.catchVariable? = some decl := by
  unfold lookupName at h
  split at h
  · next s hs =>
    subst h
    obtain ⟨scope, hscope, hs⟩ := List.exists_of_findSome?_eq_some hs
    exact ⟨scope, hscope, inScope?_cases hident hs⟩
  · split at h
    · cases h
    · split at h <;> cases h

private theorem declaredAt?_cases {identifier decl : Node} (hident : decl.is .identifier = true)
    (hplace : c.HasPlace identifier) (h : c.declaredAt? identifier = some (.localVar decl)) :
    decl = identifier ∧ ∃ owner, identifier.parent? = some owner ∧
      (owner.isLoop = true ∧ owner.foreachVariable? = some decl ∨
        owner.is .catchDeclaration = true ∧ owner.catchVariable? = some decl) := by
  have hkind := Node.is_iff.1 hident
  unfold declaredAt? at h
  obtain ⟨owner, howner, h⟩ := Option.bind_eq_some_iff.1 h
  have hplace' := (hplace.of_parent? howner).1
  dsimp only at h
  split at h
  case h_1 hk =>
    split at h
    · unfold Node.variableSymbol at h
      split at h
      · cases h
      · cases h
        rw [hk] at hkind
        cases hkind
    · cases h
  case h_6 hk | h_7 hk =>
    split at h
    · cases h
      rw [hk] at hkind
      cases hkind
    · cases h
  case h_8 hk | h_9 hk =>
    split at h
    · next hany =>
      cases h
      obtain ⟨x, hx, heq⟩ := (Option.any_eq_true _ _).1 hany
      refine ⟨rfl, owner, howner, .inl ⟨?_, ?_⟩⟩
      · rw [Node.isLoop, Node.isAny_eq_of_kind? hk]
        rfl
      · rw [hx, (hplace'.of_foreachVariable? hx).eq_of_id hplace (Node.beq_iff.1 heq)]
    · cases h
  case h_10 hk =>
    split at h
    · next hany =>
      cases h
      obtain ⟨x, hx, heq⟩ := (Option.any_eq_true _ _).1 hany
      refine ⟨rfl, owner, howner, .inr ⟨Node.is_iff.2 hk, ?_⟩⟩
      rw [hx, (hplace'.of_catchVariable? hx).eq_of_id hplace (Node.beq_iff.1 heq)]
    · cases h
  case h_11 =>
    split at h
    · obtain ⟨t, -, h⟩ := Option.map_eq_some_iff.1 h
      cases h
    · cases h
  all_goals
    split at h
    · cases h
    · cases h

/-- A symbol is looked up by a name or as a member. -/
private theorem exists_lookup {e : Node} {s : Symbol} (hplace : c.HasPlace e) (h : c.model.symbol? e = some s) :
    (∃ n simple, c.HasPlace n ∧ n.simpleName? = some simple ∧
      (c.declaredAt? simple <|> some (c.lookupName n simple.text n.callArity?)) = some s) ∨
    ∃ r receiver name arity?, Resolver.memberOn? c r receiver name arity? = some s := by
  have key : ∀ framework steps e, c.HasPlace e → (Resolver.within c framework steps).symbol? e = some s →
      (∃ n simple, c.HasPlace n ∧ n.simpleName? = some simple ∧
        (c.declaredAt? simple <|> some (c.lookupName n simple.text n.callArity?)) = some s) ∨
      ∃ r receiver name arity?, Resolver.memberOn? c r receiver name arity? = some s := by
    intro framework steps
    induction steps with
    | zero =>
      intro e _ h
      cases h
    | succ steps ih =>
      intro e he h
      have hn := he.of_stripParens
      change Resolver.symbolStep c _ e = some s at h
      unfold Resolver.symbolStep at h
      dsimp only at h
      split at h
      case h_1 | h_2 =>
        obtain ⟨simple, hsimple, h⟩ := Option.bind_eq_some_iff.1 h
        split at h
        · next access ha => exact ih access (hn.of_namedAccess? ha) h
        · exact .inl ⟨_, simple, hn, hsimple, h⟩
      case h_3 | h_4 =>
        obtain ⟨receiver, -, h⟩ := Option.bind_eq_some_iff.1 h
        obtain ⟨member, -, h⟩ := Option.bind_eq_some_iff.1 h
        exact .inr ⟨_, _, _, _, h⟩
      case h_5 =>
        obtain ⟨last, hl, h⟩ := Option.bind_eq_some_iff.1 h
        exact ih last (hn.of_lastNamed? hl) h
      case h_6 =>
        obtain ⟨function, hf, h⟩ := Option.bind_eq_some_iff.1 h
        exact ih function (.child hn (Node.mem_children_of_orElse
          (fun _ hd => Node.mem_children_of_firstNamed? hd) hf)) h
      case h_7 => cases h
  exact key _ _ e hplace h

/-- The node is the identifier of a variable that stands in a loop. -/
structure IsLoopVariable (decl loop : Node) : Prop where
  isIdentifier : decl.is .identifier = true
  parent : decl.parent? = some loop
  isLoop : loop.isLoop = true

/-- A local that is declared by an identifier alone belongs to a loop or to a `catch` clause. -/
theorem exists_catch {e decl : Node} (hplace : c.HasPlace e) (h : c.model.symbol? e = some (.localVar decl))
    (hident : decl.is .identifier = true) (hloop : ∀ loop, ¬IsLoopVariable decl loop) :
    ∃ clause, c.HasPlace clause ∧ clause.is .catchDeclaration = true ∧ clause.catchVariable? = some decl := by
  have hno : ∀ loop : Node, loop.isLoop = true → loop.foreachVariable? ≠ some decl := by
    intro loop hisLoop hvar
    have hparent := Node.parent?_of_mem_children (Node.mem_children_of_foreachVariable? hvar)
    exact hloop loop ⟨hident, hparent, hisLoop⟩
  rcases exists_lookup hplace h with ⟨n, simple, hn, hsimple, h⟩ | ⟨r, receiver, name, arity?, h⟩
  · rw [Option.orElse_eq_orElse, Option.orElse_eq_or, Option.or_eq_some_iff] at h
    rcases h with h | ⟨-, h⟩
    · have hplace' := hn.of_simpleName? hsimple
      obtain ⟨rfl, owner, howner, ⟨hisLoop, hvar⟩ | hcatch⟩ := declaredAt?_cases hident hplace' h
      · exact absurd hvar (hno owner hisLoop)
      · exact ⟨owner, (hplace'.of_parent? howner).1, hcatch⟩
    · obtain ⟨scope, hscope, ⟨hisLoop, hvar, -⟩ | ⟨clause, hclause, hcatch⟩⟩ :=
        lookupName_cases hident (Option.some.inj h)
      · exact absurd hvar (hno scope hisLoop)
      · exact ⟨clause, .child (hn.of_mem_ancestors hscope) hclause, hcatch⟩
  · exact absurd h (memberOn?_ne_localVar decl)

variable {decl loop : Node} (hv : IsLoopVariable decl loop)

include hv

private theorem not_catchVariable?_of_isLoopVariable {clause : Node} (hk : clause.is .catchDeclaration = true) :
    clause.catchVariable? ≠ some decl := by
  intro h
  have hparent := Node.parent?_of_mem_children (mem_children_of_catchVariable? h)
  rw [hv.parent] at hparent
  cases hparent
  have hloop := hv.isLoop
  rw [Node.isLoop_eq_false (Node.is_iff.1 hk) rfl] at hloop
  cases hloop

private theorem eq_of_foreachVariable? {scope : Node} (h : scope.foreachVariable? = some decl) : scope = loop := by
  have hparent := Node.parent?_of_mem_children (Node.mem_children_of_foreachVariable? h)
  rw [hv.parent] at hparent
  exact (Option.some.inj hparent).symm

/-- A name that is looked up and stands for a loop variable mentions it in the loop. -/
private theorem mentions_of_name {n simple : Node} (hplace : c.HasPlace n) (hsimple : n.simpleName? = some simple)
    (h : (c.declaredAt? simple <|> some (c.lookupName n simple.text n.callArity?)) = some (.localVar decl)) :
    loop.foreachVariable? = some decl ∧ n.Mentions loop decl.text := by
  unfold Node.simpleName? at hsimple
  dsimp only at hsimple
  split at hsimple
  · next hident =>
    have hbelow : simple ∈ n.preorder := by
      cases hsimple
      exact Node.follow_mem_preorder Node.mem_children_of_towardsName? n
    have hsimple := Option.some.inj hsimple
    rw [hsimple] at hident
    rw [Option.orElse_eq_orElse, Option.orElse_eq_or, Option.or_eq_some_iff] at h
    rcases h with h | ⟨-, h⟩
    · obtain ⟨rfl, owner, -, ⟨-, hvar⟩ | ⟨hk, hcatch⟩⟩ :=
        declaredAt?_cases hv.isIdentifier (hplace.of_mem_preorder hbelow) h
      case inr => exact absurd hcatch (not_catchVariable?_of_isLoopVariable hv hk)
      rw [eq_of_foreachVariable? hv hvar] at hvar
      refine ⟨hvar, ?_⟩
      -- upwards from the declaration to the whole name, of which no part is a loop
      refine Node.follow_induction (motive := fun x => x.Mentions loop decl.text) Node.mem_children_of_towardsName?
        (fun x y hxy hy => hy.of_child (Node.mem_children_of_towardsName? x y hxy) hv.isLoop ?_) ?_
      · unfold Node.towardsName? at hxy
        split at hxy
        case h_6 => cases hxy
        all_goals exact Node.isLoop_eq_false ‹_› rfl
      · rw [hsimple]
        refine ⟨?_, decl, hident, rfl, fun t ht _ => ?_⟩
        · rw [Node.ancestors_of_parent? hv.parent]
          exact List.mem_cons_self
        · rcases List.mem_cons.1 ht with rfl | ht
          · exact Node.mem_preorder_self _
          · exact Node.mem_preorder_of_mem_ancestors (hplace.of_mem_preorder hbelow) ht
    · obtain ⟨scope, hin, ⟨-, hvar, hname⟩ | ⟨clause, -, hk, hcatch⟩⟩ :=
        lookupName_cases hv.isIdentifier (Option.some.inj h)
      case inr => exact absurd hcatch (not_catchVariable?_of_isLoopVariable hv hk)
      have heq := eq_of_foreachVariable? hv hvar
      rw [heq] at hvar hin
      refine ⟨hvar, hin, simple, hident, hname.symm, fun t ht _ => ?_⟩
      rcases List.mem_cons.1 ht with rfl | ht
      · exact hbelow
      · exact Node.mem_preorder_trans (Node.mem_preorder_of_mem_ancestors hplace ht) hbelow
  · cases hsimple

private theorem mentions_of_symbolStep {r : Resolver}
    (hr : ∀ e, c.HasPlace e → r.symbol? e = some (.localVar decl) →
      loop.foreachVariable? = some decl ∧ e.Mentions loop decl.text) {e : Node} (hplace : c.HasPlace e)
    (h : Resolver.symbolStep c r e = some (.localVar decl)) :
    loop.foreachVariable? = some decl ∧ e.Mentions loop decl.text := by
  have hn := hplace.of_stripParens
  suffices hstrip : loop.foreachVariable? = some decl ∧ e.stripParens.Mentions loop decl.text by
    refine ⟨hstrip.1, ?_⟩
    refine Node.follow_induction (motive := fun x => x.Mentions loop decl.text) Node.mem_children_of_insideParens?
      (fun x y hxy hy => ?_) hstrip.2
    exact hy.of_child (Node.mem_children_of_insideParens? x y hxy) hv.isLoop (Node.isLoop_of_insideParens? hxy)
  unfold Resolver.symbolStep at h
  dsimp only at h
  split at h
  case h_1 | h_2 =>
    obtain ⟨simple, hsimple, h⟩ := Option.bind_eq_some_iff.1 h
    split at h
    · next access ha =>
      obtain ⟨hvar, hmentions⟩ := hr access (hn.of_namedAccess? ha) h
      unfold Resolver.namedAccess? at ha
      obtain ⟨parent, hp, ha⟩ := Option.bind_eq_some_iff.1 ha
      refine ⟨hvar, ?_⟩
      split at ha
      case h_1 hk =>
        split at ha
        · cases ha
          exact hmentions.of_parent? hp hv.isLoop (Node.isLoop_eq_false hk rfl)
        · cases ha
      case h_2 hk | h_3 hk =>
        cases ha
        exact hmentions.of_parent? hp hv.isLoop (Node.isLoop_eq_false hk rfl)
      case h_4 => cases ha
    · exact mentions_of_name hv hn hsimple h
  case h_3 | h_4 =>
    obtain ⟨receiver, -, h⟩ := Option.bind_eq_some_iff.1 h
    obtain ⟨member, -, h⟩ := Option.bind_eq_some_iff.1 h
    exact absurd h (memberOn?_ne_localVar decl)
  case h_5 hk =>
    obtain ⟨last, hl, h⟩ := Option.bind_eq_some_iff.1 h
    obtain ⟨hvar, hmentions⟩ := hr last (hn.of_lastNamed? hl) h
    exact ⟨hvar, hmentions.of_child (Node.mem_children_of_lastNamed? hl) hv.isLoop (Node.isLoop_eq_false hk rfl)⟩
  case h_6 hk =>
    obtain ⟨function, hf, h⟩ := Option.bind_eq_some_iff.1 h
    have hchild := Node.mem_children_of_orElse (fun _ hd => Node.mem_children_of_firstNamed? hd) hf
    obtain ⟨hvar, hmentions⟩ := hr function (.child hn hchild) h
    exact ⟨hvar, hmentions.of_child hchild hv.isLoop (Node.isLoop_eq_false hk rfl)⟩
  case h_7 => cases h

/-- What stands for a loop variable mentions it in its loop. -/
theorem mentions_of_symbol? {e : Node} (hplace : c.HasPlace e) (h : c.model.symbol? e = some (.localVar decl)) :
    loop.foreachVariable? = some decl ∧ e.Mentions loop decl.text := by
  have key : ∀ framework steps, ∀ e, c.HasPlace e →
      (Resolver.within c framework steps).symbol? e = some (.localVar decl) →
        loop.foreachVariable? = some decl ∧ e.Mentions loop decl.text := by
    intro framework steps
    induction steps with
    | zero =>
      intro e _ h
      cases h
    | succ steps ih =>
      intro e he h
      exact mentions_of_symbolStep hv ih he h
  exact key _ _ e hplace h

end Compilation

end Disposal
