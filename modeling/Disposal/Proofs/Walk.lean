import Mathlib.Data.List.ProdSigma
import Disposal.Ownership.Classify
import Disposal.Proofs.Declarations

/-!
# The walk that finds owners

Which questions a question of `Ownership.answer` leads to, and why the walk comes to an end: each of them is about an
expression of lower rank, or is asked with one more symbol on the way, and there are only so many symbols.

* `Ownership.settled_answer`: an answer depends on the questions of `Ownership.asked` only;
* `Ownership.lighter_of_mem_asked`: each of them weighs less;
* `Ownership.settled_answerWithin`, `Ownership.answerWithin_limit`: within the limit every question has an answer, and
  a higher limit would not change it.
-/

namespace Disposal

/-! ### Symbols on the way -/

namespace Symbol

theorem beq_of_key? {a b : Symbol} {k : Nat × Node.Id} (ha : a.key? = some k) (hb : b.key? = some k) :
    (a == b) = true := by
  cases a <;> cases b <;> simp only [key?, Option.some.injEq, reduceCtorEq] at ha hb <;>
    (subst ha; simp only [Prod.mk.injEq] at hb) <;> first
    | exact Node.beq_iff.2 hb.2.symm
    | exact absurd hb.1 (by decide)

private theorem exists_key? {c : Compilation} {s : Symbol} {n : Node} (hs : s.node? = some n) (h : s.IsIn c) :
    ∃ i < 6, ∃ m ∈ c.places, s.key? = some (i, m.id) := by
  have hn := (h n hs).mem_places
  cases s <;> cases hs <;> exact ⟨_, by decide, n, hn, rfl⟩

end Symbol

/-- The symbols on a way are declared at places of the compilation, each at another one. -/
structure IsTrail (c : Compilation) (path : List Symbol) : Prop where
  declared : ∀ s ∈ path, s.node?.isSome = true ∧ s.IsIn c
  distinct : path.Pairwise fun a b => (a == b) = false

theorem IsTrail.nil (c : Compilation) : IsTrail c [] := ⟨by simp, by simp⟩

theorem IsTrail.cons {c : Compilation} {path : List Symbol} (h : IsTrail c path) {s : Symbol} {n : Node}
    (hs : s.node? = some n) (hin : s.IsIn c) (hnew : path.contains s = false) : IsTrail c (s :: path) := by
  constructor
  · intro t ht
    rcases List.mem_cons.1 ht with rfl | ht
    · exact ⟨by rw [hs]; rfl, hin⟩
    · exact h.declared t ht
  · refine List.pairwise_cons.2 ⟨?_, h.distinct⟩
    intro t ht
    rw [List.contains_eq_any_beq, List.any_eq_false] at hnew
    simpa using hnew t ht

/-- A way is no longer than there are symbols that nodes can declare. -/
theorem IsTrail.length_le {c : Compilation} {path : List Symbol} (h : IsTrail c path) : path.length ≤ 6 * c.size := by
  have hkey : ∀ s ∈ path, ∃ i < 6, ∃ m ∈ c.places, s.key? = some (i, m.id) := by
    intro s hs
    obtain ⟨hn, hin⟩ := h.declared s hs
    obtain ⟨n, hn⟩ := Option.isSome_iff_exists.1 hn
    exact Symbol.exists_key? hn hin
  let all := (List.range 6 ×ˢ c.places.map Node.id).map some
  have hnodup : (path.map Symbol.key?).Nodup := by
    refine List.pairwise_map.2 (h.distinct.imp_of_mem ?_)
    -- symbols with one key are equal, and no two on the way are
    intro a b ha _ hab heq
    obtain ⟨i, -, m, -, hk⟩ := hkey a ha
    rw [Symbol.beq_of_key? hk (heq ▸ hk)] at hab
    cases hab
  have hsub : path.map Symbol.key? ⊆ all := by
    intro k hk
    obtain ⟨s, hs, rfl⟩ := List.mem_map.1 hk
    obtain ⟨i, hi, m, hm, hk⟩ := hkey s hs
    exact List.mem_map.2 ⟨(i, m.id), List.mem_product.2 ⟨List.mem_range.2 hi, List.mem_map_of_mem hm⟩, hk.symm⟩
  have hlen : all.length = 6 * c.size := by
    rw [List.length_map, List.length_product, List.length_range, List.length_map, c.length_places]
  calc path.length = (path.map Symbol.key?).length := (List.length_map ..).symm
    _ ≤ all.length := List.Nodup.length_le_of_subset hnodup hsub
    _ = 6 * c.size := hlen

/-- One more symbol on the way makes up for any number up to the number of places. -/
theorem IsTrail.room_cons_lt {c : Compilation} {path : List Symbol} {s : Symbol} (h : IsTrail c (s :: path)) {n : Nat}
    (hn : n ≤ c.size) :
    (6 * c.size - (s :: path).length) * (c.size + 1) + n < (6 * c.size - path.length) * (c.size + 1) := by
  have hlen := h.length_le
  rw [List.length_cons] at hlen ⊢
  obtain ⟨k, hk⟩ : ∃ k, 6 * c.size - path.length = k + 1 := ⟨6 * c.size - path.length - 1, by omega⟩
  have hk' : 6 * c.size - (path.length + 1) = k := by omega
  rw [hk', hk, Nat.succ_mul]
  omega

/-- At the beginning of a way the limit leaves room for all symbols and one more expression. -/
theorem Compilation.room_lt_limit (c : Compilation) {n : Nat} (hn : n ≤ c.size) :
    (6 * c.size - ([] : List Symbol).length) * (c.size + 1) + n < c.model.limit := by
  show (6 * c.size - 0) * (c.size + 1) + n < 6 * (c.size + 1) * (c.size + 1)
  rw [Nat.mul_succ 6, Nat.add_mul, Nat.sub_zero]
  omega

namespace Ownership

/-! ### Which questions are asked -/

section

variable (m : Model) (path : List Symbol)

/-- The questions that a local leads to: of the values written to it before it is used. -/
def askedByLocal (decl use : Node) : List (List Symbol × Query) :=
  if decl.is .identifier then []
  else
    match decl.region? with
    | none => []
    | some region =>
      if use.inNestedLambda region || path.contains (.localVar decl) then []
      else
        ((m.writes (.localVar decl) (.node region)).filter fun w =>
          (Order.executedBefore w.node use).isPossible).filterMap fun w =>
            w.value?.map fun v => (.localVar decl :: path, .value v w.node)

/-- The questions that a name leads to. -/
def askedByName (e use : Node) : List (List Symbol × Query) :=
  match m.symbol? e with
  | some (.localVar decl) => askedByLocal m path decl use
  | some (.property p) =>
    if (Symbol.property p).isStatic || p.isStored then [] else [(path, .returns p.getterBody)]
  | _ => []

/-- The question that a call to a method of the compilation leads to. -/
def askedByMethod (call : Node) : List (List Symbol × Query) :=
  match m.symbol? call with
  | some (.method method) => [(path, .returns method)]
  | _ => []

/-- The questions about several parts of an expression. -/
def askedOf (parts : List Node) (use : Node) : List (List Symbol × Query) :=
  parts.map fun part => (path, .value part use)

/-- Whether a call is `Tuple.Create(…)` or `ValueTuple.Create(…)`. -/
def buildsTuple (receiver : Node) (name : String) : Bool :=
  name == "Create" && ["Tuple", "ValueTuple"].contains receiver.stripParens.text

/-- The questions that a call leads to. -/
def askedByCall (call use : Node) : List (List Symbol × Query) :=
  match call.invoked? with
  | none => []
  | some (_, none) => askedByMethod m path call
  | some (name, some receiver) =>
    if name.text == "ConfigureAwait" then [(path, .value receiver use)]
    else if Framework.isElementProjection name.text then []
    else if buildsTuple receiver name.text then
      askedOf path (call.arguments.filterMap Node.argumentExpression?) use
    else if (m.frameworkCall? call).isSome then []
    else askedByMethod m path call

/-- The questions that an operation with two operands leads to. -/
def askedByOperation (e use : Node) : List (List Symbol × Query) :=
  match e.binaryOperator? with
  | some "as" => askedOf path e.firstNamed?.toList use
  | some "??" => askedOf path (e.firstNamed?.toList ++ e.lastNamed?.toList) use
  | _ => []

/-- The questions that an expression without parentheses leads to. -/
def askedByExpression (e use : Node) : List (List Symbol × Query) :=
  match e.kind? with
  | some .castExpression | some .assignmentExpression => askedOf path e.lastNamed?.toList use
  | some .asExpression | some .postfixUnaryExpression | some .awaitExpression =>
    askedOf path e.firstNamed?.toList use
  | some .binaryExpression => askedByOperation path e use
  | some .conditionalExpression => askedOf path e.branches use
  | some .switchExpression => askedOf path e.armValues use
  | some .tupleExpression => askedOf path (Model.tupleElements e) use
  | some .invocationExpression => askedByCall m path e use
  | some .memberAccessExpression =>
    (if e.isUnwrapping then askedOf path e.memberReceiver?.toList use else []) ++ askedByName m path e use
  | some .identifier | some .genericName | some .memberBindingExpression | some .conditionalAccessExpression =>
    askedByName m path e use
  | _ => []

/-- The questions that a question leads to, each with the symbols on the way to it. -/
def asked : Query → List (List Symbol × Query)
  | .value expr use => askedByExpression m path expr.stripParens use
  | .returns method =>
    if path.contains (.method method) then []
    else
      (method.returnedExpressions.filter fun e => !returnsMember m e).map fun e =>
        (.method method :: path, .value e e)

end

/-! ### Answers depend on the questions asked -/

/-- Both give the same answer. -/
def Settled {α : Type} (a b : Option α) : Prop := ∃ v, a = some v ∧ b = some v

theorem Settled.some {α : Type} (v : α) : Settled (some v) (some v) := ⟨v, rfl, rfl⟩

theorem Settled.map {α β : Type} {a b : Option α} (h : Settled a b) (f : α → β) : Settled (a.map f) (b.map f) := by
  obtain ⟨v, rfl, rfl⟩ := h
  exact ⟨f v, rfl, rfl⟩

theorem Settled.mapM {α β : Type} {l : List α} {f g : α → Option β} (h : ∀ x ∈ l, Settled (f x) (g x)) :
    Settled (l.mapM f) (l.mapM g) := by
  induction l with
  | nil => exact .some []
  | cons x l ih =>
    obtain ⟨v, hf, hg⟩ := h x List.mem_cons_self
    obtain ⟨vs, hfs, hgs⟩ := ih fun y hy => h y (List.mem_cons_of_mem x hy)
    rw [List.mapM_cons, List.mapM_cons, hf, hg, hfs, hgs]
    exact .some (v :: vs)

section

variable {m : Model} {path : List Symbol} {ask ask' : Answers}

/-- Both answer all of some questions alike. -/
def SettledOn (ask ask' : Answers) (qs : List (List Symbol × Query)) : Prop :=
  ∀ x ∈ qs, Settled (ask x.1 x.2) (ask' x.1 x.2)

private theorem settled_ofPart {part? : Option Node} {use : Node}
    (h : SettledOn ask ask' (askedOf path part?.toList use)) :
    Settled (ofPart ask path part? use) (ofPart ask' path part? use) := by
  cases part? with
  | none => exact .some none
  | some part => exact h (path, .value part use) (by simp [askedOf])

private theorem settled_ofConversion {part? : Option Node} {use : Node}
    (h : SettledOn ask ask' (askedOf path part?.toList use)) :
    Settled (ofConversion ask path part? use) (ofConversion ask' path part? use) :=
  (settled_ofPart h).map _

private theorem settled_ofAny {parts : List Node} {use : Node} (h : SettledOn ask ask' (askedOf path parts use)) :
    Settled (ofAny ask path parts use) (ofAny ask' path parts use) := by
  refine (Settled.mapM ?_).map _
  intro part hpart
  exact h (path, .value part use) (List.mem_map_of_mem hpart)

private theorem settled_ofReturns {method : Node} (h : SettledOn ask ask' (asked m path (.returns method))) :
    Settled (ofReturns m ask path method) (ofReturns m ask' path method) := by
  unfold ofReturns
  rw [asked] at h
  split at h
  · next hc =>
    rw [if_pos hc, if_pos hc]
    exact .some none
  · next hc =>
    rw [if_neg hc, if_neg hc]
    cases hr : method.returnedExpressions with
    | nil => exact .some _
    | cons e es =>
      rw [hr] at h
      refine (Settled.mapM ?_).map _
      intro r hmem
      cases hm : returnsMember m r with
      | true => exact .some _
      | false =>
        refine h (.method method :: path, .value r r) (List.mem_map.2 ⟨r, ?_, rfl⟩)
        exact List.mem_filter.2 ⟨hmem, by rw [hm]; rfl⟩

private theorem settled_ofLocal {decl use : Node} (h : SettledOn ask ask' (askedByLocal m path decl use)) :
    Settled (ofLocal m ask path decl use) (ofLocal m ask' path decl use) := by
  unfold askedByLocal at h
  unfold ofLocal
  split at h
  · next hi =>
    rw [if_pos hi, if_pos hi]
    exact .some _
  · next hi =>
    rw [if_neg hi, if_neg hi]
    cases hr : decl.region? with
    | none => exact .some none
    | some region =>
      rw [hr] at h
      dsimp only at h ⊢
      cases hl : use.inNestedLambda region with
      | true => exact .some _
      | false =>
        cases hp : path.contains (.localVar decl) with
        | true => exact .some none
        | false =>
          simp only [hl, hp, Bool.or_false, Bool.false_eq_true, if_false] at h ⊢
          refine (Settled.mapM ?_).map _
          intro w hw
          cases hv : w.value? with
          | none => exact .some _
          | some v =>
            refine h (.localVar decl :: path, .value v w.node) (List.mem_filterMap.2 ⟨w, hw, ?_⟩)
            rw [hv]
            rfl

private theorem settled_ofSymbol {e use : Node} (h : SettledOn ask ask' (askedByName m path e use)) :
    Settled (ofSymbol m ask path e use) (ofSymbol m ask' path e use) := by
  unfold askedByName at h
  unfold ofSymbol
  cases hs : m.symbol? e with
  | none => exact .some none
  | some s =>
    rw [hs] at h
    cases s with
    | localVar decl => exact settled_ofLocal h
    | property p =>
      dsimp only at h ⊢
      cases hst : (Symbol.property p).isStatic with
      | true => exact .some _
      | false =>
        cases hstored : p.isStored with
        | true => exact .some _
        | false =>
          simp only [hst, hstored, Bool.or_false, Bool.false_eq_true, if_false] at h ⊢
          exact (h (path, .returns p.getterBody) (List.mem_singleton_self _)).map _
    | _ => exact .some _

private theorem settled_ofMethod {call : Node} (h : SettledOn ask ask' (askedByMethod m path call)) :
    Settled (ofMethod m ask path call) (ofMethod m ask' path call) := by
  unfold askedByMethod at h
  unfold ofMethod
  split
  · next method hs =>
    rw [hs] at h
    exact h (path, .returns method) (List.mem_singleton_self _)
  · exact .some _

private theorem settled_ofCall {call use : Node} (h : SettledOn ask ask' (askedByCall m path call use)) :
    Settled (ofCall m ask path call use) (ofCall m ask' path call use) := by
  unfold askedByCall at h
  unfold ofCall
  cases hi : call.invoked? with
  | none => exact .some none
  | some call' =>
    obtain ⟨name, receiver?⟩ := call'
    rw [hi] at h
    cases receiver? with
    | none => exact settled_ofMethod h
    | some receiver =>
      dsimp only [Option.bind_some] at h ⊢
      unfold ofReceiver
      split at h
      · next hn =>
        rw [if_pos hn, if_pos hn]
        exact h (path, .value receiver use) (List.mem_singleton_self _)
      · next hn =>
        rw [if_neg hn, if_neg hn]
        split at h
        · next hp =>
          rw [if_pos hp, if_pos hp]
          exact .some _
        · next hp =>
          rw [if_neg hp, if_neg hp]
          unfold buildsTuple at h
          split at h
          · next ht =>
            rw [if_pos ht, if_pos ht]
            exact settled_ofAny h
          · next ht =>
            rw [if_neg ht, if_neg ht]
            cases hf : m.frameworkCall? call with
            | some known => exact .some _
            | none =>
              rw [hf] at h
              exact settled_ofMethod h

private theorem settled_ofAccess {access use : Node}
    (h : SettledOn ask ask'
      ((if access.isUnwrapping then askedOf path access.memberReceiver?.toList use else []) ++
        askedByName m path access use)) :
    Settled (ofAccess m ask path access use) (ofAccess m ask' path access use) := by
  have hname : Settled (ofSymbol m ask path access use) (ofSymbol m ask' path access use) :=
    settled_ofSymbol fun x hx => h x (List.mem_append_right _ hx)
  unfold ofAccess
  split
  · exact .some none
  · split
    · next hu =>
      rw [if_pos hu] at h
      cases hr : access.memberReceiver? with
      | none => exact .some none
      | some receiver =>
        rw [hr] at h
        obtain ⟨v, hv, hv'⟩ := h (path, .value receiver use) (List.mem_append_left _ (by simp [askedOf]))
        dsimp only at hv hv' ⊢
        rw [hv, hv']
        cases v with
        | none => exact hname
        | some o => exact .some _
    · exact hname

private theorem settled_ofOperation {e use : Node} (h : SettledOn ask ask' (askedByOperation path e use)) :
    Settled (ofOperation ask path e use) (ofOperation ask' path e use) := by
  unfold askedByOperation at h
  unfold ofOperation
  split
  · next ho =>
    simp only [ho] at h
    exact settled_ofConversion h
  · next ho =>
    simp only [ho] at h
    exact settled_ofAny h
  · exact .some none

private theorem settled_ofExpression {expr use : Node}
    (h : SettledOn ask ask' (askedByExpression m path expr.stripParens use)) :
    Settled (ofExpression m ask path expr use) (ofExpression m ask' path expr use) := by
  unfold ofExpression
  unfold askedByExpression at h
  dsimp only
  split
  case h_3 hk | h_4 hk =>
    simp only [hk] at h
    exact settled_ofConversion h
  case h_5 hk =>
    simp only [hk] at h
    exact settled_ofOperation h
  case h_6 hk | h_7 hk | h_10 hk =>
    simp only [hk] at h
    exact settled_ofPart h
  case h_8 hk | h_9 hk | h_12 hk =>
    simp only [hk] at h
    exact settled_ofAny h
  case h_13 hk =>
    simp only [hk] at h
    exact settled_ofCall h
  case h_14 hk =>
    simp only [hk] at h
    exact settled_ofAccess h
  case h_15 hk | h_16 hk | h_17 hk | h_18 hk =>
    simp only [hk] at h
    exact settled_ofSymbol h
  all_goals exact .some _

/-- An answer depends on the answers to the questions that are asked, and there is one if there are those. -/
theorem settled_answer {q : Query} (h : SettledOn ask ask' (asked m path q)) :
    Settled (answer m ask path q) (answer m ask' path q) := by
  cases q with
  | value expr use => exact settled_ofExpression h
  | returns method => exact settled_ofReturns h

end

/-! ### The walk comes to an end -/

/-- The question is about a place of the compilation. -/
def Query.IsIn (c : Compilation) : Query → Prop
  | .value expr _ => c.HasPlace expr
  | .returns method => c.HasPlace method

/-- A bound for how deep the questions after a question can be nested. -/
def weight (c : Compilation) (path : List Symbol) : Query → Nat
  | .value expr _ => (6 * c.size - path.length) * (c.size + 1) + expr.rank
  | .returns _ => (6 * c.size - path.length) * (c.size + 1)

/-- The question is about the compilation and weighs less than `bound`. -/
structure IsLighter (c : Compilation) (bound : Nat) (x : List Symbol × Query) : Prop where
  isIn : x.2.IsIn c
  isTrail : IsTrail c x.1
  weight_lt : weight c x.1 x.2 < bound

/-- The second node is a place of lower rank. -/
def Lower (c : Compilation) (e x : Node) : Prop := c.HasPlace x ∧ x.rank < e.rank

section

variable {c : Compilation}

theorem Lower.of_child {e x : Node} (h : c.HasPlace e) (hx : x ∈ e.children) : Lower c e x :=
  ⟨.child h hx, Node.rank_lt_of_mem_children hx⟩

theorem Lower.of_mem_preorder {e x y : Node} (h : Lower c e x) (hy : y ∈ x.preorder) : Lower c e y :=
  ⟨h.1.of_mem_preorder hy, Nat.lt_of_le_of_lt (Node.rank_le_of_mem_preorder hy) h.2⟩

private theorem Lower.trans_child {e x y : Node} (h : Lower c e x) (hy : y ∈ x.children) : Lower c e y :=
  h.of_mem_preorder (Node.mem_preorder_of_mem_children hy)

private theorem lower_of_argumentExpression? {e a x : Node} (h : Lower c e a) (hx : a.argumentExpression? = some x) :
    Lower c e x :=
  h.of_mem_preorder (Node.mem_preorder_of_argumentExpression? hx)

private theorem lower_of_mem_tupleElements {e x : Node} (h : c.HasPlace e) (hx : x ∈ Model.tupleElements e) :
    Lower c e x := by
  obtain ⟨a, ha, hx⟩ := List.mem_filterMap.1 hx
  exact lower_of_argumentExpression? (.of_child h (Node.mem_children_of_named ha)) hx

theorem lower_of_mem_armValues {e x : Node} (h : c.HasPlace e) (hx : x ∈ e.armValues) : Lower c e x := by
  obtain ⟨arm, harm, hx⟩ := List.mem_filterMap.1 hx
  exact (Lower.of_child h (Node.mem_children_of_namedOf harm)).trans_child (Node.mem_children_of_lastNamed? hx)

private theorem lower_of_mem_arguments {call x : Node} (h : c.HasPlace call)
    (hx : x ∈ call.arguments.filterMap Node.argumentExpression?) : Lower c call x := by
  obtain ⟨a, ha, hx⟩ := List.mem_filterMap.1 hx
  unfold Node.arguments at ha
  split at ha
  · next list hl =>
    have hlist : Lower c call list :=
      .of_child h (Node.mem_children_of_orElse (fun _ hd => Node.mem_children_of_childOf? hd) hl)
    exact lower_of_argumentExpression? (hlist.trans_child (Node.mem_children_of_namedOf ha)) hx
  · cases ha

private theorem lower_of_memberReceiver? {e x : Node} (h : c.HasPlace e) (hx : e.memberReceiver? = some x) :
    Lower c e x :=
  .of_child h (Node.mem_children_of_orElse (fun _ hd => Node.mem_children_of_firstNamed? hd) hx)

/-- What stands in front of `?.` is counted before what stands behind it. -/
private theorem lower_of_conditionalReceiver? {call x : Node} (h : c.HasPlace call)
    (hk : call.kind? = some .invocationExpression) (hx : call.conditionalReceiver? = some x) : Lower c call x := by
  unfold Node.conditionalReceiver? at hx
  obtain ⟨parent, hp, hx⟩ := Option.bind_eq_some_iff.1 hx
  obtain ⟨hplace, hmem⟩ := h.of_parent? hp
  split at hx
  · obtain ⟨first, hf, hx⟩ := Option.bind_eq_some_iff.1 hx
    split at hx
    · cases hx
    · next hne =>
      cases hx
      have hnamed : call ∈ parent.named := Node.mem_named_of_kind? (by decide) hk hmem
      exact ⟨hplace.of_firstNamed? hf, Node.rank_lt_of_firstNamed? hf hnamed (by simpa using hne)⟩
  · cases hx

theorem lower_of_invoked? {call name receiver : Node} (h : c.HasPlace call)
    (hk : call.kind? = some .invocationExpression) (hi : call.invoked? = some (name, some receiver)) :
    Lower c call receiver := by
  unfold Node.invoked? at hi
  obtain ⟨function, hf, hi⟩ := Option.bind_eq_some_iff.1 hi
  have hchild : Lower c call function :=
    .of_child h (Node.mem_children_of_orElse (fun _ hd => Node.mem_children_of_firstNamed? hd) hf)
  have hfun : Lower c call function.stripParens := hchild.of_mem_preorder (Node.stripParens_mem_preorder function)
  dsimp only at hi
  split at hi
  · obtain ⟨n, -, hi⟩ := Option.bind_eq_some_iff.1 hi
    cases hi
  · obtain ⟨n, -, hi⟩ := Option.bind_eq_some_iff.1 hi
    cases hi
  · obtain ⟨n, -, hi⟩ := Option.bind_eq_some_iff.1 hi
    obtain ⟨-, hr⟩ := Prod.mk.inj (Option.some.inj hi)
    have := lower_of_memberReceiver? hfun.1 hr
    exact ⟨this.1, Nat.lt_trans this.2 hfun.2⟩
  · obtain ⟨n, -, hi⟩ := Option.bind_eq_some_iff.1 hi
    obtain ⟨-, hr⟩ := Prod.mk.inj (Option.some.inj hi)
    exact lower_of_conditionalReceiver? h hk hr
  · obtain ⟨last, -, hi⟩ := Option.bind_eq_some_iff.1 hi
    obtain ⟨n, -, hi⟩ := Option.bind_eq_some_iff.1 hi
    obtain ⟨-, hr⟩ := Prod.mk.inj (Option.some.inj hi)
    exact hfun.trans_child (Node.mem_children_of_firstNamed? hr)
  · cases hi

theorem hasPlace_getterBody {p : Node} (h : c.HasPlace p) : c.HasPlace p.getterBody := by
  unfold Node.getterBody
  cases hg : p.getter? with
  | none => exact h
  | some getter => exact h.of_accessors (List.mem_of_find?_eq_some hg)

/-! ### Each question weighs less -/

variable {path : List Symbol} (hpath : IsTrail c path)

include hpath

private theorem lighter_of_lower {e x use : Node} (hx : Lower c e x) {bound : Nat}
    (hbound : weight c path (.value e use) ≤ bound) : IsLighter c bound (path, .value x use) := by
  refine ⟨hx.1, hpath, Nat.lt_of_lt_of_le ?_ hbound⟩
  have := hx.2
  show (6 * c.size - path.length) * (c.size + 1) + x.rank < (6 * c.size - path.length) * (c.size + 1) + e.rank
  omega

private theorem lighter_of_mem_askedOf {e use : Node} {parts : List Node} (hparts : ∀ x ∈ parts, Lower c e x)
    {bound : Nat} (hbound : weight c path (.value e use) ≤ bound) {x : List Symbol × Query}
    (hx : x ∈ askedOf path parts use) :
    IsLighter c bound x := by
  obtain ⟨part, hpart, rfl⟩ := List.mem_map.1 hx
  exact lighter_of_lower hpath (hparts part hpart) hbound

/-- One more symbol on the way makes up for any expression. -/
private theorem lighter_of_cons {s : Symbol} {n v use : Node} (hs : s.node? = some n) (hin : s.IsIn c)
    (hnew : path.contains s = false) (hv : c.HasPlace v) {bound : Nat}
    (hbound : (6 * c.size - path.length) * (c.size + 1) ≤ bound) : IsLighter c bound (s :: path, .value v use) := by
  have htrail := hpath.cons hs hin hnew
  refine ⟨hv, htrail, Nat.lt_of_lt_of_le ?_ hbound⟩
  exact htrail.room_cons_lt hv.rank_le

private theorem lighter_returns {e use method : Node} (hm : c.HasPlace method) {bound : Nat}
    (hbound : weight c path (.value e use) ≤ bound) : IsLighter c bound (path, .returns method) := by
  refine ⟨hm, hpath, Nat.lt_of_lt_of_le ?_ hbound⟩
  exact Nat.lt_add_of_pos_right e.rank_pos

private theorem lighter_of_mem_askedByLocal (hc : c.IsRead) {decl use : Node} (hin : (Symbol.localVar decl).IsIn c)
    {x : List Symbol × Query} (hx : x ∈ askedByLocal c.model path decl use) {bound : Nat}
    (hbound : (6 * c.size - path.length) * (c.size + 1) ≤ bound) : IsLighter c bound x := by
  unfold askedByLocal at hx
  split at hx
  · cases hx
  · split at hx
    · cases hx
    · next region hr =>
      split at hx
      · cases hx
      · next hnew =>
        obtain ⟨w, hw, hx⟩ := List.mem_filterMap.1 hx
        obtain ⟨v, hv, rfl⟩ := Option.map_eq_some_iff.1 hx
        rw [Bool.or_eq_true, not_or, Bool.not_eq_true, Bool.not_eq_true] at hnew
        have hregion : c.HasPlace region := (hin decl rfl).of_nearest? hr
        have hplace : c.HasPlace v := by
          refine Model.hasPlace_of_mem_writes (m := c.model) hc hin ?_ (List.mem_filter.1 hw).1 hv
          intro n hn
          cases hn
          exact hregion
        exact lighter_of_cons hpath rfl hin hnew.2 hplace hbound

private theorem lighter_of_mem_askedByName (hc : c.IsRead) {e use : Node} (he : c.HasPlace e) {x : List Symbol × Query}
    (hx : x ∈ askedByName c.model path e use) {bound : Nat} (hbound : weight c path (.value e use) ≤ bound) :
    IsLighter c bound x := by
  unfold askedByName at hx
  split at hx
  · next decl hs =>
    exact lighter_of_mem_askedByLocal hpath hc (hc.isIn_symbol? he hs) hx (Nat.le_trans (Nat.le_add_right _ _) hbound)
  · next p hs =>
    split at hx
    · cases hx
    · rw [List.mem_singleton.1 hx]
      exact lighter_returns hpath (hasPlace_getterBody (hc.isIn_symbol? he hs p rfl)) hbound
  · cases hx

private theorem lighter_of_mem_askedByMethod (hc : c.IsRead) {call use : Node} (hcall : c.HasPlace call)
    {x : List Symbol × Query} (hx : x ∈ askedByMethod c.model path call) {bound : Nat}
    (hbound : weight c path (.value call use) ≤ bound) : IsLighter c bound x := by
  unfold askedByMethod at hx
  split at hx
  · next method hs =>
    rw [List.mem_singleton.1 hx]
    exact lighter_returns hpath (hc.isIn_symbol? hcall hs method rfl) hbound
  · cases hx

private theorem lighter_of_mem_askedByCall (hc : c.IsRead) {call use : Node} (hcall : c.HasPlace call)
    (hk : call.kind? = some .invocationExpression) {x : List Symbol × Query}
    (hx : x ∈ askedByCall c.model path call use) {bound : Nat}
    (hbound : weight c path (.value call use) ≤ bound) : IsLighter c bound x := by
  unfold askedByCall at hx
  split at hx
  · cases hx
  · exact lighter_of_mem_askedByMethod hpath hc hcall hx hbound
  · next hi =>
    split at hx
    · rw [List.mem_singleton.1 hx]
      exact lighter_of_lower hpath (lower_of_invoked? hcall hk hi) hbound
    · split at hx
      · cases hx
      · split at hx
        · exact lighter_of_mem_askedOf hpath (fun _ ha => lower_of_mem_arguments hcall ha) hbound hx
        · split at hx
          · cases hx
          · exact lighter_of_mem_askedByMethod hpath hc hcall hx hbound

private theorem lighter_of_mem_askedByExpression (hc : c.IsRead) {e use : Node} (he : c.HasPlace e)
    {x : List Symbol × Query} (hx : x ∈ askedByExpression c.model path e use) {bound : Nat}
    (hbound : weight c path (.value e use) ≤ bound) :
    IsLighter c bound x := by
  have first : ∀ y ∈ e.firstNamed?.toList, Lower c e y := fun y hy =>
    .of_child he (Node.mem_children_of_firstNamed? (Option.mem_toList.1 hy))
  have last : ∀ y ∈ e.lastNamed?.toList, Lower c e y := fun y hy =>
    .of_child he (Node.mem_children_of_lastNamed? (Option.mem_toList.1 hy))
  unfold askedByExpression at hx
  split at hx
  case h_1 | h_2 => exact lighter_of_mem_askedOf hpath last hbound hx
  case h_3 | h_4 | h_5 => exact lighter_of_mem_askedOf hpath first hbound hx
  case h_6 =>
    unfold askedByOperation at hx
    split at hx
    · exact lighter_of_mem_askedOf hpath first hbound hx
    · refine lighter_of_mem_askedOf hpath ?_ hbound hx
      intro y hy
      exact (List.mem_append.1 hy).elim (first y) (last y)
    · cases hx
  case h_7 =>
    refine lighter_of_mem_askedOf hpath ?_ hbound hx
    intro y hy
    exact .of_child he (Node.mem_children_of_named ((List.drop_sublist 1 _).subset hy))
  case h_8 => exact lighter_of_mem_askedOf hpath (fun _ hy => lower_of_mem_armValues he hy) hbound hx
  case h_9 => exact lighter_of_mem_askedOf hpath (fun _ hy => lower_of_mem_tupleElements he hy) hbound hx
  case h_10 hk => exact lighter_of_mem_askedByCall hpath hc he hk hx hbound
  case h_11 =>
    rcases List.mem_append.1 hx with hx | hx
    · split at hx
      · refine lighter_of_mem_askedOf hpath ?_ hbound hx
        intro y hy
        exact lower_of_memberReceiver? he (Option.mem_toList.1 hy)
      · cases hx
    · exact lighter_of_mem_askedByName hpath hc he hx hbound
  case h_12 | h_13 | h_14 | h_15 => exact lighter_of_mem_askedByName hpath hc he hx hbound
  case h_16 => cases hx

/-- Each question that a question leads to is about the compilation and weighs less. -/
theorem lighter_of_mem_asked (hc : c.IsRead) {q : Query} (hq : q.IsIn c) {x : List Symbol × Query}
    (hx : x ∈ asked c.model path q) : IsLighter c (weight c path q) x := by
  cases q with
  | value expr use =>
    have hle : expr.stripParens.rank ≤ expr.rank := Node.rank_le_of_mem_preorder (Node.stripParens_mem_preorder expr)
    exact lighter_of_mem_askedByExpression hpath hc (Compilation.HasPlace.of_stripParens hq) hx
      (Nat.add_le_add_left hle _)
  | returns method =>
    rw [asked] at hx
    split at hx
    · cases hx
    · next hnew =>
      obtain ⟨e, he, rfl⟩ := List.mem_map.1 hx
      exact lighter_of_cons hpath rfl (Symbol.isIn_of_eq rfl hq) (by simpa using hnew)
        (Compilation.HasPlace.of_returnedExpressions hq (List.mem_filter.1 he).1) (Nat.le_refl _)

/-- A question has an answer once more nested ones are allowed than it weighs, and it stays the same from there on. -/
theorem settled_answerWithin (hc : c.IsRead) {q : Query} (hq : q.IsIn c) {depth depth' : Nat}
    (hdepth : weight c path q < depth) (hle : depth ≤ depth') :
    Settled (answerWithin c.model depth path q) (answerWithin c.model depth' path q) := by
  induction depth generalizing path q depth' with
  | zero => exact absurd hdepth (Nat.not_lt_zero _)
  | succ depth ih =>
    obtain ⟨depth', rfl⟩ : ∃ k, depth' = k + 1 := ⟨depth' - 1, by omega⟩
    refine settled_answer ?_
    intro x hx
    have hlight := lighter_of_mem_asked hpath hc hq hx
    exact ih hlight.isTrail hlight.isIn (Nat.lt_of_lt_of_le hlight.weight_lt (Nat.le_of_lt_succ hdepth))
      (Nat.le_of_succ_le_succ hle)

end

/-- Within the limit every expression of a compilation gets a verdict. -/
theorem answerWithin_limit {c : Compilation} (hc : c.IsRead) {e : Node} (he : c.HasPlace e) :
    answerWithin c.model c.model.limit [] (.value e e) = some (c.model.classify? e) := by
  have hlimit : weight c [] (.value e e) < c.model.limit := c.room_lt_limit he.rank_le
  have hq : Query.IsIn c (.value e e) := he
  obtain ⟨v, hv, -⟩ := settled_answerWithin (IsTrail.nil c) hc hq hlimit (Nat.le_refl _)
  rw [Model.classify?, hv]
  rfl

end Ownership

end Disposal
