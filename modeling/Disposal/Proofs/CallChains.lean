import Disposal.Proofs.Fates
import Disposal.Proofs.Releases

/-!
# Hand-off through calls

A local that is passed to a method is handed off if the method takes care of its parameter: releases it, keeps it, or
passes it on in its turn. A method that is being followed is not followed again, not even for another of its parameters.
So what is found are the chains of calls in which no method occurs twice; a chain that comes back to a method with its
parameters exchanged is missed.

* `Model.Leads`: the chains that are followed, with the methods they go through;
* `Model.exists_leads_of_handedOffWithin`, `Model.handedOffWithin_of_leads`: what is found behind some methods and
  within some depth;
* `Model.isHandedOff_iff`: a local is found to be handed off exactly when a chain without repetition does it;
* `Model.IsPassedAlong.exists_leads`, `Model.IsPassedAlong.exists_nodup`: a local that is passed on as it is, and at
  last released, returned or stored.
-/

namespace Disposal

/-! ### Where a fate leads -/

/-- The call that a value is passed to stands around it. -/
private theorem Fate.mem_of_along_eq_passed {part call arg : Node} {above : List Node}
    (h : along part above = passed call arg) : call ∈ above := by
  fun_induction along part above with
  | case1 | case3 | case4 | case5 | case6 | case7 | case10 | case11 | case12 => cases h
  | case2 part parent rest hpass ih => exact List.mem_cons_of_mem parent (ih h)
  | case8 part parent hpass hkeep hassign harg list above hp hp' htuple ih =>
    exact List.mem_cons_of_mem parent (List.mem_cons_of_mem list (ih h))
  | case9 part parent hpass hkeep hassign harg list hp call' rest htuple =>
    -- the call is the node around the list of arguments
    have hcall : call' = call := by
      unfold ofArgument at h
      split at h
      · cases h
      · split at h
        · split at h
          · cases h
          · exact (passed.inj h).1
        · cases h
    rw [hcall]
    exact List.mem_cons_of_mem parent (List.mem_cons_of_mem list List.mem_cons_self)

/-- The call passes the value of an expression, in an argument without `ref` or `out`. -/
structure Node.Passes (call arg e : Node) : Prop where
  isCall : call.is .invocationExpression = true
  inList : ∃ list ∈ call.children, list.is .argumentList = true ∧ arg ∈ list.namedOf .argument
  value : arg.argumentExpression? = some e
  notRef : arg.passing? ≠ some .ref
  notOut : arg.passing? ≠ some .out

namespace Model

variable {m : Model}

/-! ### Chains of calls -/

/-- The method of the compilation that a value is passed to, with the parameter that it is bound to, if there is one
for it. -/
def passedTo? (m : Model) (e : Node) : Option (Node × Option Node) :=
  match Fate.of e with
  | .passed call arg =>
    match m.symbol? call with
    | some (.method method) => some (method, Node.boundParameter? method call arg)
    | _ => none
  | _ => none

/-- A mention of the variable is passed to a method. -/
def IsPassedTo (m : Model) (s : Symbol) (region method : Node) (param? : Option Node) : Prop :=
  ∃ e ∈ m.references s (.node region), m.passedTo? e = some (method, param?)

/-- The region takes care of the variable without the help of a method: it releases it, keeps it, or uses it in a
function that may run later. -/
def IsSettled (m : Model) (s : Symbol) (region : Node) : Prop :=
  ∀ name, s.name? = some name → m.releasedIn s name region = true ∨
    ∃ e ∈ m.references s (.node region), e.inNestedLambda region = true ∨ Fate.of e = .kept

/-- The variable of a region is taken care of by the methods of a list, each of which is called by the one before it. -/
inductive Leads (m : Model) : Symbol → Node → List Node → Prop
  | settled {s : Symbol} {region : Node} (h : m.IsSettled s region) : Leads m s region []
  | unbound {s : Symbol} {region method : Node} (h : m.IsPassedTo s region method none) : Leads m s region [method]
  | bound {s : Symbol} {region method param : Node} {ms : List Node} (h : m.IsPassedTo s region method (some param))
      (hrest : Leads m (.parameter param) method ms) : Leads m s region (method :: ms)

/-- The nodes of a list are different. -/
def AreDistinct (ns : List Node) : Prop := ns.Pairwise fun a b => (a == b) = false

private theorem areDistinct_cons {n : Node} {ns : List Node} :
    AreDistinct (n :: ns) ↔ (∀ x ∈ ns, (n == x) = false) ∧ AreDistinct ns := List.pairwise_cons

/-- One mention of a variable: it is handed off if it is kept, or passed to a method that is not being followed and
does not lose it. -/
private theorem escapes_iff {follow : Node → Node → Bool} {path : List Node} {e : Node} :
    m.escapes follow path e = true ↔ Fate.of e = .kept ∨
      ∃ method param?, m.passedTo? e = some (method, param?) ∧ path.any (· == method) = false ∧
        ∀ param, param? = some param → follow method param = true := by
  unfold escapes passedTo?
  cases Fate.of e with
  | kept => simp
  | dropped => simp
  | passed call arg =>
    dsimp only
    generalize m.symbol? call = s?
    split
    · next method =>
      simp only [Option.some.injEq, Prod.mk.injEq, reduceCtorEq, false_or, exists_and_left, exists_eq_left',
        and_assoc]
      cases path.any (· == method) with
      | true => simp
      | false => cases Node.boundParameter? method call arg <;> simp
    · simp

private theorem IsSettled.of_name? {s : Symbol} {region : Node} {name : String} (hname : s.name? = some name)
    (h : m.releasedIn s name region = true ∨
      ∃ e ∈ m.references s (.node region), e.inNestedLambda region = true ∨ Fate.of e = .kept) :
    m.IsSettled s region := by
  intro _ hname'
  rw [hname] at hname'
  cases hname'
  exact h

/-- What is found is a chain of different methods, none of which is on the way already. -/
theorem exists_leads_of_handedOffWithin {depth : Nat} {path : List Node} {s : Symbol} {region : Node}
    (h : m.handedOffWithin depth path s region = true) :
    ∃ ms, m.Leads s region ms ∧ AreDistinct ms ∧ ∀ x ∈ ms, path.any (· == x) = false := by
  induction depth generalizing path s region with
  | zero => cases h
  | succ depth ih =>
    have here : m.IsSettled s region →
        ∃ ms, m.Leads s region ms ∧ AreDistinct ms ∧ ∀ x ∈ ms, path.any (· == x) = false :=
      fun h => ⟨[], .settled h, List.Pairwise.nil, nofun⟩
    rw [handedOffWithin] at h
    cases hname : s.name? with
    | none =>
      refine here fun name hname' => ?_
      rw [hname] at hname'
      cases hname'
    | some name =>
      simp only [hname, Bool.or_eq_true, List.any_eq_true, escapes_iff] at h
      rcases h with h | ⟨e, he, h | h | ⟨method, param?, hpassed, hpath, hfollow⟩⟩
      · exact here (.of_name? hname (.inl h))
      · exact here (.of_name? hname (.inr ⟨e, he, .inl h⟩))
      · exact here (.of_name? hname (.inr ⟨e, he, .inr h⟩))
      · cases param? with
        | none => exact ⟨[method], .unbound ⟨e, he, hpassed⟩, List.pairwise_singleton _ _, by simpa using hpath⟩
        | some param =>
          obtain ⟨ms, hleads, hdistinct, hfree⟩ := ih (hfollow param rfl)
          simp only [List.any_cons, Bool.or_eq_false_iff] at hfree
          refine ⟨method :: ms, .bound ⟨e, he, hpassed⟩ hleads, ?_, ?_⟩
          · exact areDistinct_cons.2 ⟨fun x hx => (hfree x hx).1, hdistinct⟩
          · intro x hx
            rcases List.mem_cons.1 hx with rfl | hx
            · exact hpath
            · exact (hfree x hx).2

/-- Such a chain is found if it is shorter than the depth. -/
theorem handedOffWithin_of_leads {s : Symbol} {region : Node} {ms : List Node} (h : m.Leads s region ms) {depth : Nat}
    (hlength : ms.length < depth) (hdistinct : AreDistinct ms) {path : List Node}
    (hfree : ∀ x ∈ ms, path.any (· == x) = false) : m.handedOffWithin depth path s region = true := by
  induction h generalizing depth path with
  | @settled s region h =>
    obtain ⟨depth, rfl⟩ := Nat.exists_eq_succ_of_ne_zero (Nat.ne_of_gt hlength)
    rw [handedOffWithin]
    cases hname : s.name? with
    | none => rfl
    | some name =>
      simp only [Bool.or_eq_true, List.any_eq_true, escapes_iff]
      rcases h name hname with h | ⟨e, he, h | h⟩
      · exact .inl h
      · exact .inr ⟨e, he, .inl h⟩
      · exact .inr ⟨e, he, .inr (.inl h)⟩
  | @unbound s region method h =>
    obtain ⟨e, he, hpassed⟩ := h
    obtain ⟨depth, rfl⟩ := Nat.exists_eq_succ_of_ne_zero (Nat.ne_of_gt (Nat.lt_of_le_of_lt (Nat.zero_le _) hlength))
    rw [handedOffWithin]
    cases s.name? with
    | none => rfl
    | some name =>
      simp only [Bool.or_eq_true, List.any_eq_true, escapes_iff]
      exact .inr ⟨e, he, .inr (.inr ⟨method, none, hpassed, hfree method List.mem_cons_self, nofun⟩)⟩
  | @bound s region method param ms h _ ih =>
    obtain ⟨e, he, hpassed⟩ := h
    obtain ⟨depth, rfl⟩ := Nat.exists_eq_succ_of_ne_zero (Nat.ne_of_gt (Nat.lt_of_le_of_lt (Nat.zero_le _) hlength))
    rw [handedOffWithin]
    cases s.name? with
    | none => rfl
    | some name =>
      simp only [Bool.or_eq_true, List.any_eq_true, escapes_iff]
      obtain ⟨hnew, hdistinct⟩ := areDistinct_cons.1 hdistinct
      refine .inr ⟨e, he, .inr (.inr ⟨method, some param, hpassed, hfree method List.mem_cons_self, ?_⟩)⟩
      rintro _ ⟨⟩
      refine ih (Nat.lt_of_succ_lt_succ hlength) hdistinct fun x hx => ?_
      rw [List.any_cons, hnew x hx, Bool.false_or]
      exact hfree x (List.mem_cons_of_mem method hx)

section

variable {c : Compilation} {s : Symbol} {region : Node} (hc : c.IsRead) (hregion : c.HasPlace region)

include hc hregion

private theorem IsPassedTo.hasPlace {method : Node} {param? : Option Node}
    (h : c.model.IsPassedTo s region method param?) : c.HasPlace method := by
  obtain ⟨e, he, hpassed⟩ := h
  unfold passedTo? at hpassed
  split at hpassed
  · next call arg hfate =>
    split at hpassed
    · next hs =>
      cases hpassed
      have hcall := (hasPlace_of_mem_references hregion he).of_mem_ancestors (Fate.mem_of_along_eq_passed hfate)
      exact hc.isIn_symbol? hcall hs method rfl
    · cases hpassed
  · cases hpassed

private theorem Leads.hasPlace {ms : List Node} (h : c.model.Leads s region ms) : ∀ x ∈ ms, c.HasPlace x := by
  induction h with
  | settled _ => nofun
  | unbound h =>
    intro x hx
    rw [List.mem_singleton.1 hx]
    exact h.hasPlace hc hregion
  | bound h _ ih =>
    have hmethod := h.hasPlace hc hregion
    intro x hx
    rcases List.mem_cons.1 hx with rfl | hx
    · exact hmethod
    · exact ih hmethod x hx

/-- A variable is found to be handed off exactly when a chain of different methods takes care of it: there is depth
for all of them, as they are places of the program. -/
theorem isHandedOff_iff : c.model.isHandedOff s region = true ↔ ∃ ms, c.model.Leads s region ms ∧ AreDistinct ms := by
  constructor
  · intro h
    obtain ⟨ms, hleads, hdistinct, -⟩ := exists_leads_of_handedOffWithin h
    exact ⟨ms, hleads, hdistinct⟩
  · rintro ⟨ms, hleads, hdistinct⟩
    have hlength : ms.length < c.model.limit + 1 := by
      calc ms.length ≤ c.size := c.length_le_size (hleads.hasPlace hc hregion) hdistinct
        _ < c.model.limit + 1 := Nat.lt_succ_of_lt c.size_lt_limit
    exact handedOffWithin_of_leads hleads hlength hdistinct fun _ _ => rfl

end

/-! ### Variables that are passed on as they are -/

/-- A mention of the variable is an argument of a call of the method, bound to the parameter. -/
def IsArgumentFor (m : Model) (s : Symbol) (region method param : Node) : Prop :=
  ∃ e ∈ m.references s (.node region), ∃ call arg, call.Passes arg e ∧ m.symbol? call = some (.method method) ∧
    Node.boundParameter? method call arg = some param

/-- The region releases the variable, or hands its value over, say by a `return` or an assignment. -/
inductive IsTakenCareOf (m : Model) (s : Symbol) (region : Node) : Prop
  | released {name : String} (hname : s.name? = some name) (h : m.releasedIn s name region = true)
  | handedOver {e : Node} (he : e ∈ m.references s (.node region)) (h : e.IsHandedOver)
  | arrow {e clause : Node} (he : e ∈ m.references s (.node region)) (hk : clause.is .arrowExpressionClause = true)
      (hvalue : clause.firstNamed? = some e)

/-- The variable of a region is passed on from method to method, each time as a parameter, up to a method that takes
care of it. -/
inductive IsPassedAlong (m : Model) : Symbol → Node → List (Node × Node) → Prop
  | here {s : Symbol} {region : Node} (h : m.IsTakenCareOf s region) : IsPassedAlong m s region []
  | call {s : Symbol} {region method param : Node} {calls : List (Node × Node)}
      (h : m.IsArgumentFor s region method param) (hrest : IsPassedAlong m (.parameter param) method calls) :
      IsPassedAlong m s region ((method, param) :: calls)

private theorem IsTakenCareOf.isSettled {s : Symbol} {region : Node} (h : m.IsTakenCareOf s region) :
    m.IsSettled s region := by
  cases h with
  | released hname h => exact .of_name? hname (.inl h)
  | handedOver he h => exact fun _ _ => .inr ⟨_, he, .inr (Fate.of_of_isHandedOver h)⟩
  | arrow he hk hvalue =>
    refine fun _ _ => .inr ⟨_, he, .inr (Fate.of_of_keeper (Node.mem_children_of_firstNamed? hvalue) ?_)⟩
    rw [Node.isAny_eq_of_kind? (Node.is_iff.1 hk)]
    rfl

/-- A plain argument is passed to the method that is called, unless the call adds it to a collection. -/
private theorem IsArgumentFor.isSettled_or_isPassedTo {s : Symbol} {region method param : Node}
    (h : m.IsArgumentFor s region method param) :
    m.IsSettled s region ∨ m.IsPassedTo s region method (some param) := by
  obtain ⟨e, he, call, arg, hpasses, hs, hparam⟩ := h
  obtain ⟨list, hlist, hk, harg⟩ := hpasses.inList
  have hfate : Fate.of e = Fate.ofArgument arg call := by
    rw [Fate.of_of_argument hlist hk harg hpasses.value]
    split
    · next hp => exact absurd hp hpasses.notRef
    · next hp => exact absurd hp hpasses.notOut
    · rfl
  have hkeeper : ¬call.isAny Node.argumentKeepers = true := by
    rw [Node.isAny_eq_of_kind? (Node.is_iff.1 hpasses.isCall)]
    decide
  rw [Fate.ofArgument, if_neg hkeeper, if_pos hpasses.isCall] at hfate
  split at hfate
  · exact .inl fun _ _ => .inr ⟨e, he, .inr hfate⟩
  · refine .inr ⟨e, he, ?_⟩
    rw [passedTo?, hfate]
    simp only [hs, hparam]

/-- The methods that are followed are the first ones of those that the variable is passed to. -/
theorem IsPassedAlong.exists_leads {s : Symbol} {region : Node} {calls : List (Node × Node)}
    (h : m.IsPassedAlong s region calls) : ∃ ms, m.Leads s region ms ∧ ms <+: calls.map Prod.fst := by
  induction h with
  | here h => exact ⟨[], .settled h.isSettled, List.nil_prefix⟩
  | @call s region method param calls h _ ih =>
    obtain ⟨ms, hleads, hprefix⟩ := ih
    rcases h.isSettled_or_isPassedTo with hsettled | hpassed
    · exact ⟨[], .settled hsettled, List.nil_prefix⟩
    · exact ⟨method :: ms, .bound hpassed hleads, (List.prefix_cons_inj method).2 hprefix⟩

private theorem IsPassedAlong.of_append {s : Symbol} {region method param : Node} {front back : List (Node × Node)}
    (h : m.IsPassedAlong s region (front ++ (method, param) :: back)) :
    m.IsPassedAlong (.parameter param) method back := by
  induction front generalizing s region with
  | nil => cases h with | call _ hrest => exact hrest
  | cons call front ih => cases h with | call _ hrest => exact ih hrest

/-- What lies between two calls of a method that give it the same parameter can be left out. -/
theorem IsPassedAlong.exists_nodup {s : Symbol} {region : Node} {calls : List (Node × Node)}
    (h : m.IsPassedAlong s region calls) (hone : ∀ a ∈ calls, ∀ b ∈ calls, a.1 = b.1 → a.2 = b.2) :
    ∃ short, m.IsPassedAlong s region short ∧ short ⊆ calls ∧ (short.map Prod.fst).Nodup := by
  induction h with
  | here h => exact ⟨[], .here h, nofun, List.nodup_nil⟩
  | @call s region method param calls h _ ih =>
    obtain ⟨short, hshort, hsub, hnodup⟩ :=
      ih fun a ha b hb => hone a (List.mem_cons_of_mem _ ha) b (List.mem_cons_of_mem _ hb)
    by_cases hmem : method ∈ short.map Prod.fst
    · -- the method is called again: from there on the chain goes on as well
      obtain ⟨⟨method', param'⟩, hcall, heq⟩ := List.mem_map.1 hmem
      obtain rfl : method' = method := heq
      obtain rfl : param = param' :=
        hone (method', param) List.mem_cons_self (method', param') (List.mem_cons_of_mem _ (hsub hcall)) rfl
      obtain ⟨front, back, rfl⟩ := List.append_of_mem hcall
      refine ⟨(method', param) :: back, .call h hshort.of_append, ?_, ?_⟩
      · intro x hx
        exact List.mem_cons_of_mem _ (hsub (List.mem_append_right front hx))
      · rw [List.map_append] at hnodup
        exact (List.nodup_append.1 hnodup).2.1
    · exact ⟨(method, param) :: short, .call h hshort, List.cons_subset_cons _ hsub, List.nodup_cons.2 ⟨hmem, hnodup⟩⟩

/-- A local that is passed on, up to a method that takes care of it, is found to be handed off and is not reported, if
no method on the way gets it for two of its parameters. -/
theorem isHandedOff_of_isPassedAlong (documents : List Document) {s : Symbol} {region : Node}
    {calls : List (Node × Node)} (hregion : (Compilation.ofDocuments documents).HasPlace region)
    (h : (Compilation.ofDocuments documents).model.IsPassedAlong s region calls)
    (hone : ∀ a ∈ calls, ∀ b ∈ calls, a.1 = b.1 → a.2 = b.2) :
    (Compilation.ofDocuments documents).model.isHandedOff s region = true ∧
      ∀ declarators d value s', CreatedLocal.leak? (Compilation.ofDocuments documents).model region declarators =
        some (d, value, s') → s' ≠ s := by
  have hc := Compilation.isRead_ofDocuments documents
  have hoff : (Compilation.ofDocuments documents).model.isHandedOff s region = true := by
    obtain ⟨short, hshort, -, hnodup⟩ := h.exists_nodup hone
    obtain ⟨ms, hleads, hprefix⟩ := hshort.exists_leads
    refine (isHandedOff_iff hc hregion).2 ⟨ms, hleads, ?_⟩
    -- different places have different numbers
    have hplaces := hleads.hasPlace hc hregion
    refine (hnodup.sublist hprefix.sublist).imp_of_mem ?_
    intro a b ha hb hne
    rw [Bool.eq_false_iff]
    intro heq
    exact hne ((hplaces a ha).eq_of_id (hplaces b hb) (Node.beq_iff.1 heq))
  refine ⟨hoff, ?_⟩
  rintro declarators d value s' hleak rfl
  obtain ⟨x, -, hx⟩ := List.exists_of_findSome?_eq_some hleak
  obtain ⟨v, -, hx⟩ := Option.bind_eq_some_iff.1 hx
  obtain ⟨s, -, hx⟩ := Option.bind_eq_some_iff.1 hx
  split at hx
  · next hleaked =>
    cases hx
    rw [CreatedLocal.isLeaked, hoff] at hleaked
    simp at hleaked
  · cases hx

namespace Sample

open Sketch

/-- Whether a mention of a variable is an argument of a call, bound to a parameter with some property. -/
def passesOn (m : Model) (s : Symbol) (region : Node) (p : Node → Node → Bool) : Bool :=
  region.preorder.any fun call => call.is .invocationExpression && call.children.any fun list =>
    list.is .argumentList && (list.namedOf .argument).any fun arg => arg.lastNamed?.any fun e =>
      arg.passing?.isNone && (m.references s (.node region)).any (· == e) &&
        (m.calledMethod? call).any fun method => (Node.boundParameter? method call arg).any (p method)

private theorem exists_of_passesOn {c : Compilation} (hc : c.IsRead) {s : Symbol} {region : Node}
    (hregion : c.HasPlace region) {p : Node → Node → Bool} (h : passesOn c.model s region p = true) :
    ∃ method param, c.HasPlace method ∧ c.model.IsArgumentFor s region method param ∧ p method param = true := by
  simp only [passesOn, List.any_eq_true, Option.any_eq_true, Bool.and_eq_true, Option.isNone_iff_eq_none] at h
  obtain ⟨call, hcall, hk, list, hlist, hlk, arg, harg, e, he, ⟨hpassing, e', he', heq⟩, method, hm, param, hparam,
    hp⟩ := h
  obtain ⟨hs, -⟩ := calledMethod?_eq_some hm
  have hcall := hregion.of_mem_preorder hcall
  have hplace : c.HasPlace e := ((Compilation.HasPlace.child hcall hlist).of_namedOf harg).of_lastNamed? he
  obtain rfl := (hasPlace_of_mem_references hregion he').eq_of_id hplace (Node.beq_iff.1 heq)
  have hvalue : arg.argumentExpression? = some e' := by
    rw [Node.argumentExpression?, if_pos (List.mem_filter.1 harg).2, he]
  have hpasses : call.Passes arg e' :=
    ⟨hk, ⟨list, hlist, hlk, harg⟩, hvalue, by simp [hpassing], by simp [hpassing]⟩
  exact ⟨method, param, hc.isIn_symbol? hcall hs method rfl, ⟨e', he', call, arg, hpasses, hs, hparam⟩, hp⟩

/-- `class C{void M(){MemoryStream s=new MemoryStream();…}…}` -/
def creatingOf (use : Sketch) (methods : List Sketch) : Document :=
  document "C.cs"
    [classOf "C" (method [] void "M" [] [declare "MemoryStream" "s" (create "MemoryStream"), use] :: methods)]

/-- `Pass(s);`, with `void Pass(Stream a){Drop(a);}` and `void Drop(Stream b){b.Dispose();}` -/
def relayed : Compilation :=
  .ofDocuments
    [creatingOf (statement (call (name "Pass") [name "s"]))
      [method [] void "Pass" [parameterOf "Stream" "a"] [statement (call (name "Drop") [name "a"])],
       method [] void "Drop" [parameterOf "Stream" "b"] [statement (call (access (name "b") "Dispose") [])]]]

/-- `Swap(first,second);` -/
def swap (first second : Sketch) : Sketch :=
  statement (ofKind .invocationExpression
    [(name "Swap").inField .function,
     (ofKind .argumentList
       (between "(" ")" [ofKind .argument [first], token ",", ofKind .argument [second]])).inField .arguments])

/-- `Swap(s,null);`, with `void Swap(Stream a,Stream b){b.Dispose();Swap(b,a);}` -/
def exchanged : Compilation :=
  .ofDocuments
    [creatingOf (swap (name "s") (leaf (.other "null_literal") "null"))
      [method [] void "Swap" [parameterOf "Stream" "a", token ",", parameterOf "Stream" "b"]
        [statement (call (access (name "b") "Dispose") []), swap (name "b") (name "a")]]]

end Sample

/-- The theorem where a local is passed on twice, to two methods, and then disposed. -/
theorem isHandedOff_of_isPassedAlong_relayed :
    ∃ region d pass drop, Sample.relayed.HasPlace region ∧ d.text = "s=new MemoryStream()" ∧
      Sample.relayed.model.IsPassedAlong (.localVar d) region [pass, drop] ∧
      Sample.relayed.model.isHandedOff (.localVar d) region = true := by
  have hany : (Sample.relayed.places.any fun region => region.is .methodDeclaration &&
      Sample.relayed.places.any fun d => d.text == "s=new MemoryStream()" &&
        Sample.passesOn Sample.relayed.model (.localVar d) region fun pass a =>
          pass.nameText? == some "Pass" && Sample.passesOn Sample.relayed.model (.parameter a) pass fun drop b =>
            drop.nameText? == some "Drop" && (Symbol.parameter b).name? == some "b" &&
              Sample.relayed.model.releasedIn (.parameter b) "b" drop) = true := by
    decide +kernel
  simp only [List.any_eq_true, Bool.and_eq_true, beq_iff_eq] at hany
  obtain ⟨region, hregion, -, d, -, hd, hpasses⟩ := hany
  have hregion := Compilation.mem_places_iff.1 hregion
  have hc : Sample.relayed.IsRead := Compilation.isRead_ofDocuments _
  obtain ⟨pass, a, hpass, harg, hpasses⟩ := Sample.exists_of_passesOn hc hregion hpasses
  simp only [Bool.and_eq_true, beq_iff_eq] at hpasses
  obtain ⟨drop, b, -, harg', hdrop⟩ := Sample.exists_of_passesOn hc hpass hpasses.2
  simp only [Bool.and_eq_true, beq_iff_eq] at hdrop
  have hne : pass ≠ drop := by
    rintro rfl
    simp [hdrop.1.1] at hpasses
  have halong : Sample.relayed.model.IsPassedAlong (.localVar d) region [(pass, a), (drop, b)] :=
    .call harg (.call harg' (.here (.released hdrop.1.2 hdrop.2)))
  refine ⟨region, d, (pass, a), (drop, b), hregion, hd, halong, ?_⟩
  refine (isHandedOff_of_isPassedAlong _ hregion halong ?_).1
  simp [hne, hne.symm]

/-- A local that a method gets for one parameter and passes to itself for another, which it disposes, is not seen to
be handed off, and is reported. -/
theorem isHandedOff_exchanged_eq_false :
    ∃ n region d swap a b, Sample.exchanged.HasPlace n ∧ n.region? = some region ∧ d.text = "s=new MemoryStream()" ∧
      Sample.exchanged.model.IsPassedAlong (.localVar d) region [(swap, a), (swap, b)] ∧
      Sample.exchanged.model.isHandedOff (.localVar d) region = false ∧
      (CreatedLocal.check Sample.exchanged.model n).map (·.message) =
        ["Dispose created: `s` is created here and never disposed"] := by
  have hany : (Sample.exchanged.places.any fun n => n.region?.any fun region =>
      decide ((CreatedLocal.check Sample.exchanged.model n).map (·.message) =
        ["Dispose created: `s` is created here and never disposed"]) &&
      Sample.exchanged.places.any fun d => d.text == "s=new MemoryStream()" &&
        !Sample.exchanged.model.isHandedOff (.localVar d) region &&
        Sample.passesOn Sample.exchanged.model (.localVar d) region fun swap a =>
          Sample.passesOn Sample.exchanged.model (.parameter a) swap fun swap' b =>
            swap == swap' && (Symbol.parameter b).name? == some "b" &&
              Sample.exchanged.model.releasedIn (.parameter b) "b" swap') = true := by
    decide +kernel
  simp only [List.any_eq_true, Bool.and_eq_true, Bool.not_eq_true', Option.any_eq_true, decide_eq_true_eq,
    beq_iff_eq] at hany
  obtain ⟨n, hn, region, hregion, hcheck, d, -, ⟨hd, hoff⟩, hpasses⟩ := hany
  have hn := Compilation.mem_places_iff.1 hn
  have hc : Sample.exchanged.IsRead := Compilation.isRead_ofDocuments _
  obtain ⟨swap, a, hswap, harg, hpasses⟩ := Sample.exists_of_passesOn hc (hn.of_nearest? hregion) hpasses
  obtain ⟨swap', b, hswap', harg', hlast⟩ := Sample.exists_of_passesOn hc hswap hpasses
  simp only [Bool.and_eq_true, beq_iff_eq, Node.beq_iff] at hlast
  obtain rfl := hswap.eq_of_id hswap' hlast.1.1
  exact ⟨n, region, d, swap, a, b, hn, hregion, hd, .call harg (.call harg' (.here (.released hlast.1.2 hlast.2))),
    hoff, hcheck⟩

end Model

end Disposal
