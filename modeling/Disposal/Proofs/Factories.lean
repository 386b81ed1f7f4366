import Mathlib.Order.Bounds.Basic
import Disposal.Proofs.Agreement
import Disposal.Proofs.Guards
import Disposal.Proofs.Search
import Disposal.Proofs.Sketch

/-!
# Factories that call each other

What a method returns is its own, or comes from the methods whose results it returns. Methods may call each other in any
way, and a method that leads back to itself tells nothing; yet nothing is lost by that. For methods that return fresh
values, parameters, members and results of each other, the verdict is the weakest claim among all that can be reached.

* `Ownership.isWeakest_combine`: values taken together;
* `Ownership.isExact_answerWithin`: the verdict of a walk is the weakest claim that a search finds;
* `Ownership.classifyReturns?_isGreatest`: the verdict on a factory.
-/

namespace Disposal

namespace Ownership

open Relation

/-! ### The weakest of some claims -/

/-- How weak a claim to own a value is. -/
def weakness : Ownership → Nat
  | created => 0
  | borrowed => 1
  | injected => 2
  | cached => 3

private theorem weakness_injective : Function.Injective weakness := by
  intro a b h
  cases a <;> cases b <;> first | rfl | cases h

instance : PartialOrder Ownership := .lift weakness weakness_injective

instance (a b : Ownership) : Decidable (a ≤ b) := inferInstanceAs (Decidable (a.weakness ≤ b.weakness))

/-- The verdict is the weakest of some claims, and there is none if there are no claims. -/
def IsWeakest (claims : Set Ownership) : Verdict → Prop
  | none => claims = ∅
  | some o => IsGreatest claims o

private theorem isWeakest_singleton (o : Ownership) : IsWeakest {o} (some o) := isGreatest_singleton

/-- Claims that are no weaker than those there are do not count. -/
private theorem IsWeakest.of_subset {claims more : Set Ownership} {v : Verdict} (h : IsWeakest claims v)
    (hsub : claims ⊆ more) (hle : ∀ o ∈ more, ∃ o' ∈ claims, o ≤ o') : IsWeakest more v := by
  cases v with
  | none =>
    refine Set.eq_empty_of_forall_notMem fun o ho => ?_
    obtain ⟨o', ho', -⟩ := hle o ho
    rw [h] at ho'
    exact ho'
  | some o =>
    refine ⟨hsub h.1, fun o' ho' => ?_⟩
    obtain ⟨o'', ho'', hle⟩ := hle o' ho'
    exact le_trans hle (h.2 ho'')

private theorem IsWeakest.exists_ge {claims : Set Ownership} {v : Verdict} (h : IsWeakest claims v) {o : Ownership}
    (ho : o ∈ claims) : ∃ o', v = some o' ∧ o ≤ o' := by
  cases v with
  | none =>
    rw [h] at ho
    cases ho
  | some o' => exact ⟨o', rfl, h.2 ho⟩

theorem isWeakest_combine (values : List Ownership) : IsWeakest {o | o ∈ values} (combine values) := by
  have hle : ∀ o : Ownership, o ≤ cached := by
    intro o
    cases o <;> decide
  unfold combine
  split
  · next hc => exact ⟨List.contains_iff_mem.1 hc, fun o _ => hle o⟩
  · next hc =>
    split
    · next hi =>
      refine ⟨List.contains_iff_mem.1 hi, fun o ho => ?_⟩
      cases o with
      | cached => exact absurd (List.contains_iff_mem.2 ho) hc
      | _ => decide
    · next hi =>
      split
      · next hb =>
        refine ⟨List.contains_iff_mem.1 hb, fun o ho => ?_⟩
        cases o with
        | cached => exact absurd (List.contains_iff_mem.2 ho) hc
        | injected => exact absurd (List.contains_iff_mem.2 ho) hi
        | _ => decide
      · next hb =>
        have hall : ∀ o ∈ values, o = created := by
          intro o ho
          cases o with
          | created => rfl
          | cached => exact absurd (List.contains_iff_mem.2 ho) hc
          | injected => exact absurd (List.contains_iff_mem.2 ho) hi
          | borrowed => exact absurd (List.contains_iff_mem.2 ho) hb
        cases values with
        | nil => simp [IsWeakest]
        | cons o os =>
          refine ⟨List.mem_cons_self, fun o' ho' => ?_⟩
          rw [hall o List.mem_cons_self, hall o' ho']

private theorem exists_mem_of_mapM_eq_some {α β : Type} {l : List α} {f : α → Option β} {ys : List β}
    (h : l.mapM f = some ys) {y : β} (hy : y ∈ ys) : ∃ x ∈ l, f x = some y := by
  induction l generalizing ys with
  | nil =>
    cases h
    cases hy
  | cons a l ih =>
    rw [List.mapM_cons] at h
    obtain ⟨b, hb, h⟩ := Option.bind_eq_some_iff.1 h
    obtain ⟨bs, hbs, h⟩ := Option.bind_eq_some_iff.1 h
    cases h
    rcases List.mem_cons.1 hy with rfl | hy
    · exact ⟨a, List.mem_cons_self, hb⟩
    · obtain ⟨x, hx, hf⟩ := ih hbs hy
      exact ⟨x, List.mem_cons_of_mem a hx, hf⟩

/-- Several verdicts together are the weakest claim among all that they were given on. -/
private theorem isWeakest_together {α : Type} {l : List α} {f : α → Option Verdict} {v : Verdict}
    (h : (l.mapM f).map together = some v) {claims : α → Set Ownership}
    (hf : ∀ x ∈ l, ∀ u, f x = some u → IsWeakest (claims x) u) : IsWeakest {o | ∃ x ∈ l, o ∈ claims x} v := by
  obtain ⟨vs, hvs, rfl⟩ := Option.map_eq_some_iff.1 h
  refine (isWeakest_combine (vs.filterMap fun v => v)).of_subset ?_ ?_
  · intro o ho
    obtain ⟨u, hu, rfl⟩ := List.mem_filterMap.1 ho
    obtain ⟨x, hx, hu⟩ := exists_mem_of_mapM_eq_some hvs hu
    exact ⟨x, hx, (hf x hx _ hu).1⟩
  · rintro o ⟨x, hx, ho⟩
    obtain ⟨u, hu, hfx⟩ := exists_of_mapM_eq_some hvs hx
    obtain ⟨o', rfl, hle⟩ := (hf x hx u hfx).exists_ge ho
    exact ⟨o', List.mem_filterMap.2 ⟨_, hu, rfl⟩, hle⟩

/-! ### What a method returns -/

/-- One expression gives the value of another: it stands in its parentheses or is one of its branches. -/
def Gives (e x : Node) : Prop := e.insideParens? = some x ∨ e.is .conditionalExpression = true ∧ x ∈ e.branches

section

variable (m : Model)

/-- An expression has a value of its own: a fresh one, or that of a parameter. -/
inductive IsSource (e : Node) : Ownership → Prop
  | creation (h : e.isAny [.objectCreationExpression, .implicitObjectCreationExpression] = true) : IsSource e .created
  | parameter {p : Node} (hk : e.is .identifier = true) (hs : m.symbol? e = some (.parameter p)) : IsSource e .injected

/-- An expression calls a method of the compilation by its name alone. -/
structure IsCallOf (e method : Node) : Prop where
  isCall : e.is .invocationExpression = true
  unqualified : ∃ name, e.invoked? = some (name, none)
  symbol : m.symbol? e = some (.method method)

/-- The leaves of a method: the sources of what it returns, the members it returns, and the whole method if it returns
nothing. -/
inductive HasLeaf (method : Node) : Ownership → Prop
  | nothing (h : method.returnedExpressions = []) : HasLeaf method .injected
  | member {e : Node} (he : e ∈ method.returnedExpressions) (h : returnsMember m e = true) : HasLeaf method .cached
  | source {e x : Node} {o : Ownership} (he : e ∈ method.returnedExpressions) (hx : ReflTransGen Gives e x)
    (h : IsSource m x o) : HasLeaf method o

/-- A method returns what another one returns. -/
def Relays (method callee : Node) : Prop :=
  ∃ e ∈ method.returnedExpressions, ∃ x, ReflTransGen Gives e x ∧ IsCallOf m x callee

/-- The classes of the leaves that can be reached from a method. -/
def leafClasses (method : Node) : Set Ownership :=
  {o | ∃ callee, ReflTransGen (Relays m) method callee ∧ HasLeaf m callee o}

/-- An expression is built from creations, parameters and calls by parentheses and branches. -/
inductive IsBuilt : Node → Prop
  | source {e : Node} {o : Ownership} (h : IsSource m e o) : IsBuilt e
  | call {e method : Node} (h : IsCallOf m e method) : IsBuilt e
  | parens {e x : Node} (h : e.insideParens? = some x) (hx : IsBuilt x) : IsBuilt e
  | branches {e : Node} (h : e.is .conditionalExpression = true) (hx : ∀ x ∈ e.branches, IsBuilt x) : IsBuilt e

/-- A method, and all that it relays, returns members and built expressions only. -/
def IsFactory (method : Node) : Prop :=
  ∀ callee, ReflTransGen (Relays m) method callee →
    ∀ e ∈ callee.returnedExpressions, returnsMember m e = true ∨ IsBuilt m e

/-- The classes of the leaves that a search finds from a method. -/
def found (path : List Symbol) (method : Node) : Set Ownership :=
  {o | Search.Finds (fun f => some (Symbol.method f)) (Relays m) (fun f => HasLeaf m f o) path method}

/-- The claims on the value of an expression: of its sources, and of what is found from the methods that it calls. -/
def claims (path : List Symbol) (e : Node) : Set Ownership :=
  {o | ∃ x, ReflTransGen Gives e x ∧ (IsSource m x o ∨ ∃ callee, IsCallOf m x callee ∧ o ∈ found m path callee)}

end

/-! ### Claims on an expression -/

section

variable {m : Model} {path : List Symbol} {e : Node}

private theorem not_gives {k : Kind} (hk : e.kind? = some k) (hparens : k ≠ .parenthesizedExpression)
    (hbranches : k ≠ .conditionalExpression) (x : Node) : ¬Gives e x := by
  rintro (h | ⟨h, -⟩)
  · rw [(Node.insideParens?_eq_some h).1] at hk
    exact hparens (Option.some.inj hk).symm
  · rw [Node.is_iff.1 h] at hk
    exact hbranches (Option.some.inj hk).symm

/-- The kinds of the expressions that are sources. -/
def sources : List Kind := [.objectCreationExpression, .implicitObjectCreationExpression, .identifier]

private theorem IsSource.exists_kind {o : Ownership} (h : IsSource m e o) : ∃ k ∈ sources, e.kind? = some k := by
  cases h with
  | creation h =>
    obtain ⟨k, hk, hkind⟩ := Node.isAny_iff.1 h
    exact ⟨k, by revert hk; cases k <;> decide, hkind⟩
  | parameter hk _ => exact ⟨_, by decide, Node.is_iff.1 hk⟩

private theorem not_isSource {k : Kind} (hk : e.kind? = some k) (hne : k ∉ sources) (o : Ownership) :
    ¬IsSource m e o := by
  intro h
  obtain ⟨k', hmem, hk'⟩ := h.exists_kind
  rw [hk] at hk'
  cases hk'
  exact hne hmem

private theorem not_isCallOf {k : Kind} (hk : e.kind? = some k) (hne : k ≠ .invocationExpression) (callee : Node) :
    ¬IsCallOf m e callee := by
  intro h
  rw [Node.is_iff.1 h.isCall] at hk
  exact hne (Option.some.inj hk).symm

private theorem IsSource.not_gives {o : Ownership} (h : IsSource m e o) (x : Node) : ¬Gives e x := by
  obtain ⟨k, hmem, hk⟩ := h.exists_kind
  refine Ownership.not_gives hk ?_ ?_ x
  · rintro rfl
    revert hmem
    decide
  · rintro rfl
    revert hmem
    decide

theorem IsSource.unique {o o' : Ownership} (h : IsSource m e o) (h' : IsSource m e o') : o' = o := by
  cases h with
  | creation h =>
    cases h' with
    | creation => rfl
    | parameter hk =>
      rw [Node.isAny_eq_of_kind? (Node.is_iff.1 hk)] at h
      cases h
  | parameter hk =>
    cases h' with
    | creation h =>
      rw [Node.isAny_eq_of_kind? (Node.is_iff.1 hk)] at h
      cases h
    | parameter => rfl

private theorem mem_claims_iff {o : Ownership} :
    o ∈ claims m path e ↔
      (IsSource m e o ∨ ∃ callee, IsCallOf m e callee ∧ o ∈ found m path callee) ∨
        ∃ x, Gives e x ∧ o ∈ claims m path x := by
  constructor
  · rintro ⟨x, hx, h⟩
    rcases hx.cases_head with rfl | ⟨y, hy, hyx⟩
    · exact .inl h
    · exact .inr ⟨y, hy, x, hyx, h⟩
  · rintro (h | ⟨y, hy, x, hyx, h⟩)
    · exact ⟨e, .refl, h⟩
    · exact ⟨x, .head hy hyx, h⟩

private theorem claims_of_isSource {o : Ownership} (h : IsSource m e o) : claims m path e = {o} := by
  ext o'
  rw [mem_claims_iff]
  constructor
  · rintro ((h' | ⟨callee, hcall, -⟩) | ⟨x, hx, -⟩)
    · exact h.unique h'
    · exact absurd h (not_isSource (Node.is_iff.1 hcall.isCall) (by decide) o)
    · exact absurd hx (h.not_gives x)
  · rintro rfl
    exact .inl (.inl h)

private theorem claims_of_isCallOf {callee : Node} (h : IsCallOf m e callee) :
    claims m path e = found m path callee := by
  have hk := Node.is_iff.1 h.isCall
  ext o
  rw [mem_claims_iff]
  constructor
  · rintro ((h' | ⟨callee', hcall, ho⟩) | ⟨x, hx, -⟩)
    · exact absurd h' (not_isSource hk (by decide) o)
    · have heq := h.symbol
      rw [hcall.symbol] at heq
      cases heq
      exact ho
    · exact absurd hx (not_gives hk (by decide) (by decide) x)
  · intro ho
    exact .inl (.inr ⟨callee, h, ho⟩)

private theorem claims_of_kind? {k : Kind} (hk : e.kind? = some k) (hsource : k ∉ sources)
    (hcall : k ≠ .invocationExpression) : claims m path e = {o | ∃ x, Gives e x ∧ o ∈ claims m path x} := by
  ext o
  rw [mem_claims_iff]
  constructor
  · rintro ((h | ⟨callee, h, -⟩) | h)
    · exact absurd h (not_isSource hk hsource o)
    · exact absurd h (not_isCallOf hk hcall callee)
    · exact h
  · exact .inr

private theorem claims_of_insideParens? {x : Node} (h : e.insideParens? = some x) :
    claims m path e = claims m path x := by
  have hk := (Node.insideParens?_eq_some h).1
  rw [claims_of_kind? hk (by decide) (by decide)]
  ext o
  constructor
  · rintro ⟨y, hy | ⟨hy, -⟩, ho⟩
    · rw [h] at hy
      cases hy
      exact ho
    · rw [Node.is_iff, hk] at hy
      cases hy
  · intro ho
    exact ⟨x, .inl h, ho⟩

private theorem claims_of_branches (h : e.is .conditionalExpression = true) :
    claims m path e = {o | ∃ x ∈ e.branches, o ∈ claims m path x} := by
  have hk := Node.is_iff.1 h
  rw [claims_of_kind? hk (by decide) (by decide)]
  ext o
  constructor
  · rintro ⟨x, hx | ⟨-, hx⟩, ho⟩
    · rw [(Node.insideParens?_eq_some hx).1] at hk
      cases hk
    · exact ⟨x, hx, ho⟩
  · rintro ⟨x, hx, ho⟩
    exact ⟨x, .inr ⟨h, hx⟩, ho⟩

private theorem stripParens_of_reflTransGen {k : Kind} (hk : e.stripParens.kind? = some k)
    (hne : k ≠ .conditionalExpression) {x : Node} (hx : ReflTransGen Gives e x) : x.stripParens = e.stripParens := by
  induction hx with
  | refl => rfl
  | @tail y z _ hyz ih =>
    rcases hyz with hyz | ⟨hyz, -⟩
    · rw [← ih, y.stripParens_eq, hyz]
    · rw [← ih, Node.stripParens_of_kind? (Node.is_iff.1 hyz) (by decide), Node.is_iff.1 hyz] at hk
      exact absurd (Option.some.inj hk).symm hne

/-- On a member as a whole there are no other claims. -/
private theorem claims_of_returnsMember (h : returnsMember m e = true) : claims m path e = ∅ := by
  rw [returnsMember, Bool.and_eq_true] at h
  obtain ⟨hkind, hsymbol⟩ := h
  obtain ⟨k, hk, hkind⟩ := Node.isAny_iff.1 hkind
  have hne : k ≠ .conditionalExpression := by
    rintro rfl
    revert hk
    decide
  refine Set.eq_empty_of_forall_notMem fun o ⟨x, hx, ho⟩ => ?_
  have hstrip := stripParens_of_reflTransGen hkind hne hx
  rcases ho with ho | ⟨callee, ho, -⟩
  · cases ho with
    | creation hc =>
      obtain ⟨k', hk', hc⟩ := Node.isAny_iff.1 hc
      rw [← hstrip, Node.stripParens_of_kind? hc (by rintro rfl; revert hk'; decide), hc] at hkind
      cases hkind
      revert hk hk'
      cases k <;> decide
    | parameter hi hs =>
      rw [← hstrip, Node.stripParens_of_kind? (Node.is_iff.1 hi) (by decide), hs] at hsymbol
      cases hsymbol
  · have hc := Node.is_iff.1 ho.isCall
    rw [← hstrip, Node.stripParens_of_kind? hc (by decide), hc] at hkind
    cases hkind
    revert hk
    decide

end

/-! ### The verdict of a walk -/

section

variable {m : Model} {ask : Answers} {path : List Symbol}

private theorem mem_found_iff {method : Node} {o : Ownership} :
    o ∈ found m path method ↔ path.contains (.method method) = false ∧
      (HasLeaf m method o ∨ ∃ callee, Relays m method callee ∧ o ∈ found m (.method method :: path) callee) := by
  constructor
  · intro h
    cases h with
    | leaf hopen h => exact ⟨hopen _ rfl, .inl h⟩
    | step hopen hstep h => exact ⟨hopen _ rfl, .inr ⟨_, hstep, h⟩⟩
  · rintro ⟨hnew, h⟩
    have hopen : Search.IsOpen (fun f => some (Symbol.method f)) path method := by
      intro k hk
      cases hk
      exact hnew
    rcases h with h | ⟨callee, hstep, h⟩
    · exact Search.Finds.leaf hopen h
    · exact Search.Finds.step hopen hstep h

variable (m)

/-- The methods that the value of an expression may come from are factories. -/
def CallsFactories (e : Node) : Prop :=
  ∀ x callee, ReflTransGen Gives e x → IsCallOf m x callee → IsFactory m callee

/-- Answers give the weakest claim, where there is an answer. -/
structure IsExact (ask : Answers) : Prop where
  value {path : List Symbol} {e use : Node} {v : Verdict} (hbuilt : IsBuilt m e) (hcalls : CallsFactories m e)
    (h : ask path (.value e use) = some v) : IsWeakest (claims m path e) v
  returns {path : List Symbol} {method : Node} {v : Verdict} (hfactory : IsFactory m method)
    (h : ask path (.returns method) = some v) : IsWeakest (found m path method) v

variable {m}

private theorem ofExpression_of_isSource {e use : Node} {o : Ownership} (h : IsSource m e o) :
    ofExpression m ask path e use = some (some o) := by
  cases h with
  | creation h =>
    obtain ⟨k, hmem, hk⟩ := Node.isAny_iff.1 h
    simp only [List.mem_cons, List.not_mem_nil, or_false] at hmem
    rcases hmem with rfl | rfl
    · rw [ofExpression, Node.stripParens_of_kind? hk (by decide), hk]
    · rw [ofExpression, Node.stripParens_of_kind? hk (by decide), hk]
  | parameter hi hs =>
    have hk := Node.is_iff.1 hi
    rw [ofExpression, Node.stripParens_of_kind? hk (by decide), hk]
    simp only [ofSymbol, hs]

private theorem ofExpression_of_isCallOf {e use callee : Node} (h : IsCallOf m e callee) :
    ofExpression m ask path e use = ask path (.returns callee) := by
  have hk := Node.is_iff.1 h.isCall
  obtain ⟨name, hname⟩ := h.unqualified
  rw [ofExpression, Node.stripParens_of_kind? hk (by decide), hk]
  simp only [ofCall, hname, Option.bind_none, ofMethod, h.symbol]

private theorem isWeakest_ofExpression (hask : IsExact m ask) {e use : Node} {v : Verdict} (hbuilt : IsBuilt m e)
    (hcalls : CallsFactories m e) (h : ofExpression m ask path e use = some v) : IsWeakest (claims m path e) v := by
  induction hbuilt with
  | source hs =>
    rw [ofExpression_of_isSource hs] at h
    cases h
    rw [claims_of_isSource hs]
    exact isWeakest_singleton _
  | @call e callee hcall =>
    rw [ofExpression_of_isCallOf hcall] at h
    rw [claims_of_isCallOf hcall]
    exact hask.returns (hcalls e callee .refl hcall) h
  | @parens e x hx _ ih =>
    rw [claims_of_insideParens? hx]
    refine ih (fun y callee hy => hcalls y callee (.head (.inl hx) hy)) ?_
    rw [ofExpression, e.stripParens_eq, hx] at h
    exact h
  | @branches e he hx _ =>
    rw [claims_of_branches he]
    have hk := Node.is_iff.1 he
    rw [ofExpression, Node.stripParens_of_kind? hk (by decide), hk] at h
    refine isWeakest_together h fun x hmem u hu => hask.value (hx x hmem) ?_ hu
    exact fun y callee hy => hcalls y callee (.head (.inr ⟨he, hmem⟩) hy)

private theorem IsFactory.callsFactories {method e : Node} (h : IsFactory m method)
    (he : e ∈ method.returnedExpressions) : CallsFactories m e := by
  intro x callee hx hcall callee' hreach
  exact h callee' (.head ⟨e, he, x, hx, hcall⟩ hreach)

/-- What is found inside a method: the members it returns, and the claims on the other expressions. -/
private theorem mem_found_of_new {method : Node} (hnew : path.contains (.method method) = false)
    (hsome : method.returnedExpressions ≠ []) {o : Ownership} :
    o ∈ found m path method ↔ ∃ e ∈ method.returnedExpressions,
      o ∈ if returnsMember m e = true then {.cached} else claims m (.method method :: path) e := by
  rw [mem_found_iff]
  constructor
  · have hclaim : ∀ e ∈ method.returnedExpressions, o ∈ claims m (.method method :: path) e →
        ∃ e ∈ method.returnedExpressions,
          o ∈ if returnsMember m e = true then {.cached} else claims m (.method method :: path) e := by
      intro e he ho
      refine ⟨e, he, ?_⟩
      rwa [if_neg]
      intro hmember
      rw [claims_of_returnsMember hmember] at ho
      exact ho
    rintro ⟨-, h | ⟨callee, ⟨e, he, x, hx, hcall⟩, ho⟩⟩
    · cases h with
      | nothing h => exact absurd h hsome
      | @member e he h => exact ⟨e, he, by rw [if_pos h]; rfl⟩
      | @source e x _ he hx h => exact hclaim e he ⟨x, hx, .inl h⟩
    · exact hclaim e he ⟨x, hx, .inr ⟨callee, hcall, ho⟩⟩
  · rintro ⟨e, he, ho⟩
    refine ⟨hnew, ?_⟩
    split at ho
    · next hmember =>
      cases ho
      exact .inl (.member he hmember)
    · obtain ⟨x, hx, h | ⟨callee, hcall, ho⟩⟩ := ho
      · exact .inl (.source he hx h)
      · exact .inr ⟨callee, ⟨e, he, x, hx, hcall⟩, ho⟩

private theorem isWeakest_ofReturns (hask : IsExact m ask) {method : Node} {v : Verdict} (hfactory : IsFactory m method)
    (h : ofReturns m ask path method = some v) : IsWeakest (found m path method) v := by
  unfold ofReturns at h
  split at h
  · next hmet =>
    cases h
    refine Set.eq_empty_of_forall_notMem fun o ho => ?_
    rw [(mem_found_iff.1 ho).1] at hmet
    cases hmet
  · next hnew =>
    rw [Bool.not_eq_true] at hnew
    split at h
    · next hnone =>
      cases h
      have heq : found m path method = {.injected} := by
        ext o
        rw [mem_found_iff]
        constructor
        · rintro ⟨-, h | ⟨callee, ⟨e, he, -⟩, -⟩⟩
          · cases h with
            | nothing => rfl
            | member he | source he =>
              rw [hnone] at he
              cases he
          · rw [hnone] at he
            cases he
        · rintro rfl
          exact ⟨hnew, .inl (.nothing hnone)⟩
      rw [heq]
      exact isWeakest_singleton _
    · next hsome =>
      rw [Set.ext fun o => mem_found_of_new (m := m) (o := o) hnew hsome]
      refine isWeakest_together h fun e he u hu => ?_
      split at hu
      · next hmember =>
        cases hu
        rw [if_pos hmember]
        exact isWeakest_singleton _
      · next hmember =>
        rw [if_neg hmember]
        have hbuilt := (hfactory method .refl e he).resolve_left hmember
        exact hask.value hbuilt (hfactory.callsFactories he) hu

/-- The verdict of a walk is the weakest claim that a search finds. -/
theorem isExact_answerWithin (depth : Nat) : IsExact m (answerWithin m depth) := by
  induction depth with
  | zero =>
    constructor
    · intro path e use v _ _ h
      cases h
    · intro path method v _ h
      cases h
  | succ depth ih =>
    constructor
    · intro path e use v hbuilt hcalls h
      exact isWeakest_ofExpression ih hbuilt hcalls h
    · intro path method v hfactory h
      exact isWeakest_ofReturns ih hfactory h

end

/-! ### Factories of a compilation -/

section

variable {c : Compilation}

private theorem hasPlace_of_gives {e x : Node} (he : c.HasPlace e) (h : ReflTransGen Gives e x) : c.HasPlace x := by
  induction h with
  | refl => exact he
  | @tail y z _ hyz ih =>
    rcases hyz with hyz | ⟨-, hyz⟩
    · exact .child ih (Node.mem_children_of_insideParens? y z hyz)
    · exact ih.of_named (List.mem_of_mem_drop hyz)

private theorem hasPlace_of_relays (hc : c.IsRead) {method callee : Node} (hm : c.HasPlace method)
    (h : Relays c.model method callee) : c.HasPlace callee := by
  obtain ⟨e, he, x, hx, hcall⟩ := h
  exact hc.isIn_symbol? (hasPlace_of_gives (hm.of_returnedExpressions he) hx) hcall.symbol callee rfl

private theorem hasPlace_of_reaches (hc : c.IsRead) {method callee : Node} (hm : c.HasPlace method)
    (h : ReflTransGen (Relays c.model) method callee) : c.HasPlace callee := by
  induction h with
  | refl => exact hm
  | tail _ hstep ih => exact hasPlace_of_relays hc ih hstep

/-- A search loses nothing by not entering a method twice. -/
private theorem found_nil (hc : c.IsRead) {method : Node} (hm : c.HasPlace method) :
    found c.model [] method = leafClasses c.model method := by
  have hin : ∀ f g, c.HasPlace f → Relays c.model f g → c.HasPlace g := fun f g => hasPlace_of_relays hc
  ext o
  refine Search.finds_nil_iff hin ?_ hm
  intro f g k l hf hg hk hl hkl
  cases hk
  cases hl
  exact hf.eq_of_id hg (Node.beq_iff.1 hkl)

private theorem answerWithin_limit_returns (hc : c.IsRead) {method : Node} (hm : c.HasPlace method) :
    answerWithin c.model c.model.limit [] (.returns method) = some (c.model.classifyReturns? method) := by
  have hlimit : weight c [] (.returns method) < c.model.limit := c.room_lt_limit (Nat.zero_le _)
  have hq : Query.IsIn c (.returns method) := hm
  obtain ⟨v, hv, -⟩ := settled_answerWithin (IsTrail.nil c) hc hq hlimit (Nat.le_refl _)
  rw [Model.classifyReturns?, hv]
  rfl

private theorem isWeakest_classifyReturns? (hc : c.IsRead) {method : Node} (hm : c.HasPlace method)
    (h : IsFactory c.model method) : IsWeakest (leafClasses c.model method) (c.model.classifyReturns? method) := by
  rw [← found_nil hc hm]
  exact (isExact_answerWithin _).returns h (answerWithin_limit_returns hc hm)

end

private theorem IsFactory.of_relays {m : Model} {method callee : Node} (h : IsFactory m method)
    (hreach : ReflTransGen (Relays m) method callee) : IsFactory m callee :=
  fun other hother => h other (hreach.trans hother)

private theorem leafClasses_subset {m : Model} {method callee : Node} (h : ReflTransGen (Relays m) method callee) :
    leafClasses m callee ⊆ leafClasses m method := by
  rintro o ⟨other, hother, hleaf⟩
  exact ⟨other, h.trans hother, hleaf⟩

/-- Methods of two compilations correspond to each other: they have leaves of the same classes and relay what methods
that correspond return, in whatever order they do so. -/
structure Resembles (m m' : Model) (alike : Node → Node → Prop) : Prop where
  leaf {f f' : Node} (h : alike f f') (o : Ownership) : HasLeaf m f o ↔ HasLeaf m' f' o
  forth {f f' g : Node} (h : alike f f') (hg : Relays m f g) : ∃ g', Relays m' f' g' ∧ alike g g'
  back {f f' g' : Node} (h : alike f f') (hg : Relays m' f' g') : ∃ g, Relays m f g ∧ alike g g'

private theorem Resembles.leafClasses_eq {m m' : Model} {alike : Node → Node → Prop} (hres : Resembles m m' alike)
    {f f' : Node} (h : alike f f') : leafClasses m f = leafClasses m' f' := by
  have forth : ∀ {g}, ReflTransGen (Relays m) f g → ∃ g', ReflTransGen (Relays m') f' g' ∧ alike g g' := by
    intro g hg
    induction hg with
    | refl => exact ⟨f', .refl, h⟩
    | tail _ hstep ih =>
      obtain ⟨k, hk, hal⟩ := ih
      obtain ⟨k', hk', hal'⟩ := hres.forth hal hstep
      exact ⟨k', hk.tail hk', hal'⟩
  have back : ∀ {g'}, ReflTransGen (Relays m') f' g' → ∃ g, ReflTransGen (Relays m) f g ∧ alike g g' := by
    intro g' hg
    induction hg with
    | refl => exact ⟨f, .refl, h⟩
    | tail _ hstep ih =>
      obtain ⟨k, hk, hal⟩ := ih
      obtain ⟨k', hk', hal'⟩ := hres.back hal hstep
      exact ⟨k', hk.tail hk', hal'⟩
  ext o
  constructor
  · rintro ⟨g, hg, hleaf⟩
    obtain ⟨g', hg', hal⟩ := forth hg
    exact ⟨g', hg', (hres.leaf hal o).1 hleaf⟩
  · rintro ⟨g', hg', hleaf⟩
    obtain ⟨g, hg, hal⟩ := back hg'
    exact ⟨g, hg, (hres.leaf hal o).2 hleaf⟩

private theorem IsWeakest.eq_none_iff {claims : Set Ownership} {v : Verdict} (h : IsWeakest claims v) :
    v = none ↔ claims = ∅ := by
  cases v with
  | none => exact ⟨fun _ => h, fun _ => rfl⟩
  | some o =>
    have hne : claims ≠ ∅ := Set.nonempty_iff_ne_empty.1 ⟨o, h.1⟩
    simpa using hne

private theorem IsWeakest.eq_some_iff {claims : Set Ownership} {v : Verdict} (h : IsWeakest claims v) {o : Ownership} :
    v = some o ↔ IsGreatest claims o := by
  constructor
  · rintro rfl
    exact h
  · intro ho
    obtain ⟨o', rfl, hle⟩ := h.exists_ge ho.1
    have hge : o' ≤ o := ho.2 h.1
    exact congrArg some (le_antisymm hge hle)

theorem IsWeakest.unique {claims : Set Ownership} {u v : Verdict} (hu : IsWeakest claims u) (hv : IsWeakest claims v) :
    u = v := by
  cases v with
  | none => exact hu.eq_none_iff.2 hv
  | some o => exact hu.eq_some_iff.2 hv

/-- The verdict on what a factory returns is the weakest claim among the leaves that can be reached from it, and none is
given exactly if there are no leaves. It does not depend on where a circle of calls is entered, nor on the order in
which values are returned. -/
theorem classifyReturns?_isGreatest (documents : List Document) {method : Node}
    (hm : (Compilation.ofDocuments documents).HasPlace method)
    (h : IsFactory (Compilation.ofDocuments documents).model method) :
    let m := (Compilation.ofDocuments documents).model
    (m.classifyReturns? method = none ↔ leafClasses m method = ∅) ∧
    (∀ o, m.classifyReturns? method = some o ↔ IsGreatest (leafClasses m method) o) ∧
    (m.classifyReturns? method = some .created ↔ leafClasses m method = {.created}) ∧
    (∀ other, ReflTransGen (Relays m) method other → ReflTransGen (Relays m) other method →
      m.classifyReturns? other = m.classifyReturns? method) ∧
    ∀ documents' method' alike, (Compilation.ofDocuments documents').HasPlace method' →
      IsFactory (Compilation.ofDocuments documents').model method' →
      Resembles m (Compilation.ofDocuments documents').model alike → alike method method' →
      (Compilation.ofDocuments documents').model.classifyReturns? method' = m.classifyReturns? method := by
  intro m
  have hc := Compilation.isRead_ofDocuments documents
  have hweakest := isWeakest_classifyReturns? hc hm h
  refine ⟨hweakest.eq_none_iff, fun o => hweakest.eq_some_iff, ?_, ?_, ?_⟩
  · rw [hweakest.eq_some_iff]
    constructor
    · intro hgreatest
      refine Set.eq_singleton_iff_unique_mem.2 ⟨hgreatest.1, fun o ho => ?_⟩
      have hle : o.weakness ≤ 0 := hgreatest.2 ho
      cases o <;> simp_all [weakness]
    · intro heq
      rw [heq]
      exact isGreatest_singleton
  · intro other hforth hback
    have hother := isWeakest_classifyReturns? hc (hasPlace_of_reaches hc hm hforth) (h.of_relays hforth)
    rw [(leafClasses_subset hforth).antisymm (leafClasses_subset hback)] at hother
    exact hother.unique hweakest
  · intro documents' method' alike hm' h' hres halike
    have hother := isWeakest_classifyReturns? (Compilation.isRead_ofDocuments documents') hm' h'
    rw [← hres.leafClasses_eq halike] at hother
    exact hother.unique hweakest

/-! ### A check for factories -/

/-- Whether an expression is built, within so many parentheses and branches. -/
def isBuiltWithin (m : Model) : Nat → Node → Bool
  | 0, _ => false
  | depth + 1, e =>
    if e.isAny [.objectCreationExpression, .implicitObjectCreationExpression] then true
    else if e.is .conditionalExpression then e.branches.all (isBuiltWithin m depth)
    else
      match e.insideParens?, m.symbol? e with
      | some x, _ => isBuiltWithin m depth x
      | none, some (.parameter _) => e.is .identifier
      | none, some (.method _) => e.is .invocationExpression && e.invoked?.any (·.2.isNone)
      | _, _ => false

private theorem isBuilt_of_isBuiltWithin {m : Model} {depth : Nat} {e : Node} (h : isBuiltWithin m depth e = true) :
    IsBuilt m e := by
  induction depth generalizing e with
  | zero => cases h
  | succ depth ih =>
    rw [isBuiltWithin] at h
    split at h
    · next hc => exact .source (.creation hc)
    · split at h
      · next hc => exact .branches hc fun x hx => ih (List.all_eq_true.1 h x hx)
      · split at h
        · next hx => exact .parens hx (ih h)
        · next hs => exact .source (.parameter h hs)
        · next hs =>
          rw [Bool.and_eq_true, Option.any_eq_true] at h
          obtain ⟨hcall, ⟨name, receiver?⟩, hinvoked, hnone⟩ := h
          cases receiver? with
          | none => exact .call ⟨hcall, ⟨name, hinvoked⟩, hs⟩
          | some receiver => cases hnone
        · cases h

private theorem isFactory_of_all {c : Compilation} (hc : c.IsRead) (depth : Nat)
    (h : (c.places.all fun f => f.returnedExpressions.all fun e =>
      returnsMember c.model e || isBuiltWithin c.model depth e) = true) {method : Node} (hm : c.HasPlace method) :
    IsFactory c.model method := by
  intro callee hreach e he
  have hplace := (hasPlace_of_reaches hc hm hreach).mem_places
  have hplain := List.all_eq_true.1 (List.all_eq_true.1 h callee hplace) e he
  rw [Bool.or_eq_true] at hplain
  exact hplain.imp id isBuilt_of_isBuiltWithin

namespace Sample

open Sketch

/-- `class C{Stream F(){return x?(G()):new MemoryStream();}Stream G(Stream p){if(x)return F();return p;}…}`, and a
method `H` that returns `H()`. -/
def circles : Document :=
  document "C.cs"
    [classOf "C"
      [method [] (name "Stream") "F" []
        [returning (conditional (name "x") (parens (call (name "G") [])) (create "MemoryStream"))],
       method [] (name "Stream") "G" [parameterOf "Stream" "p"]
        [choose (name "x") (returning (call (name "F") [])), returning (name "p")],
       method [] (name "Stream") "H" [] [returning (call (name "H") [])]]]

end Sample

/-- Two factories that call each other, of which one returns a parameter, and one that only calls itself. -/
theorem classifyReturns?_isGreatest_circles :
    (∃ f, (Compilation.ofDocuments [Sample.circles]).HasPlace f ∧ f.nameText? = some "F" ∧
      IsGreatest (leafClasses (Compilation.ofDocuments [Sample.circles]).model f) .injected) ∧
    ∃ h, (Compilation.ofDocuments [Sample.circles]).HasPlace h ∧ h.nameText? = some "H" ∧
      leafClasses (Compilation.ofDocuments [Sample.circles]).model h = ∅ := by
  have hc := Compilation.isRead_ofDocuments [Sample.circles]
  have hall : ((Compilation.ofDocuments [Sample.circles]).places.all fun f => f.returnedExpressions.all fun e =>
      returnsMember (Compilation.ofDocuments [Sample.circles]).model e ||
        isBuiltWithin (Compilation.ofDocuments [Sample.circles]).model 3 e) = true := by
    decide +kernel
  have hf : ((Compilation.ofDocuments [Sample.circles]).places.any fun f => f.nameText? == some "F" &&
      (Compilation.ofDocuments [Sample.circles]).model.classifyReturns? f == some .injected) = true := by
    decide +kernel
  have hh : ((Compilation.ofDocuments [Sample.circles]).places.any fun f => f.nameText? == some "H" &&
      (Compilation.ofDocuments [Sample.circles]).model.classifyReturns? f == none) = true := by
    decide +kernel
  obtain ⟨f, hplace, hf⟩ := List.any_eq_true.1 hf
  obtain ⟨h, hplace', hh⟩ := List.any_eq_true.1 hh
  simp only [Bool.and_eq_true, beq_iff_eq] at hf hh
  have hplace := Compilation.mem_places_iff.1 hplace
  have hplace' := Compilation.mem_places_iff.1 hplace'
  have htheorem := classifyReturns?_isGreatest [Sample.circles] hplace (isFactory_of_all hc 3 hall hplace)
  have htheorem' := classifyReturns?_isGreatest [Sample.circles] hplace' (isFactory_of_all hc 3 hall hplace')
  exact ⟨⟨f, hplace, hf.1, (htheorem.2.1 _).1 hf.2⟩, h, hplace', hh.1, htheorem'.1.1 hh.2⟩

end Ownership

end Disposal
