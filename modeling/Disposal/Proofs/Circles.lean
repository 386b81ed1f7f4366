import Mathlib.Data.Prod.Lex
import Disposal.Proofs.Origins
import Disposal.Proofs.Questions

/-!
# Where the walk for shared values goes round

The walk of `Model.mayBeShared` enters no method or variable twice, but it goes from a loop variable to the collection
without a note. So it does not come to an end where a loop runs through its own variable, as in `foreach(T x in x)`, and
only there.

* `Sharing.answerWithin_eq`: the walk as questions that lead to others;
* `Sharing.step_of_mem_asked`: where a question leads to;
* `Sharing.ahead_lt`: what gets smaller with each question, unless a loop runs through its own variable;
* `Sharing.exists_answer_of_acc`: an answer takes no more nested questions than the limit allows;
* `Sharing.mayBeShared_of_answerWithin`: an answer of a walk of any depth is that of `Model.mayBeShared`;
* `Model.mayBeShared_ends`: when the walk comes to an end.
-/

namespace Disposal

namespace Sharing

/-! ### Which questions are asked -/

section

variable (m : Model) (path : List Symbol)

/-- The questions about the values of some expressions. -/
def askedOf (path : List Symbol) (es : List Node) : List (List Symbol × Query) := es.map fun e => (path, .value e)

/-- The questions that a variable leads to: of the values assigned to it. -/
def askedByVariable (s : Symbol) : List (List Symbol × Query) :=
  if path.contains s then []
  else
    match Scope.ofSymbol? m.compilation s with
    | some scope => askedOf (s :: path) ((m.writes s scope).filterMap (·.value?))
    | none => []

/-- The questions that a local leads to: those of a loop variable are about its collection. -/
def askedByLocal (decl : Node) : List (List Symbol × Query) :=
  if decl.is .identifier then askedOf path decl.loopCollection?.toList else askedByVariable m path (.localVar decl)

/-- Whether the value of a symbol comes from outside by what the symbol is. -/
def isEvidentSymbol (s : Symbol) : Bool :=
  match s with
  | .parameter p => !p.isOutParameter
  | .setterValue p => !(p.is .propertyDeclaration && p.hasPrivateSetter)
  | .field _ | .property _ => s.isStatic
  | _ => false

/-- The questions that a symbol leads to. -/
def askedBySymbol (s : Symbol) : List (List Symbol × Query) :=
  match s with
  | .setterValue p => askedByVariable m path (.property p)
  | .field _ => askedByVariable m path s
  | .property p =>
    if !p.isAutoProperty && p.initializer?.isNone then [(path, .returns p.getterBody)] else askedByVariable m path s
  | .localVar decl => askedByLocal m path decl
  | _ => []

/-- Whether the value of a name comes from outside by what it stands for. -/
def isEvidentName (e : Node) : Bool := (m.symbol? e).any isEvidentSymbol

/-- The questions that a name leads to. -/
def askedByName (e : Node) : List (List Symbol × Query) :=
  match m.symbol? e with
  | some s => askedBySymbol m path s
  | none => []

/-- The question that a call to a method of the compilation leads to. -/
def askedByMethod (call : Node) : List (List Symbol × Query) :=
  match m.symbol? call with
  | some (.method method) => [(path, .returns method)]
  | _ => []

/-- The questions that a call leads to. -/
def askedByCall (call : Node) : List (List Symbol × Query) :=
  match call.invoked? with
  | none => []
  | some (_, none) => askedByMethod m path call
  | some (name, some receiver) =>
    if name.text == "ConfigureAwait" || Framework.isElementProjection name.text then [(path, .value receiver)]
    else if (m.frameworkCall? call).isSome then []
    else askedByMethod m path call

/-- Whether the value of an expression without conversions comes from outside by what it is. -/
def isEvidentBare (e : Node) : Bool :=
  match e.kind? with
  | some .elementAccessExpression | some .elementBindingExpression => true
  | some .memberAccessExpression => e.wrapper?.isNone && isEvidentName m e
  | some .identifier | some .genericName | some .memberBindingExpression | some .conditionalAccessExpression =>
    isEvidentName m e
  | _ => false

/-- The questions that an expression without conversions leads to. -/
def askedByBare (e : Node) : List (List Symbol × Query) :=
  match e.kind? with
  | some .conditionalExpression => askedOf path e.branches
  | some .switchExpression => askedOf path e.armValues
  | some .binaryExpression => if e.binaryOperator? == some "??" then askedOf path e.named else []
  | some .assignmentExpression => askedOf path e.lastNamed?.toList
  | some .invocationExpression => askedByCall m path e
  | some .memberAccessExpression =>
    match e.wrapper? with
    | some wrapper => [(path, .value wrapper)]
    | none => askedByName m path e
  | some .identifier | some .genericName | some .memberBindingExpression | some .conditionalAccessExpression =>
    askedByName m path e
  | _ => []

/-- Whether a question is answered with yes without asking others. -/
def isEvident : Query → Bool
  | .value e => isEvidentBare m e.stripConversions
  | .returns _ => false

/-- The questions that a question leads to, each with the symbols on the way to it, in the order in which they are
asked. -/
def asked : Query → List (List Symbol × Query)
  | .value e => askedByBare m path e.stripConversions
  | .returns method =>
    if path.contains (.method method) then [] else askedOf (.method method :: path) method.returnedExpressions

end

/-! ### The walk as questions -/

section

variable {m : Model} {ask : Answers} {path : List Symbol}

/-- Asks some questions one after the other, until one has the answer yes. -/
def anyOf (ask : Answers) (qs : List (List Symbol × Query)) : Option Bool := qs.anyM fun x => ask x.1 x.2

/-- Answers yes if that is evident, and else asks. -/
def evidentOr (evident : Bool) (answer : Option Bool) : Option Bool := if evident then some true else answer

private theorem anyOf_singleton (x : List Symbol × Query) : anyOf ask [x] = ask x.1 x.2 := by
  rw [anyOf, List.anyM_cons]
  cases ask x.1 x.2 with
  | none => rfl
  | some b => cases b <;> rfl

private theorem ofAny_eq (es : List Node) : ofAny ask path es = anyOf ask (askedOf path es) := by
  induction es with
  | nil => rfl
  | cons e es ih =>
    rw [ofAny, List.anyM_cons, askedOf, List.map_cons, anyOf, List.anyM_cons]
    cases ask path (.value e) with
    | none => rfl
    | some b =>
      cases b with
      | true => rfl
      | false => exact ih

private theorem ofVariable_eq (s : Symbol) : ofVariable m ask path s = anyOf ask (askedByVariable m path s) := by
  unfold ofVariable askedByVariable
  split
  · rfl
  · cases Scope.ofSymbol? m.compilation s with
    | none => rfl
    | some scope => exact ofAny_eq _

private theorem ofLocal_eq (decl : Node) : ofLocal m ask path decl = anyOf ask (askedByLocal m path decl) := by
  unfold ofLocal askedByLocal
  split
  · exact ofAny_eq _
  · exact ofVariable_eq _

private theorem ofSymbol_eq (s : Symbol) :
    ofSymbol m ask path s = evidentOr (isEvidentSymbol s) (anyOf ask (askedBySymbol m path s)) := by
  unfold ofSymbol evidentOr isEvidentSymbol askedBySymbol
  cases s with
  | parameter p => cases h : p.isOutParameter <;> simp [h, anyOf]
  | setterValue p =>
    cases h : p.is .propertyDeclaration && p.hasPrivateSetter with
    | true => simpa [h] using ofVariable_eq _
    | false => simp [h]
  | field f =>
    dsimp only
    cases (Symbol.field f).isStatic with
    | true => rfl
    | false => exact ofVariable_eq _
  | property p =>
    dsimp only
    cases (Symbol.property p).isStatic with
    | true => rfl
    | false =>
      cases !p.isAutoProperty && p.initializer?.isNone with
      | true => exact (anyOf_singleton (path, .returns p.getterBody)).symm
      | false => exact ofVariable_eq _
  | localVar decl => exact ofLocal_eq decl
  | method _ | type _ | framework _ | external => rfl

private theorem ofName_eq (e : Node) :
    ofName m ask path e = evidentOr (isEvidentName m e) (anyOf ask (askedByName m path e)) := by
  unfold ofName isEvidentName askedByName
  cases m.symbol? e with
  | none => rfl
  | some s => exact ofSymbol_eq s

private theorem ofMethod_eq (call : Node) : ofMethod m ask path call = anyOf ask (askedByMethod m path call) := by
  unfold ofMethod askedByMethod
  cases m.symbol? call with
  | none => rfl
  | some s =>
    cases s with
    | method method => exact (anyOf_singleton (path, .returns method)).symm
    | _ => rfl

private theorem ofCall_eq (call : Node) : ofCall m ask path call = anyOf ask (askedByCall m path call) := by
  unfold ofCall askedByCall
  cases call.invoked? with
  | none => rfl
  | some invoked =>
    obtain ⟨name, receiver?⟩ := invoked
    cases receiver? with
    | none => exact ofMethod_eq call
    | some receiver =>
      dsimp only
      split
      · exact (anyOf_singleton (path, .value receiver)).symm
      · split
        · rfl
        · exact ofMethod_eq call

private theorem ofBare_eq (e : Node) :
    ofBare m ask path e = evidentOr (isEvidentBare m e) (anyOf ask (askedByBare m path e)) := by
  unfold ofBare isEvidentBare askedByBare
  split
  case h_1 hk | h_2 hk =>
    simp only [hk]
    rfl
  case h_3 hk | h_4 hk | h_6 hk =>
    simp only [hk]
    exact ofAny_eq _
  case h_5 hk =>
    simp only [hk]
    split
    · exact ofAny_eq _
    · rfl
  case h_7 hk =>
    simp only [hk]
    exact ofCall_eq e
  case h_8 hk =>
    simp only [hk]
    cases e.wrapper? with
    | none => exact ofName_eq e
    | some wrapper => exact (anyOf_singleton (path, .value wrapper)).symm
  case h_9 hk | h_10 hk | h_11 hk | h_12 hk =>
    simp only [hk]
    exact ofName_eq e
  case h_13 =>
    -- no other kind is left
    split <;> first
      | contradiction
      | split <;> first
        | contradiction
        | rfl

/-- A question has the answer yes if that is evident, and else what asking others gives. -/
private theorem answer_eq (q : Query) :
    answer m ask path q = evidentOr (isEvident m q) (anyOf ask (asked m path q)) := by
  cases q with
  | value e => exact ofBare_eq _
  | returns method =>
    show ofReturns ask path method = anyOf ask (asked m path (.returns method))
    unfold ofReturns asked
    dsimp only
    split
    · rfl
    · exact ofAny_eq _

/-- A question leads to another one on the way of the walk: the answer is not evident, and the questions that are asked
before have the answer no. -/
def Asks (m : Model) : List Symbol × Query → List Symbol × Query → Prop :=
  Questions.Asks (fun x => isEvident m x.2) fun x => asked m x.1 x.2

theorem answerWithin_eq (m : Model) (depth : Nat) (path : List Symbol) (q : Query) :
    answerWithin m depth path q =
      Questions.answerWithin (fun x => isEvident m x.2) (fun x => asked m x.1 x.2) depth (path, q) := by
  induction depth generalizing path q with
  | zero => rfl
  | succ depth ih =>
    rw [answerWithin, answer_eq, Questions.answerWithin, evidentOr, anyOf]
    simp only [ih]

theorem answerWithin_of_le {depth depth' : Nat} (hle : depth ≤ depth') {q : Query} {b : Bool}
    (h : answerWithin m depth path q = some b) : answerWithin m depth' path q = some b := by
  rw [answerWithin_eq] at h ⊢
  exact Questions.answerWithin_of_le hle h

end

/-! ### Where a question leads to -/

/-- What a question leads to: the value that another one is passed on from, with the same symbols on the way; what a
method returns; or a value inside one more symbol. -/
inductive Step (c : Compilation) (path : List Symbol) : Query → List Symbol × Query → Prop
  | passes {e x : Node} (h : PassedFrom c.model e.stripConversions x) : Step c path (.value e) (path, .value x)
  | returns {e method : Node} (h : c.HasPlace method) : Step c path (.value e) (path, .returns method)
  | enters {q : Query} {s : Symbol} {x : Node} (htrail : IsTrail c (s :: path)) (h : c.HasPlace x) :
    Step c path q (s :: path, .value x)

/-- The question is about a place of the compilation. -/
def Query.IsIn (c : Compilation) : Query → Prop
  | .value e => c.HasPlace e
  | .returns method => c.HasPlace method

section

variable {c : Compilation} {path : List Symbol} (hc : c.IsRead) (hpath : IsTrail c path)

private theorem mem_askedOf_iff {es : List Node} {x : List Symbol × Query} :
    x ∈ askedOf path es ↔ ∃ e ∈ es, (path, Query.value e) = x := List.mem_map

include hc hpath

private theorem step_of_mem_askedByVariable {s : Symbol} (hs : s.isVariable = true) (hin : s.IsIn c) {q : Query}
    {x : List Symbol × Query} (hx : x ∈ askedByVariable c.model path s) : Step c path q x := by
  unfold askedByVariable at hx
  split at hx
  · cases hx
  · next hnew =>
    split at hx
    · next scope hscope =>
      obtain ⟨v, hv, rfl⟩ := mem_askedOf_iff.1 hx
      obtain ⟨w, hw, hv⟩ := List.mem_filterMap.1 hv
      obtain ⟨n, hn⟩ : ∃ n, s.node? = some n := by
        cases s <;> first | exact ⟨_, rfl⟩ | exact nomatch hs
      exact .enters (hpath.cons hn hin (by simpa using hnew)) (hasPlace_of_yields hc hin (.written hs hscope hw hv))
    · cases hx

omit hc in
private theorem step_of_mem_returns {method : Node} (hm : c.HasPlace method) {x : List Symbol × Query}
    (hx : x ∈ asked c.model path (.returns method)) : Step c path (.returns method) x := by
  rw [asked] at hx
  split at hx
  · cases hx
  · next hnew =>
    obtain ⟨v, hv, rfl⟩ := mem_askedOf_iff.1 hx
    exact .enters (hpath.cons rfl (Symbol.isIn_of_eq rfl hm) (by simpa using hnew)) (hm.of_returnedExpressions hv)

variable {e : Node} (he : c.HasPlace e.stripConversions)

include he

private theorem step_of_mem_askedByName (hn : IsName e.stripConversions) {x : List Symbol × Query}
    (hx : x ∈ askedByName c.model path e.stripConversions) : Step c path (.value e) x := by
  unfold askedByName at hx
  split at hx
  · next s hs =>
    have hin := hc.isIn_symbol? he hs
    unfold askedBySymbol at hx
    split at hx
    · exact step_of_mem_askedByVariable hc hpath rfl (Symbol.isIn_of_eq rfl (hin _ rfl)) hx
    · exact step_of_mem_askedByVariable hc hpath rfl hin hx
    · split at hx
      · rw [List.mem_singleton.1 hx]
        exact .returns (Ownership.hasPlace_getterBody (hin _ rfl))
      · exact step_of_mem_askedByVariable hc hpath rfl hin hx
    · unfold askedByLocal at hx
      split at hx
      · next hident =>
        obtain ⟨v, hv, rfl⟩ := mem_askedOf_iff.1 hx
        exact .passes (.loop hn hs hident (Option.mem_toList.1 hv))
      · exact step_of_mem_askedByVariable hc hpath rfl hin hx
    · cases hx
  · cases hx

omit hpath in
private theorem step_of_mem_askedByMethod {x : List Symbol × Query}
    (hx : x ∈ askedByMethod c.model path e.stripConversions) : Step c path (.value e) x := by
  unfold askedByMethod at hx
  split at hx
  · next method hs =>
    rw [List.mem_singleton.1 hx]
    exact .returns (hc.isIn_symbol? he hs method rfl)
  · cases hx

omit hpath in
private theorem step_of_mem_askedByCall (hk : e.stripConversions.kind? = some .invocationExpression)
    {x : List Symbol × Query} (hx : x ∈ askedByCall c.model path e.stripConversions) : Step c path (.value e) x := by
  unfold askedByCall at hx
  split at hx
  · cases hx
  · exact step_of_mem_askedByMethod hc he hx
  · next hi =>
    split at hx
    · next hname =>
      rw [List.mem_singleton.1 hx]
      exact .passes (.receiver hk hi (by simpa [HandsOn] using hname))
    · split at hx
      · cases hx
      · exact step_of_mem_askedByMethod hc he hx

private theorem step_of_mem_askedByBare {x : List Symbol × Query}
    (hx : x ∈ askedByBare c.model path e.stripConversions) : Step c path (.value e) x := by
  unfold askedByBare at hx
  split at hx
  case h_1 hk =>
    obtain ⟨v, hv, rfl⟩ := mem_askedOf_iff.1 hx
    exact .passes (.branch hk hv)
  case h_2 hk =>
    obtain ⟨v, hv, rfl⟩ := mem_askedOf_iff.1 hx
    exact .passes (.arm hk hv)
  case h_3 hk =>
    split at hx
    · next ho =>
      obtain ⟨v, hv, rfl⟩ := mem_askedOf_iff.1 hx
      exact .passes (.alternative hk (beq_iff_eq.1 ho) hv)
    · cases hx
  case h_4 hk =>
    obtain ⟨v, hv, rfl⟩ := mem_askedOf_iff.1 hx
    exact .passes (.assignment hk (Option.mem_toList.1 hv))
  case h_5 hk => exact step_of_mem_askedByCall hc he hk hx
  case h_6 hk =>
    split at hx
    · next wrapper hw =>
      rw [List.mem_singleton.1 hx]
      exact .passes (.wrapper hk hw)
    · next hw => exact step_of_mem_askedByName hc hpath he (.inr (.inr (.inr (.inr ⟨hk, hw⟩)))) hx
  case h_7 hk => exact step_of_mem_askedByName hc hpath he (.inl hk) hx
  case h_8 hk => exact step_of_mem_askedByName hc hpath he (.inr (.inl hk)) hx
  case h_9 hk => exact step_of_mem_askedByName hc hpath he (.inr (.inr (.inl hk))) hx
  case h_10 hk => exact step_of_mem_askedByName hc hpath he (.inr (.inr (.inr (.inl hk)))) hx
  case h_11 => cases hx

end

section

variable {c : Compilation} {path : List Symbol} (hc : c.IsRead) (hpath : IsTrail c path)

include hc hpath

theorem step_of_mem_asked {q : Query} (hq : q.IsIn c) {x : List Symbol × Query} (hx : x ∈ asked c.model path q) :
    Step c path q x := by
  cases q with
  | value e => exact step_of_mem_askedByBare hc hpath (Compilation.HasPlace.of_stripConversions hq) hx
  | returns method => exact step_of_mem_returns hpath hq hx

/-- The questions stay inside the compilation. -/
theorem Step.isIn {q : Query} (hq : q.IsIn c) {x : List Symbol × Query} (h : Step c path q x) :
    IsTrail c x.1 ∧ x.2.IsIn c := by
  cases h with
  | passes h => exact ⟨hpath, hasPlace_of_passedFrom hc (Compilation.HasPlace.of_stripConversions hq) h⟩
  | returns h => exact ⟨hpath, h⟩
  | enters htrail h => exact ⟨htrail, h⟩

end

/-! ### What gets smaller -/

section

variable {c : Compilation}

theorem Precedes.trans {e x y : Node} (h : Precedes e x) (h' : Precedes x y) : Precedes e y := by
  unfold Precedes at *
  omega

private theorem precedes_of_passes {e x : Node} (he : c.HasPlace e) (h : PassedFrom c.model e.stripConversions x) :
    Precedes e x ∨ RunsThroughItself c.model e.stripConversions := by
  rcases precedes_or_runsThroughItself he.of_stripConversions h with hprec | hloop
  · refine .inl (Node.follow_induction (motive := fun n => c.HasPlace n → Precedes n x)
      Node.mem_children_of_insideConversion? (fun n y hy ih hn => ?_) (fun _ => hprec) he)
    have hplace : c.HasPlace y := .child hn (Node.mem_children_of_insideConversion? n y hy)
    exact (precedes_of_insideConversion? hn hy).trans (ih hplace)
  · exact .inr hloop

/-- The symbols that can still be entered, and the place of an expression among those that its value is passed on
from. -/
def ahead (c : Compilation) : List Symbol × Query → ℕ ×ₗ ℕ ×ₗ ℕ
  | (path, .value e) => toLex (6 * c.size - path.length, toLex (e.loopDepth + 1, e.rank))
  | (path, .returns _) => toLex (6 * c.size - path.length, toLex (0, 0))

theorem ahead_lt {path : List Symbol} {q : Query} (hq : q.IsIn c) {x : List Symbol × Query} (h : Step c path q x)
    (hnot : ∀ e, q = .value e → ¬RunsThroughItself c.model e.stripConversions) : ahead c x < ahead c (path, q) := by
  cases h with
  | @passes e x h =>
    refine Prod.Lex.toLex_lt_toLex.2 (.inr ⟨rfl, Prod.Lex.toLex_lt_toLex.2 ?_⟩)
    rcases (precedes_of_passes hq h).resolve_right (hnot e rfl) with hdepth | ⟨hdepth, hrank⟩
    · exact .inl (Nat.succ_lt_succ hdepth)
    · exact .inr ⟨congrArg (· + 1) hdepth, hrank⟩
  | returns h =>
    refine Prod.Lex.toLex_lt_toLex.2 (.inr ⟨rfl, Prod.Lex.toLex_lt_toLex.2 (.inl (Nat.succ_pos _))⟩)
  | @enters _ s x htrail h =>
    have hlen := htrail.length_le
    have hless : 6 * c.size - (s :: path).length < 6 * c.size - path.length := by
      rw [List.length_cons] at hlen ⊢
      omega
    cases q <;> exact Prod.Lex.toLex_lt_toLex.2 (.inl hless)

/-- Questions that lead from one to another without end come again and again to a loop that runs through its own
variable. -/
private theorem exists_runsThroughItself (hc : c.IsRead) {chain : Nat → List Symbol × Query}
    (htrail : IsTrail c (chain 0).1) (hin : (chain 0).2.IsIn c)
    (hchain : ∀ n, chain (n + 1) ∈ asked c.model (chain n).1 (chain n).2) (n : Nat) :
    ∃ k ≥ n, ∃ e, c.HasPlace e ∧ (chain k).2 = .value e ∧ RunsThroughItself c.model e.stripConversions := by
  have hall : ∀ k, IsTrail c (chain k).1 ∧ (chain k).2.IsIn c := by
    intro k
    induction k with
    | zero => exact ⟨htrail, hin⟩
    | succ k ih => exact (step_of_mem_asked hc ih.1 ih.2 (hchain k)).isIn hc ih.1 ih.2
  by_contra hno
  obtain ⟨k, hk⟩ := WellFounded.not_rel_apply_succ (r := (· < ·)) fun k => ahead c (chain (n + k))
  refine hk (ahead_lt (hall _).2 (step_of_mem_asked hc (hall _).1 (hall _).2 (hchain (n + k))) fun e he hloop => ?_)
  have hplace : Query.IsIn c (chain (n + k)).2 := (hall (n + k)).2
  rw [he] at hplace
  exact hno ⟨n + k, Nat.le_add_right n k, e, hplace, he, hloop⟩

/-! ### How many nested questions are enough -/

private theorem isIn_of_reaches (hc : c.IsRead) {x y : List Symbol × Query} (htrail : IsTrail c x.1) (hin : x.2.IsIn c)
    (h : Relation.ReflTransGen (Asks c.model) x y) : IsTrail c y.1 ∧ y.2.IsIn c := by
  induction h with
  | refl => exact ⟨htrail, hin⟩
  | tail _ h ih => exact (step_of_mem_asked hc ih.1 ih.2 h.mem).isIn hc ih.1 ih.2

/-- The values that a walk with an end comes to with the same symbols on the way are numbered. -/
private theorem exists_number_of_acc (hc : c.IsRead) {e : Node} (he : c.HasPlace e)
    (hacc : Acc (fun y x => Asks c.model x y) ([], .value e)) (path : List Symbol) :
    ∃ number : Node → Nat, (∀ x ∈ c.places, 0 < number x ∧ number x ≤ c.places.length) ∧
      ∀ x y, x ∈ c.places → Relation.ReflTransGen (Asks c.model) ([], .value e) (path, .value x) ∧
        Asks c.model (path, .value x) (path, .value y) → number y < number x := by
  refine Search.exists_rank ?_ ?_
  · rintro x y - ⟨hreach, hasks⟩
    obtain ⟨-, hy⟩ := isIn_of_reaches (x := ([], .value e)) hc (IsTrail.nil c) he (hreach.tail hasks)
    exact Compilation.HasPlace.mem_places hy
  · intro x hx hcircle
    obtain ⟨y, hy, -⟩ := Relation.TransGen.head'_iff.1 hcircle
    have hself : Relation.TransGen (Asks c.model) (path, .value x) (path, .value x) :=
      hcircle.lift (fun x => (path, Query.value x)) fun _ _ h => h.2
    exact Questions.not_transGen_of_acc hacc hy.1 hself

/-- If the walk comes to an end, it does so within the limit. -/
theorem exists_answer_of_acc (hc : c.IsRead) {e : Node} (he : c.HasPlace e)
    (hacc : Acc (fun y x => Asks c.model x y) ([], .value e)) :
    ∃ b, answerWithin c.model c.model.limit [] (.value e) = some b := by
  have hin : ∀ {y}, Relation.ReflTransGen (Asks c.model) ([], .value e) y → IsTrail c y.1 ∧ y.2.IsIn c :=
    isIn_of_reaches hc (IsTrail.nil c) he
  choose number hrange hlt using exists_number_of_acc hc he hacc
  rw [c.length_places] at hrange
  let rank : List Symbol × Query → Nat
    | (path, .value x) => (6 * c.size - path.length) * (c.size + 1) + number path x
    | (path, .returns _) => (6 * c.size - path.length) * (c.size + 1)
  have hrank : ∀ y z, Relation.ReflTransGen (Asks c.model) ([], .value e) y → Asks c.model y z → rank z < rank y := by
    rintro ⟨path, q⟩ z hreach hasks
    obtain ⟨htrail, hq⟩ := hin hreach
    cases step_of_mem_asked hc htrail hq hasks.mem with
    | passes h => exact Nat.add_lt_add_left (hlt path _ _ (Compilation.HasPlace.mem_places hq) ⟨hreach, hasks⟩) _
    | returns h => exact Nat.lt_add_of_pos_right (hrange path _ (Compilation.HasPlace.mem_places hq)).1
    | @enters _ s x htrail h =>
      refine Nat.lt_of_lt_of_le (htrail.room_cons_lt (hrange _ x h.mem_places).2) ?_
      cases q <;> simp [rank]
  have hroom : rank ([], .value e) < c.model.limit := c.room_lt_limit (hrange [] e he.mem_places).2
  rw [answerWithin_eq]
  exact Questions.exists_answer_of_rank hrank hroom

/-- An answer that takes some nested questions is the one within the limit. -/
theorem mayBeShared_of_answerWithin (hc : c.IsRead) {e : Node} (he : c.HasPlace e) {depth : Nat} {b : Bool}
    (h : answerWithin c.model depth [] (.value e) = some b) : c.model.mayBeShared e = some b := by
  rw [answerWithin_eq] at h
  obtain ⟨b', hb⟩ := exists_answer_of_acc hc he (Questions.exists_answer_iff_acc.1 ⟨depth, b, h⟩)
  rw [Model.mayBeShared, hb]
  rw [answerWithin_eq] at hb
  rw [Questions.answer_unique h hb]

end

/-! ### Walks without end -/

/-- From a question on, each leads to another one. -/
def IsEndless (m : Model) (x : List Symbol × Query) : Prop :=
  ∃ chain : Nat → List Symbol × Query, chain 0 = x ∧ ∀ n, Asks m (chain n) (chain (n + 1))

private theorem exists_answer_iff_not_isEndless {m : Model} {path : List Symbol} {q : Query} :
    (∃ depth b, answerWithin m depth path q = some b) ↔ ¬IsEndless m (path, q) := by
  simp only [answerWithin_eq]
  exact Questions.exists_answer_iff

/-- Whether a name stands for the variable of a loop and is the collection of that loop. -/
def isOwnCollection (m : Model) (x : Node) : Bool :=
  match m.symbol? x with
  | some (.localVar decl) => x.is .identifier && decl.is .identifier && decl.loopCollection?.any (· == x)
  | _ => false

private theorem exists_loopCollection_of_isOwnCollection {m : Model} {x : Node} (h : isOwnCollection m x = true) :
    ∃ decl y, m.symbol? x = some (.localVar decl) ∧ x.is .identifier = true ∧ decl.is .identifier = true ∧
      decl.loopCollection? = some y ∧ (y == x) = true := by
  unfold isOwnCollection at h
  split at h
  · next decl hs =>
    rw [Bool.and_eq_true, Bool.and_eq_true, Option.any_eq_true] at h
    obtain ⟨⟨hx, hd⟩, y, hy, heq⟩ := h
    exact ⟨decl, y, hs, hx, hd, hy, heq⟩
  · cases h

/-- Whether a name stands for the variable of a loop that runs through it. -/
def isOfOwnLoop (m : Model) (e : Node) : Bool :=
  match m.symbol? e with
  | some (.localVar decl) => e.is .identifier && decl.is .identifier && decl.loopCollection?.any (isOwnCollection m)
  | _ => false

private theorem exists_loopCollection_of_isOfOwnLoop {m : Model} {e : Node} (h : isOfOwnLoop m e = true) :
    ∃ decl x, m.symbol? e = some (.localVar decl) ∧ e.is .identifier = true ∧ decl.is .identifier = true ∧
      decl.loopCollection? = some x ∧ isOwnCollection m x = true := by
  unfold isOfOwnLoop at h
  split at h
  · next decl hs =>
    rw [Bool.and_eq_true, Bool.and_eq_true, Option.any_eq_true] at h
    obtain ⟨⟨he, hd⟩, x, hx, hown⟩ := h
    exact ⟨decl, x, hs, he, hd, hx, hown⟩
  · cases h

/-- The name of a loop variable leads to the collection. -/
private theorem asks_loopCollection {m : Model} {e decl x : Node} (he : e.is .identifier = true)
    (hs : m.symbol? e = some (.localVar decl)) (hd : decl.is .identifier = true)
    (hcollection : decl.loopCollection? = some x) (path : List Symbol) : Asks m (path, .value e) (path, .value x) := by
  have hk := Node.is_iff.1 he
  have hbare : e.stripConversions = e :=
    Node.stripConversions_of_insideConversion?_eq_none (by rw [Node.insideConversion?, hk])
  have hevident : isEvident m (.value e) = false := by
    simp only [isEvident, hbare, isEvidentBare, hk, isEvidentName, hs]
    rfl
  have hasked : asked m path (.value e) = [] ++ (path, .value x) :: [] := by
    simp only [asked, hbare, askedByBare, hk, askedByName, hs, askedBySymbol, askedByLocal, hd, hcollection]
    rfl
  exact .intro hevident hasked (by simp)

private theorem IsEndless.of_asks {m : Model} {x y : List Symbol × Query} (h : Asks m x y) (hy : IsEndless m y) :
    IsEndless m x := by
  obtain ⟨chain, rfl, hchain⟩ := hy
  refine ⟨fun n => n.casesOn x chain, rfl, fun n => ?_⟩
  cases n with
  | zero => exact h
  | succ n => exact hchain n

/-- A collection that is the variable of its loop leads to itself. -/
private theorem isEndless_of_isOwnCollection {c : Compilation} (hc : c.IsRead) {x : Node} (hx : c.HasPlace x)
    (h : isOwnCollection c.model x = true) (path : List Symbol) : IsEndless c.model (path, .value x) := by
  obtain ⟨decl, y, hs, hident, hd, hy, heq⟩ := exists_loopCollection_of_isOwnCollection h
  obtain rfl : y = x := by
    have hyplace : c.HasPlace y := hasPlace_of_passedFrom hc hx (.loop (.inl (Node.is_iff.1 hident)) hs hd hy)
    exact hyplace.eq_of_id hx (Node.beq_iff.1 heq)
  exact ⟨fun _ => (path, .value y), rfl, fun _ => asks_loopCollection hident hs hd hy path⟩

theorem isEndless_of_isOfOwnLoop {c : Compilation} (hc : c.IsRead) {e : Node} (he : c.HasPlace e)
    (h : isOfOwnLoop c.model e = true) (path : List Symbol) : IsEndless c.model (path, .value e) := by
  obtain ⟨decl, x, hs, hident, hd, hx, hown⟩ := exists_loopCollection_of_isOfOwnLoop h
  have hplace : c.HasPlace x := hasPlace_of_passedFrom hc he (.loop (.inl (Node.is_iff.1 hident)) hs hd hx)
  exact .of_asks (asks_loopCollection hident hs hd hx path) (isEndless_of_isOwnCollection hc hplace hown path)

theorem mayBeShared_eq_none {m : Model} {e : Node} (h : IsEndless m ([], .value e)) : m.mayBeShared e = none := by
  by_contra hne
  obtain ⟨b, hb⟩ := Option.ne_none_iff_exists'.1 hne
  exact exists_answer_iff_not_isEndless.1 ⟨m.limit, b, hb⟩ h

namespace Sample

open Sketch

/-- `class C{void M(Stream p){foreach(Stream s in s){s.Dispose();}foreach(Stream t in F(p)){t.Dispose();}}
Stream F(Stream q){return F(q);}}` -/
def circle : Document :=
  document "C.cs"
    [classOf "C"
      [method [] void "M" [parameterOf "Stream" "p"]
        [loop "Stream" "s" (name "s") [statement (call (access (name "s") "Dispose") [])],
         loop "Stream" "t" (call (name "F") [name "p"]) [statement (call (access (name "t") "Dispose") [])]],
       method [] (name "Stream") "F" [parameterOf "Stream" "q"] [returning (call (name "F") [name "q"])]]]

end Sample

end Sharing

open Sharing in
/-- The walk from an expression has an answer, within the limit, unless questions lead from one to another without end;
and these come again and again to a loop that runs through its own variable. So there is always an answer where no
collection mentions the variable of its loop. -/
theorem Model.mayBeShared_ends (documents : List Document) {e : Node}
    (he : (Compilation.ofDocuments documents).HasPlace e) :
    let c := Compilation.ofDocuments documents
    let m := c.model
    (IsEndless m ([], .value e) ↔ ∀ depth, answerWithin m depth [] (.value e) = none) ∧
    (¬IsEndless m ([], .value e) → ∃ b, ∀ depth, m.limit ≤ depth → answerWithin m depth [] (.value e) = some b) ∧
    (∀ chain : Nat → List Symbol × Query, chain 0 = ([], .value e) → (∀ n, Asks m (chain n) (chain (n + 1))) →
      ∀ n, ∃ k ≥ n, ∃ x, (chain k).2 = .value x ∧ RunsThroughItself m x.stripConversions) ∧
    (LoopsAreSimple c → ¬IsEndless m ([], .value e)) := by
  intro c m
  have hc : c.IsRead := Compilation.isRead_ofDocuments documents
  have hcomes : ∀ chain : Nat → List Symbol × Query, chain 0 = ([], .value e) →
      (∀ n, Asks m (chain n) (chain (n + 1))) →
      ∀ n, ∃ k ≥ n, ∃ x, c.HasPlace x ∧ (chain k).2 = .value x ∧ RunsThroughItself m x.stripConversions := by
    intro chain hstart hasks
    refine exists_runsThroughItself hc ?_ ?_ fun n => (hasks n).mem
    · rw [hstart]
      exact IsTrail.nil c
    · rw [hstart]
      exact he
  refine ⟨?_, ?_, ?_, ?_⟩
  · rw [← not_iff_not, ← exists_answer_iff_not_isEndless]
    simp only [not_forall, ← ne_eq, Option.ne_none_iff_exists']
  · intro hends
    have hacc := Questions.exists_answer_iff_acc.1 (Questions.exists_answer_iff.2 hends)
    obtain ⟨b, hb⟩ := exists_answer_of_acc hc he hacc
    exact ⟨b, fun depth hdepth => answerWithin_of_le hdepth hb⟩
  · intro chain hstart hasks n
    obtain ⟨k, hk, x, -, hx, hloop⟩ := hcomes chain hstart hasks n
    exact ⟨k, hk, x, hx, hloop⟩
  · rintro hloops ⟨chain, hstart, hasks⟩
    obtain ⟨k, -, x, hplace, -, hloop⟩ := hcomes chain hstart hasks 0
    exact not_runsThroughItself hloops hplace.of_stripConversions hloop

open Sharing in
/-- The walk from a loop variable comes to an end in a program in which another one does not. -/
theorem Model.mayBeShared_ends_besides :
    let c := Compilation.ofDocuments [Sample.circle]
    ∃ e, c.HasPlace e ∧ e.text = "t" ∧
      ∃ b, ∀ depth, c.model.limit ≤ depth → answerWithin c.model depth [] (.value e) = some b := by
  intro c
  have hany : (c.places.any fun e => e.text == "t" &&
      (answerWithin c.model c.model.limit [] (.value e)).isSome) = true := by decide +kernel
  obtain ⟨e, hplace, h⟩ := List.any_eq_true.1 hany
  rw [Bool.and_eq_true, beq_iff_eq, Option.isSome_iff_exists] at h
  obtain ⟨htext, b, hb⟩ := h
  have hplace : c.HasPlace e := Compilation.mem_places_iff.1 hplace
  have hends := Model.mayBeShared_ends [Sample.circle] hplace
  refine ⟨e, hplace, htext, hends.2.1 fun hendless => ?_⟩
  rw [hends.1.1 hendless] at hb
  cases hb

open Sharing in
/-- Where a loop runs through its own variable, the walk from the collection has no end. -/
theorem Model.mayBeShared_isEndless :
    let c := Compilation.ofDocuments [Sample.circle]
    ∃ e, c.HasPlace e ∧ e.text = "s" ∧ IsEndless c.model ([], .value e) ∧
      ∀ depth, answerWithin c.model depth [] (.value e) = none := by
  intro c
  have hany : (c.places.any fun x => x.text == "s" && isOwnCollection c.model x) = true := by decide +kernel
  obtain ⟨x, hplace, h⟩ := List.any_eq_true.1 hany
  have hplace : c.HasPlace x := Compilation.mem_places_iff.1 hplace
  rw [Bool.and_eq_true, beq_iff_eq] at h
  obtain ⟨htext, h⟩ := h
  have hendless := isEndless_of_isOwnCollection (Compilation.isRead_ofDocuments _) hplace h []
  refine ⟨x, hplace, htext, hendless, fun depth => ?_⟩
  by_contra hne
  obtain ⟨b, hb⟩ := Option.ne_none_iff_exists'.1 hne
  exact exists_answer_iff_not_isEndless.1 ⟨depth, b, hb⟩ hendless

end Disposal
