import Disposal.Proofs.Circles

/-!
# Owners and shared values

Two walks look at where a value comes from: `Ownership.answer` looks for its owner, `Sharing.answer` for evidence that
it is shared. Where the first finds nobody else who owns the value, the second comes to an end without evidence, as long
as both look at the same values. The walks differ in what they look at in a few places, which `Query.isPlain` excludes.

* `Node.stripConversions_stripParens`, `Ownership.notShared_of_conversion`: conversions do not matter for sharing;
* `Ownership.notShared_of_answer`: one question;
* `Ownership.notShared_of_answerWithin`: the whole walk.
-/

namespace Disposal

namespace Node

/-! ### Conversions -/

private theorem insideConversion?_of_insideParens? {n c : Node} (h : n.insideParens? = some c) :
    n.insideConversion? = some c := by
  unfold insideParens? at h
  split at h
  · next hk =>
    unfold insideConversion?
    rw [is_iff.1 hk]
    exact h
  · cases h

/-- Parentheses are conversions. -/
theorem stripConversions_stripParens (n : Node) : n.stripParens.stripConversions = n.stripConversions := by
  rw [stripParens_eq]
  cases hn : n.insideParens? with
  | none => rfl
  | some c =>
    have := sizeOf_of_mem_children (mem_children_of_insideParens? n c hn)
    rw [n.stripConversions_eq, insideConversion?_of_insideParens? hn]
    exact stripConversions_stripParens c
termination_by sizeOf n.here

private theorem mem_ends_of_mem_named {n x : Node} (hlen : n.named.length ≤ 2) (hx : x ∈ n.named) :
    x ∈ n.firstNamed?.toList ++ n.lastNamed?.toList := by
  unfold firstNamed? lastNamed?
  match hn : n.named with
  | [] => rw [hn] at hx; cases hx
  | [a] => simpa [hn] using hx
  | [a, b] => simpa [hn] using hx
  | _ :: _ :: _ :: _ => rw [hn] at hlen; simp at hlen

end Node

namespace Ownership

/-! ### Where both look at the same values -/

/-- Whether all values written to a local may be written before it is used. -/
def isPlainLocal (m : Model) (decl use : Node) : Bool :=
  decl.region?.all fun region => (m.writes (.localVar decl) (.node region)).all fun w =>
    w.value?.isNone || (Order.executedBefore w.node use).isPossible

/-- Whether both walks look at the same values behind a name; a computed property has no other value. -/
def isPlainName (m : Model) (e use : Node) : Bool :=
  match m.symbol? e with
  | some (.localVar decl) => isPlainLocal m decl use
  | some (.property p) => p.isStored || p.initializer?.isNone
  | _ => true

/-- Whether a call calls a method of the compilation. -/
def callsMethod (m : Model) (call : Node) : Bool :=
  match m.symbol? call with
  | some (.method _) => true
  | _ => false

/-- Whether a call that is taken to build a tuple does not call a method of the compilation. -/
def isPlainCall (m : Model) (call : Node) : Bool :=
  match call.invoked? with
  | some (name, some receiver) =>
    !buildsTuple receiver name.text || (m.frameworkCall? call).isSome || !callsMethod m call
  | _ => true

/-- Whether both walks look at the same parts of an expression without parentheses. -/
def isPlainExpression (m : Model) (e use : Node) : Bool :=
  match e.kind? with
  | some .elementBindingExpression => false
  | some .binaryExpression => e.binaryOperator? != some "??" || e.named.length ≤ 2
  | some .invocationExpression => isPlainCall m e
  | some .memberAccessExpression
  | some .identifier | some .genericName | some .memberBindingExpression | some .conditionalAccessExpression =>
    isPlainName m e use
  | _ => true

/-- Whether both walks look at the same values to answer a question. -/
def Query.isPlain (m : Model) : Query → Bool
  | .value expr use => isPlainExpression m expr.stripParens use
  | .returns _ => true

/-- The same question about sharing. -/
def Query.sharing : Query → Sharing.Query
  | .value expr _ => .value expr
  | .returns method => .returns method

/-- A question and all that it leads to are plain. -/
inductive IsPlainWalk (m : Model) : List Symbol → Query → Prop
  | intro {path : List Symbol} {q : Query} (here : q.isPlain m = true)
    (below : ∀ x ∈ asked m path q, IsPlainWalk m x.1 x.2) : IsPlainWalk m path q

/-! ### Verdicts without another owner -/

/-- Nobody else was found who owns the value. -/
def Unclaimed (v : Verdict) : Prop := v = none ∨ v = some .created

private theorem not_unclaimed_some {o : Ownership} (h : o ≠ .created) : ¬Unclaimed (some o) := by
  rintro (hv | hv)
  · cases hv
  · exact h (Option.some.inj hv)

private theorem unclaimed_of_map_converted {v : Verdict} (h : Unclaimed (v.map converted)) : Unclaimed v := by
  cases v with
  | none => exact .inl rfl
  | some o =>
    cases o with
    | created => exact .inr rfl
    | _ => exact absurd h (not_unclaimed_some (by decide))

private theorem eq_created_of_combine {values : List Ownership} (h : Unclaimed (combine values)) {o : Ownership}
    (ho : o ∈ values) : o = .created := by
  unfold combine at h
  split at h
  · exact absurd h (not_unclaimed_some (by decide))
  · next hc =>
    split at h
    · exact absurd h (not_unclaimed_some (by decide))
    · next hi =>
      split at h
      · exact absurd h (not_unclaimed_some (by decide))
      · next hb =>
        cases o with
        | created => rfl
        | cached => exact absurd (List.contains_iff_mem.2 ho) hc
        | injected => exact absurd (List.contains_iff_mem.2 ho) hi
        | borrowed => exact absurd (List.contains_iff_mem.2 ho) hb

/-- Several values have no other owner together only if none of them has. -/
private theorem unclaimed_of_together {vs : List Verdict} (h : Unclaimed (together vs)) {v : Verdict} (hv : v ∈ vs) :
    Unclaimed v := by
  cases v with
  | none => exact .inl rfl
  | some o => exact .inr (congrArg some (eq_created_of_combine h (List.mem_filterMap.2 ⟨some o, hv, rfl⟩)))

theorem exists_of_mapM_eq_some {α β : Type} {l : List α} {f : α → Option β} {ys : List β} (h : l.mapM f = some ys)
    {x : α} (hx : x ∈ l) : ∃ y ∈ ys, f x = some y := by
  induction l generalizing ys with
  | nil => cases hx
  | cons a l ih =>
    rw [List.mapM_cons] at h
    obtain ⟨b, hb, h⟩ := Option.bind_eq_some_iff.1 h
    obtain ⟨bs, hbs, h⟩ := Option.bind_eq_some_iff.1 h
    cases h
    rcases List.mem_cons.1 hx with rfl | hx
    · exact ⟨b, List.mem_cons_self, hb⟩
    · obtain ⟨y, hy, hf⟩ := ih hbs hx
      exact ⟨y, List.mem_cons_of_mem b hy, hf⟩

/-- If the verdict on several values together leaves no other owner, so does the verdict on each. -/
private theorem exists_unclaimed_of_mapM {α : Type} {l : List α} {f : α → Option Verdict} {v : Verdict}
    (h : (l.mapM f).map together = some v) (hv : Unclaimed v) {x : α} (hx : x ∈ l) :
    ∃ u, f x = some u ∧ Unclaimed u := by
  obtain ⟨vs, hvs, rfl⟩ := Option.map_eq_some_iff.1 h
  obtain ⟨u, hu, hf⟩ := exists_of_mapM_eq_some hvs hx
  exact ⟨u, hf, unclaimed_of_together hv hu⟩

/-! ### Values without evidence -/

section

variable {m : Model}

/-- A walk that is deep enough comes to an end and finds no evidence that the value is shared. -/
def NotShared (m : Model) (path : List Symbol) (q : Sharing.Query) : Prop :=
  ∃ depth, Sharing.answerWithin m depth path q = some false

/-- All symbols on one way are on the other. -/
def Covers (path path' : List Symbol) : Prop := ∀ s, path.contains s = true → path'.contains s = true

theorem Covers.cons {path path' : List Symbol} (h : Covers path path') (s : Symbol) :
    Covers (s :: path) (s :: path') := by
  intro t ht
  rw [List.contains_cons, Bool.or_eq_true] at ht ⊢
  exact ht.imp_right (h t)

private theorem Covers.contains_eq_false {path path' : List Symbol} (h : Covers path path') {s : Symbol}
    (hs : path'.contains s = false) : path.contains s = false := by
  cases hc : path.contains s with
  | true => rw [h s hc] at hs; cases hs
  | false => rfl

/-- Questions about values without another owner find no evidence of sharing. -/
def Carries (m : Model) (ask : Answers) (qs : List (List Symbol × Query)) : Prop :=
  ∀ x ∈ qs, ∀ v, ask x.1 x.2 = some v → Unclaimed v → ∀ path', Covers x.1 path' → NotShared m path' x.2.sharing

private theorem notShared_value {path : List Symbol} {expr : Node}
    (h : ∃ depth, Sharing.ofExpression m (Sharing.answerWithin m depth) path expr = some false) :
    NotShared m path (.value expr) := by
  obtain ⟨depth, h⟩ := h
  exact ⟨depth + 1, h⟩

private theorem notShared_returns {path : List Symbol} {method : Node}
    (h : ∃ depth, Sharing.ofReturns (Sharing.answerWithin m depth) path method = some false) :
    NotShared m path (.returns method) := by
  obtain ⟨depth, h⟩ := h
  exact ⟨depth + 1, h⟩

/-- What a value is converted to does not matter. -/
theorem NotShared.of_stripConversions {path : List Symbol} {expr expr' : Node} (h : NotShared m path (.value expr))
    (he : expr'.stripConversions = expr.stripConversions) : NotShared m path (.value expr') := by
  obtain ⟨depth, h⟩ := h
  cases depth with
  | zero => cases h
  | succ depth =>
    refine notShared_value ⟨depth, ?_⟩
    rw [Sharing.ofExpression, he]
    exact h

theorem notShared_of_bare {path : List Symbol} {e : Node} (hi : e.insideConversion? = none)
    (h : ∃ depth, Sharing.ofBare m (Sharing.answerWithin m depth) path e = some false) :
    NotShared m path (.value e) := by
  obtain ⟨depth, h⟩ := h
  refine notShared_value ⟨depth, ?_⟩
  rwa [Sharing.ofExpression, Node.stripConversions_of_insideConversion?_eq_none hi]

/-- The walks from several values have an end at one depth. -/
theorem NotShared.ofAny {path : List Symbol} {es : List Node} (h : ∀ e ∈ es, NotShared m path (.value e)) :
    ∃ depth, Sharing.ofAny (Sharing.answerWithin m depth) path es = some false := by
  unfold Sharing.ofAny
  induction es with
  | nil => exact ⟨0, rfl⟩
  | cons e es ih =>
    obtain ⟨depth, he⟩ := h e List.mem_cons_self
    obtain ⟨depth', hes⟩ := ih fun x hx => h x (List.mem_cons_of_mem e hx)
    refine ⟨max depth depth', ?_⟩
    rw [List.anyM_cons, Sharing.answerWithin_of_le (Nat.le_max_left depth depth') he]
    exact Questions.anyM_of_anyM
      (fun _ _ _ hanswer => Sharing.answerWithin_of_le (Nat.le_max_right depth depth') hanswer) hes

/-- The expressions that can be evidence that a value is shared, or lead to it. -/
def tellingKinds : List Kind :=
  [.elementAccessExpression, .elementBindingExpression, .conditionalExpression, .switchExpression, .binaryExpression,
   .assignmentExpression, .invocationExpression, .memberAccessExpression, .identifier, .genericName,
   .memberBindingExpression, .conditionalAccessExpression]

private theorem ofBare_of_kind {ask : Sharing.Answers} {path : List Symbol} {e : Node}
    (hk : e.isAny tellingKinds = false) : Sharing.ofBare m ask path e = some false := by
  unfold Sharing.ofBare
  split
  case h_13 => rfl
  all_goals
    next hkind =>
    rw [Node.isAny_eq_of_kind? hkind] at hk
    exact absurd hk (by decide)

private theorem NotShared.of_operand {path : List Symbol} {e part : Node} (h : NotShared m path (.value part))
    (hi : e.insideConversion? = some part) : NotShared m path (.value e) := by
  refine h.of_stripConversions ?_
  rw [e.stripConversions_eq, hi]

/-- A conversion is shared only if its operand is. -/
private theorem notShared_of_not_telling {path : List Symbol} {e : Node} (hi : e.insideConversion? = none)
    (hk : e.isAny tellingKinds = false) : NotShared m path (.value e) :=
  notShared_of_bare hi ⟨0, ofBare_of_kind hk⟩

theorem notShared_of_conversion {path : List Symbol} {e : Node} {part? : Option Node}
    (hi : e.insideConversion? = part?) (hk : e.isAny tellingKinds = false)
    (hparts : ∀ part ∈ part?.toList, NotShared m path (.value part)) : NotShared m path (.value e) := by
  cases part? with
  | none => exact notShared_of_not_telling hi hk
  | some part => exact (hparts part (by simp)).of_operand hi

private theorem ofMethod_of_callsMethod {ask : Sharing.Answers} {path : List Symbol} {call : Node}
    (h : callsMethod m call = false) : Sharing.ofMethod m ask path call = some false := by
  unfold callsMethod at h
  unfold Sharing.ofMethod
  split
  · next method hs =>
    rw [hs] at h
    cases h
  · rfl

/-! ### One question -/

variable {ask : Answers} {path path' : List Symbol} {v : Verdict} (hv : Unclaimed v) (hcovers : Covers path path')

include hv hcovers

private theorem notShared_of_ofPart {part? : Option Node} {use : Node}
    (h : Carries m ask (askedOf path part?.toList use)) (ha : ofPart ask path part? use = some v) :
    ∀ part ∈ part?.toList, NotShared m path' (.value part) := by
  intro part hpart
  rw [Option.mem_toList] at hpart
  subst hpart
  exact h (path, .value part use) (by simp [askedOf]) v ha hv path' hcovers

private theorem notShared_of_ofConversion {part? : Option Node} {use : Node}
    (h : Carries m ask (askedOf path part?.toList use)) (ha : ofConversion ask path part? use = some v) :
    ∀ part ∈ part?.toList, NotShared m path' (.value part) := by
  obtain ⟨u, hu, rfl⟩ := Option.map_eq_some_iff.1 ha
  exact notShared_of_ofPart (unclaimed_of_map_converted hv) hcovers h hu

private theorem notShared_of_ofAny {parts : List Node} {use : Node} (h : Carries m ask (askedOf path parts use))
    (ha : ofAny ask path parts use = some v) : ∀ part ∈ parts, NotShared m path' (.value part) := by
  intro part hpart
  obtain ⟨u, hu, hclaim⟩ := exists_unclaimed_of_mapM ha hv hpart
  exact h (path, .value part use) (List.mem_map_of_mem hpart) u hu hclaim path' hcovers

private theorem notShared_of_ofReturns {method : Node} (h : Carries m ask (asked m path (.returns method)))
    (ha : ofReturns m ask path method = some v) : NotShared m path' (.returns method) := by
  refine notShared_returns ?_
  unfold Sharing.ofReturns
  cases hc' : path'.contains (.method method) with
  | true => exact ⟨0, rfl⟩
  | false =>
    have hc : path.contains (.method method) = false := hcovers.contains_eq_false hc'
    rw [asked, hc] at h
    simp only [ofReturns, hc, Bool.false_eq_true, if_false] at ha h ⊢
    refine NotShared.ofAny ?_
    intro e he
    split at ha
    · cases ha
      exact absurd hv (not_unclaimed_some (by decide))
    · obtain ⟨u, hu, hclaim⟩ := exists_unclaimed_of_mapM ha hv he
      cases hm : returnsMember m e with
      | true =>
        rw [hm] at hu
        cases hu
        exact absurd hclaim (not_unclaimed_some (by decide))
      | false =>
        simp only [hm, Bool.false_eq_true, if_false] at hu
        refine h (.method method :: path, .value e e) (List.mem_map.2 ⟨e, ?_, rfl⟩) u hu hclaim _ (hcovers.cons _)
        exact List.mem_filter.2 ⟨he, by rw [hm]; rfl⟩

private theorem notShared_of_ofLocal {decl use : Node} (hplain : isPlainLocal m decl use = true)
    (h : Carries m ask (askedByLocal m path decl use)) (ha : ofLocal m ask path decl use = some v) :
    ∃ depth, Sharing.ofLocal m (Sharing.answerWithin m depth) path' decl = some false := by
  unfold ofLocal at ha
  unfold askedByLocal at h
  unfold isPlainLocal at hplain
  unfold Sharing.ofLocal
  split at ha
  · cases ha
    exact absurd hv (not_unclaimed_some (by decide))
  · next hi =>
    rw [if_neg hi] at h
    simp only [if_neg hi]
    unfold Sharing.ofVariable
    cases hr : decl.region? with
    | none =>
      simp only [Scope.ofSymbol?, hr, Option.map_none]
      exact ⟨0, ite_self _⟩
    | some region =>
      simp only [Scope.ofSymbol?, hr, Option.map_some] at ha h ⊢
      cases hc' : path'.contains (.localVar decl) with
      | true => exact ⟨0, rfl⟩
      | false =>
        have hc : path.contains (.localVar decl) = false := hcovers.contains_eq_false hc'
        split at ha
        · cases ha
          exact absurd hv (not_unclaimed_some (by decide))
        · next hl =>
          simp only [hl, hc, Bool.or_false, Bool.false_eq_true, if_false] at ha h ⊢
          refine NotShared.ofAny ?_
          intro value hvalue
          obtain ⟨w, hw, hwv⟩ := List.mem_filterMap.1 hvalue
          -- every write with a value is among those that the first walk looks at
          have hbefore : (Order.executedBefore w.node use).isPossible = true := by
            rw [hr, Option.all_some, List.all_eq_true] at hplain
            simpa [hwv] using hplain w hw
          have hmem : w ∈ (m.writes (.localVar decl) (.node region)).filter fun w =>
              (Order.executedBefore w.node use).isPossible := List.mem_filter.2 ⟨hw, hbefore⟩
          obtain ⟨u, hu, hclaim⟩ := exists_unclaimed_of_mapM ha hv hmem
          rw [hwv] at hu
          refine h (.localVar decl :: path, .value value w.node) (List.mem_filterMap.2 ⟨w, hmem, ?_⟩) u hu hclaim _
            (hcovers.cons _)
          rw [hwv]
          rfl

private theorem notShared_of_ofGetter {p : Node} (h : Carries m ask [(path, .returns p.getterBody)])
    (ha : ofGetter ask path p = some v) : NotShared m path' (.returns p.getterBody) := by
  obtain ⟨u, hu, rfl⟩ := Option.map_eq_some_iff.1 ha
  have hclaim : Unclaimed u := by
    cases u with
    | none => exact .inl rfl
    | some o =>
      cases o with
      | created => exact .inr rfl
      | _ => exact absurd hv (not_unclaimed_some (by decide))
  exact h (path, .returns p.getterBody) (List.mem_singleton_self _) u hu hclaim path' hcovers

private theorem notShared_of_ofSymbol {e use : Node} (hplain : isPlainName m e use = true)
    (h : Carries m ask (askedByName m path e use)) (ha : ofSymbol m ask path e use = some v) :
    ∃ depth, Sharing.ofName m (Sharing.answerWithin m depth) path' e = some false := by
  unfold ofSymbol at ha
  unfold askedByName at h
  unfold isPlainName at hplain
  unfold Sharing.ofName
  cases hs : m.symbol? e with
  | none => exact ⟨0, rfl⟩
  | some s =>
    rw [hs] at ha h hplain
    cases s with
    | localVar decl => exact notShared_of_ofLocal hv hcovers hplain h ha
    | property p =>
      dsimp only at ha h hplain
      split at ha
      · cases ha
        exact absurd hv (not_unclaimed_some (by decide))
      · next hst =>
        split at ha
        · cases ha
          exact absurd hv (not_unclaimed_some (by decide))
        · next hstored =>
          rw [Bool.not_eq_true] at hst hstored
          rw [hstored, Bool.false_or] at hplain
          rw [hst, hstored] at h
          have hauto : p.isAutoProperty = false := by
            unfold Node.isStored at hstored
            exact (Bool.or_eq_false_iff.1 hstored).1
          obtain ⟨depth, hreturns⟩ := notShared_of_ofGetter hv hcovers h ha
          exact ⟨depth, by simpa [Sharing.ofSymbol, hst, hauto, hplain] using hreturns⟩
    | field d =>
      cases ha
      refine absurd hv (not_unclaimed_some ?_)
      split <;> decide
    | _ =>
      cases ha
      exact absurd hv (not_unclaimed_some (by decide))

private theorem notShared_of_ofMethod {call : Node} (h : Carries m ask (askedByMethod m path call))
    (ha : ofMethod m ask path call = some v) :
    ∃ depth, Sharing.ofMethod m (Sharing.answerWithin m depth) path' call = some false := by
  unfold askedByMethod at h
  unfold ofMethod at ha
  split at ha
  · next method hs =>
    rw [hs] at h
    obtain ⟨depth, hreturns⟩ := h (path, .returns method) (List.mem_singleton_self _) v ha hv path' hcovers
    refine ⟨depth, ?_⟩
    rw [Sharing.ofMethod, hs]
    exact hreturns
  · cases ha
    exact absurd hv (not_unclaimed_some (by decide))

private theorem notShared_of_ofCall {call use : Node} (hplain : isPlainCall m call = true)
    (h : Carries m ask (askedByCall m path call use)) (ha : ofCall m ask path call use = some v) :
    ∃ depth, Sharing.ofCall m (Sharing.answerWithin m depth) path' call = some false := by
  unfold ofCall at ha
  unfold askedByCall at h
  unfold isPlainCall at hplain
  unfold Sharing.ofCall
  cases hi : call.invoked? with
  | none => exact ⟨0, rfl⟩
  | some invoked =>
    obtain ⟨name, receiver?⟩ := invoked
    rw [hi] at ha h hplain
    cases receiver? with
    | none => exact notShared_of_ofMethod hv hcovers h ha
    | some receiver =>
      dsimp only [Option.bind_some] at ha h hplain ⊢
      unfold ofReceiver at ha
      cases hn : name.text == "ConfigureAwait" with
      | true =>
        rw [if_pos hn] at ha h
        simp only [Bool.true_or, if_true]
        exact h (path, .value receiver use) (List.mem_singleton_self _) v ha hv path' hcovers
      | false =>
        rw [hn, if_neg Bool.false_ne_true] at ha h
        simp only [Bool.false_or]
        cases hp : Framework.isElementProjection name.text with
        | true =>
          rw [hp, if_pos rfl] at ha
          cases ha
          exact absurd hv (not_unclaimed_some (by decide))
        | false =>
          rw [hp, if_neg Bool.false_ne_true] at ha h
          simp only [Bool.false_eq_true, if_false]
          cases hf : m.frameworkCall? call with
          | some known => exact ⟨0, rfl⟩
          | none =>
            simp only [Option.isSome_none, Bool.false_eq_true, if_false]
            cases ht : buildsTuple receiver name.text with
            | true =>
              rw [ht, hf] at hplain
              exact ⟨0, ofMethod_of_callsMethod (by simpa using hplain)⟩
            | false =>
              rw [ht, hf] at h
              rw [buildsTuple] at ht
              rw [ht, hf] at ha
              exact notShared_of_ofMethod hv hcovers h ha

end

/-! ### Expressions -/

section

variable {c : Compilation} {ask : Answers} {path path' : List Symbol} {v : Verdict}

private theorem symbol?_eq_none_of_access {access : Node} (hk : access.kind? = some .memberAccessExpression)
    (h : access.memberReceiver? = none ∨ access.memberName? = none) : c.model.symbol? access = none := by
  have hstrip : access.stripParens = access := Node.stripParens_of_kind? hk (by decide)
  show Resolver.symbolStep c _ access = none
  unfold Resolver.symbolStep
  dsimp only
  rw [hstrip, hk]
  dsimp only
  rcases h with h | h
  · rw [h]
    rfl
  · cases access.memberReceiver? with
    | none => rfl
    | some receiver =>
      rw [h]
      rfl

/-- What stands for the object itself is never taken for a fresh value. -/
def MindsSelf (ask : Answers) : Prop :=
  ∀ path r use, r.isAny [.thisExpression, .baseExpression] = true → ask path (.value r use) ≠ some (some .created)

private theorem mindsSelf_answerWithin (m : Model) (depth : Nat) : MindsSelf (answerWithin m depth) := by
  intro path r use hr
  cases depth with
  | zero => exact nofun
  | succ depth =>
    obtain ⟨k, hmem, hk⟩ := Node.isAny_iff.1 hr
    have hkinds : k = .thisExpression ∨ k = .baseExpression := by simpa using hmem
    show ofExpression m _ path r use ≠ some (some .created)
    unfold ofExpression
    rw [Node.stripParens_of_kind? hk (by rcases hkinds with rfl | rfl <;> decide)]
    dsimp only
    rcases hkinds with rfl | rfl <;> rw [hk] <;> exact nofun

private theorem ofName_of_symbol?_eq_none {m : Model} {ask : Sharing.Answers} {e : Node} (h : m.symbol? e = none) :
    Sharing.ofName m ask path e = some false := by
  rw [Sharing.ofName, h]

variable (hv : Unclaimed v) (hcovers : Covers path path')

include hv hcovers

private theorem notShared_of_ofAccess {access use : Node} (hk : access.kind? = some .memberAccessExpression)
    (hself : MindsSelf ask) (hplain : isPlainName c.model access use = true)
    (h : Carries c.model ask
      ((if access.isUnwrapping then askedOf path access.memberReceiver?.toList use else []) ++
        askedByName c.model path access use))
    (ha : ofAccess c.model ask path access use = some v) :
    ∃ depth, (match access.wrapper? with
      | some wrapper => Sharing.answerWithin c.model depth path' (.value wrapper)
      | none => Sharing.ofName c.model (Sharing.answerWithin c.model depth) path' access) = some false := by
  have hname : ofSymbol c.model ask path access use = some v →
      ∃ depth, Sharing.ofName c.model (Sharing.answerWithin c.model depth) path' access = some false := fun ha =>
    notShared_of_ofSymbol hv hcovers hplain (fun x hx => h x (List.mem_append_right _ hx)) ha
  unfold ofAccess at ha
  unfold Node.wrapper?
  split at ha
  · next hn =>
    have hn := Option.isNone_iff_eq_none.1 hn
    rw [Node.isUnwrapping, hn, Option.any_none, if_neg Bool.false_ne_true]
    exact ⟨0, ofName_of_symbol?_eq_none (symbol?_eq_none_of_access hk (.inr hn))⟩
  · cases hu : access.isUnwrapping with
    | false =>
      rw [hu, if_neg Bool.false_ne_true] at ha
      exact hname ha
    | true =>
      rw [hu, if_pos rfl] at ha h
      rw [if_pos rfl]
      cases hr : access.memberReceiver? with
      | none =>
        rw [Option.filter_none]
        exact ⟨0, ofName_of_symbol?_eq_none (symbol?_eq_none_of_access hk (.inl hr))⟩
      | some r =>
        rw [hr] at ha h
        dsimp only at ha
        have hreceiver : ∀ u, ask path (.value r use) = some u → Unclaimed u → NotShared c.model path' (.value r) :=
          fun u hu hclaim =>
            h (path, .value r use) (List.mem_append_left _ (by simp [askedOf])) u hu hclaim path' hcovers
        cases hself' : r.isAny [.thisExpression, .baseExpression] with
        | true =>
          rw [Option.filter_some, hself', Bool.not_true, if_neg Bool.false_ne_true]
          split at ha
          · cases ha
          · next o ho =>
            cases ha
            obtain rfl : o = .created := by
              rcases hv with hv | hv <;> cases hv
              rfl
            exact absurd ho (hself path r use hself')
          · exact hname ha
        | false =>
          rw [Option.filter_some, hself', Bool.not_false, if_pos rfl]
          split at ha
          · cases ha
          · next o ho =>
            cases ha
            exact hreceiver (some o) ho hv
          · next ho => exact hreceiver none ho (.inl rfl)

private theorem notShared_of_ofOperation {e use : Node} (hk : e.kind? = some .binaryExpression)
    (hplain : (e.binaryOperator? != some "??" || e.named.length ≤ 2) = true)
    (h : Carries c.model ask (askedByOperation path e use)) (ha : ofOperation ask path e use = some v) :
    NotShared c.model path' (.value e) := by
  unfold askedByOperation at h
  unfold ofOperation at ha
  split at ha
  · next ho =>
    simp only [ho] at h
    have has : e.isAsOperator = true := by
      rw [Node.isAsOperator, Node.is_iff.2 hk, ho]
      rfl
    obtain ⟨part, hpart⟩ : ∃ part, e.firstNamed? = some part := by
      unfold Node.binaryOperator? at ho
      obtain ⟨part, hpart, -⟩ := Option.bind_eq_some_iff.1 ho
      exact ⟨part, hpart⟩
    refine (notShared_of_ofConversion hv hcovers h ha part (by simp [hpart])).of_operand ?_
    rw [Node.insideConversion?, hk]
    exact (if_pos has).trans hpart
  · next ho =>
    simp only [ho] at h
    have has : e.isAsOperator = false := by
      rw [Node.isAsOperator, ho, Bool.and_eq_false_iff]
      exact .inr (by decide)
    have hlen : e.named.length ≤ 2 := by simpa [ho] using hplain
    obtain ⟨depth, hnamed⟩ := NotShared.ofAny fun x hx =>
      notShared_of_ofAny hv hcovers h ha x (Node.mem_ends_of_mem_named hlen hx)
    refine notShared_of_bare (by rw [Node.insideConversion?, hk, has]; rfl) ⟨depth, ?_⟩
    rw [Sharing.ofBare, hk]
    exact (if_pos (by rw [ho]; rfl)).trans hnamed
  · next has hor =>
    have has' : e.isAsOperator = false := by
      rw [Node.isAsOperator, Bool.and_eq_false_iff]
      exact .inr (beq_eq_false_iff_ne.2 has)
    refine notShared_of_bare (by rw [Node.insideConversion?, hk, has']; rfl) ⟨0, ?_⟩
    rw [Sharing.ofBare, hk]
    refine if_neg ?_
    rw [beq_iff_eq]
    exact hor

private theorem notShared_of_ofExpression {expr use : Node} (hself : MindsSelf ask)
    (hplain : isPlainExpression c.model expr.stripParens use = true)
    (h : Carries c.model ask (askedByExpression c.model path expr.stripParens use))
    (ha : ofExpression c.model ask path expr use = some v) : NotShared c.model path' (.value expr) := by
  -- one walk takes off parentheses only, the other all conversions at once: go on with the expression in the
  -- parentheses, and in the cases of conversions with their operands
  refine NotShared.of_stripConversions ?_ expr.stripConversions_stripParens.symm
  have hparens := expr.insideParens?_stripParens
  unfold ofExpression at ha
  unfold askedByExpression at h
  unfold isPlainExpression at hplain
  dsimp only at ha
  generalize expr.stripParens = e at hparens ha h hplain ⊢
  split at ha
  case h_1 hk | h_2 hk =>
    have hi : e.insideConversion? = none := by rw [Node.insideConversion?, hk]
    exact notShared_of_not_telling hi (Node.isAny_eq_of_kind? hk _)
  case h_3 hk | h_4 hk =>
    simp only [hk] at h
    exact notShared_of_conversion (by rw [Node.insideConversion?, hk]) (Node.isAny_eq_of_kind? hk _)
      (notShared_of_ofConversion hv hcovers h ha)
  case h_5 hk =>
    simp only [hk] at h hplain
    exact notShared_of_ofOperation hv hcovers hk hplain h ha
  case h_6 hk =>
    simp only [hk] at h
    cases hn : e.isNullForgiving with
    | true =>
      exact notShared_of_conversion (by rw [Node.insideConversion?, hk, hn]; rfl) (Node.isAny_eq_of_kind? hk _)
        (notShared_of_ofPart hv hcovers h ha)
    | false =>
      have hi : e.insideConversion? = none := by
        rw [Node.insideConversion?, hk, hn]
        rfl
      exact notShared_of_not_telling hi (Node.isAny_eq_of_kind? hk _)
  case h_7 hk =>
    simp only [hk] at h
    exact notShared_of_conversion (by rw [Node.insideConversion?, hk]) (Node.isAny_eq_of_kind? hk _)
      (notShared_of_ofPart hv hcovers h ha)
  case h_8 hk | h_9 hk =>
    simp only [hk] at h
    refine notShared_of_bare (by rw [Node.insideConversion?, hk]) ?_
    simp only [Sharing.ofBare, hk]
    exact NotShared.ofAny (notShared_of_ofAny hv hcovers h ha)
  case h_10 hk =>
    simp only [hk] at h
    refine notShared_of_bare (by rw [Node.insideConversion?, hk]) ?_
    simp only [Sharing.ofBare, hk]
    exact NotShared.ofAny (notShared_of_ofPart hv hcovers h ha)
  case h_11 hk | h_19 hk | h_20 hk =>
    cases ha
    exact absurd hv (not_unclaimed_some (by decide))
  case h_12 hk =>
    have hi : e.insideConversion? = none := by rw [Node.insideConversion?, hk]
    exact notShared_of_not_telling hi (Node.isAny_eq_of_kind? hk _)
  case h_13 hk =>
    simp only [hk] at h hplain
    refine notShared_of_bare (by rw [Node.insideConversion?, hk]) ?_
    simp only [Sharing.ofBare, hk]
    exact notShared_of_ofCall hv hcovers hplain h ha
  case h_14 hk =>
    simp only [hk] at h hplain
    refine notShared_of_bare (by rw [Node.insideConversion?, hk]) ?_
    simp only [Sharing.ofBare, hk]
    exact notShared_of_ofAccess hv hcovers hk hself hplain h ha
  case h_15 hk | h_16 hk | h_17 hk | h_18 hk =>
    simp only [hk] at h hplain
    refine notShared_of_bare (by rw [Node.insideConversion?, hk]) ?_
    simp only [Sharing.ofBare, hk]
    exact notShared_of_ofSymbol hv hcovers hplain h ha
  case h_21 =>
    have hi : e.insideConversion? = none := by
      unfold Node.insideConversion?
      split
      · next hk => rwa [Node.insideParens?, if_pos (Node.is_iff.2 hk)] at hparens
      · next hk => exact absurd hk (by assumption)
      · next hk => exact absurd hk (by assumption)
      · next hk => exact absurd hk (by assumption)
      · next hk => exact absurd hk (by assumption)
      · next hk => exact absurd hk (by assumption)
      · rfl
    refine notShared_of_not_telling hi ?_
    rw [Bool.eq_false_iff]
    intro htelling
    obtain ⟨k, hmem, hk⟩ := Node.isAny_iff.1 htelling
    simp only [tellingKinds, List.mem_cons, List.not_mem_nil, or_false] at hmem
    rcases hmem with rfl | rfl | rfl | rfl | rfl | rfl | rfl | rfl | rfl | rfl | rfl | rfl
    case inr.inl =>
      rw [hk] at hplain
      cases hplain
    all_goals exact absurd hk (by assumption)

/-- Where a question finds no other owner, the same question has an end and finds no evidence of sharing, if the
questions it leads to do so. -/
theorem notShared_of_answer {q : Query} (hself : MindsSelf ask) (hplain : q.isPlain c.model = true)
    (h : Carries c.model ask (asked c.model path q)) (ha : answer c.model ask path q = some v) :
    NotShared c.model path' q.sharing := by
  cases q with
  | value expr use => exact notShared_of_ofExpression hv hcovers hself hplain h ha
  | returns method => exact notShared_of_ofReturns hv hcovers h ha

end

/-- Where a plain walk finds no other owner, the walk for shared values comes to an end and finds no evidence. -/
theorem notShared_of_answerWithin {c : Compilation} {depth : Nat} {path path' : List Symbol} {q : Query} {v : Verdict}
    (hwalk : IsPlainWalk c.model path q) (ha : answerWithin c.model depth path q = some v) (hv : Unclaimed v)
    (hcovers : Covers path path') : NotShared c.model path' q.sharing := by
  induction depth generalizing path path' q v with
  | zero => cases ha
  | succ depth ih =>
    obtain ⟨here, below⟩ := hwalk
    refine notShared_of_answer hv hcovers (mindsSelf_answerWithin _ depth) here ?_ ha
    intro x hx u hu hclaim path'' hcovers''
    exact ih (below x hx) hu hclaim hcovers''

end Ownership

end Disposal
