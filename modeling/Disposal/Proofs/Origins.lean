import Disposal.Proofs.Sketch
import Disposal.Proofs.Ways

/-!
# Where a shared value may come from

`Model.mayBeShared` looks for a way back from an expression to a foreign value, and answers exactly whether there is
one. The walk turns back at a method or variable that it is inside of, and it is bounded; neither loses anything.

* `Sharing.isExact_answerWithin`: the walk answers whether its search finds a foreign value;
* `Model.mayBeShared_iff`: the walk as a question about ways.
-/

namespace Disposal

namespace Sharing

/-! ### Answers -/

/-- An answer is given, and says whether something holds. -/
def Answered (answer : Option Bool) (p : Prop) : Prop := ∃ b, answer = some b ∧ (b = true ↔ p)

private theorem Answered.of_true {p : Prop} (h : p) : Answered (some true) p := ⟨true, rfl, by simp [h]⟩

private theorem Answered.of_false {p : Prop} (h : ¬p) : Answered (some false) p := ⟨false, rfl, by simp [h]⟩

theorem Answered.congr {answer : Option Bool} {p q : Prop} (h : Answered answer p) (hpq : p ↔ q) :
    Answered answer q := by
  obtain ⟨b, hb, hp⟩ := h
  exact ⟨b, hb, hp.trans hpq⟩

private theorem answered_ofAny {ask : Answers} {path : List Symbol} {es : List Node} {p : Node → Prop}
    (h : ∀ e ∈ es, Answered (ask path (.value e)) (p e)) : Answered (ofAny ask path es) (∃ e ∈ es, p e) := by
  unfold ofAny
  induction es with
  | nil => exact .of_false (by simp)
  | cons e es ih =>
    obtain ⟨b, hb, hp⟩ := h e List.mem_cons_self
    rw [List.anyM_cons, hb]
    cases b with
    | true => exact .of_true ⟨e, List.mem_cons_self, hp.1 rfl⟩
    | false =>
      have hnot : ¬p e := fun he => Bool.false_ne_true (hp.2 he)
      refine (ih fun x hx => h x (List.mem_cons_of_mem e hx)).congr ?_
      simp [hnot]

/-! ### The walk answers -/

/-- What is written to a variable that a `catch` clause declares does not come from a foreign value. -/
def CatchesAreHarmless (c : Compilation) : Prop :=
  ∀ clause decl, c.HasPlace clause → clause.is .catchDeclaration = true → clause.catchVariable? = some decl →
    ∀ x, Yields c.model (.localVar decl) x →
      ¬∃ y, Relation.ReflTransGen (Flows c.model) x y ∧ IsForeign c.model y

/-- A bound for how deep the questions after one about an expression with a number can be nested. -/
def load (c : Compilation) (path : List Symbol) (number : Nat) : Nat :=
  (6 * c.size - path.length) * (c.size + 1) + number

/-- The answers to the questions below a bound say what a search finds. -/
structure IsExact (c : Compilation) (number : Node → Nat) (ask : Answers) (bound : Nat) : Prop where
  value : ∀ {path e}, IsTrail c path → c.HasPlace e → load c path (number e) < bound →
    Answered (ask path (.value e)) (Finds c.model path (.value e))
  returns : ∀ {path method}, IsTrail c path → c.HasPlace method → load c path 0 < bound →
    Answered (ask path (.returns method)) (Finds c.model path (.symbol (.method method)))

section

variable {c : Compilation} {number : Node → Nat} {ask : Answers} {bound : Nat} {path : List Symbol}
  (hc : c.IsRead) (hnumber : IsNumbering c number) (hask : IsExact c number ask bound) (hpath : IsTrail c path)

include hc hnumber hask hpath

/-- What a symbol yields is asked about with the symbol on the way. -/
private theorem answered_yields {s : Symbol} {n : Node} (hs : s.node? = some n) (hin : s.IsIn c)
    (hnew : path.contains s = false) {values : List Node} (hvalues : ∀ x, Yields c.model s x ↔ x ∈ values)
    (hbound : load c path 0 ≤ bound) :
    Answered (ofAny ask (s :: path) values) (Finds c.model path (.symbol s)) := by
  have htrail := hpath.cons hs hin hnew
  have hparts : ∀ x ∈ values, Answered (ask (s :: path) (.value x)) (Finds c.model (s :: path) (.value x)) := by
    intro x hx
    have hplace := hasPlace_of_yields hc hin ((hvalues x).2 hx)
    exact hask.value htrail hplace (Nat.lt_of_lt_of_le (htrail.room_cons_lt (hnumber.le_size hplace)) hbound)
  refine (answered_ofAny hparts).congr ?_
  rw [finds_symbol_iff]
  simp [hnew, hvalues]

private theorem answered_ofReturns {method : Node} (hm : c.HasPlace method) (hbound : load c path 0 ≤ bound) :
    Answered (ofReturns ask path method) (Finds c.model path (.symbol (.method method))) := by
  unfold ofReturns
  split
  · next hmet => exact .of_false fun h => by simp [finds_symbol_iff, hmet] at h
  · next hnew =>
    refine answered_yields hc hnumber hask hpath rfl (Symbol.isIn_of_eq rfl hm) (by simpa using hnew) (fun x => ?_)
        hbound
    constructor
    · intro h
      cases h with
      | returned h => exact h
      | written hs => cases hs
    · exact .returned

private theorem answered_ofVariable {s : Symbol} (hs : s.isVariable = true) (hin : s.IsIn c)
    (hbound : load c path 0 ≤ bound) : Answered (ofVariable c.model ask path s) (Finds c.model path (.symbol s)) := by
  have hmethod : ∀ f, s ≠ .method f := by
    rintro f rfl
    cases hs
  unfold ofVariable
  split
  · next hmet => exact .of_false fun h => by simp [finds_symbol_iff, hmet] at h
  · next hnew =>
    rw [Bool.not_eq_true] at hnew
    split
    · next scope hscope =>
      obtain ⟨n, hn⟩ : ∃ n, s.node? = some n := by
        cases s <;> first | exact ⟨_, rfl⟩ | exact nomatch hs
      refine answered_yields hc hnumber hask hpath hn hin hnew (fun x => ?_) hbound
      rw [List.mem_filterMap]
      constructor
      · intro h
        cases h with
        | returned h => exact absurd rfl (hmethod _)
        | written _ hscope' hw hx =>
          rw [hscope] at hscope'
          cases hscope'
          exact ⟨_, hw, hx⟩
      · rintro ⟨w, hw, hx⟩
        exact .written hs hscope hw hx
    · next hnone =>
      refine .of_false fun h => ?_
      obtain ⟨-, x, hx, -⟩ := finds_symbol_iff.1 h
      cases hx with
      | returned h => exact absurd rfl (hmethod _)
      | written _ hscope =>
        rw [hnone] at hscope
        cases hscope

variable {e : Node} (hbound : load c path (number e) ≤ bound)

include hbound

/-- A variable is all that a value comes from. -/
private theorem answered_entered {s : Symbol} (hs : s.isVariable = true) (hin : s.IsIn c)
    (hforeign : ¬IsForeign c.model e) (hpassed : ∀ x, ¬PassedFrom c.model e x)
    (henters : ∀ t, Enters c.model e t ↔ t = s) :
    Answered (ofVariable c.model ask path s) (Finds c.model path (.value e)) := by
  have hzero : load c path 0 ≤ load c path (number e) := Nat.add_le_add_left (Nat.zero_le _) _
  exact (answered_ofVariable hc hnumber hask hpath hs hin (Nat.le_trans hzero hbound)).congr
    (finds_iff_of_enters hforeign hpassed henters).symm

variable (he : c.HasPlace e)

include he

private theorem answered_part {x : Node} (h : PassedFrom c.model e x) :
    Answered (ask path (.value x)) (Finds c.model path (.value x)) := by
  refine hask.value hpath (hasPlace_of_passedFrom hc he h) (Nat.lt_of_lt_of_le ?_ hbound)
  exact Nat.add_lt_add_left (hnumber.lt_of_passedFrom he h) _

private theorem answered_parts {parts : List Node} (hforeign : ¬IsForeign c.model e)
    (henters : ∀ s, ¬Enters c.model e s) (hparts : ∀ x, PassedFrom c.model e x ↔ x ∈ parts) :
    Answered (ofAny ask path parts) (Finds c.model path (.value e)) := by
  refine (answered_ofAny fun x hx => ?_).congr (finds_iff_of_parts hforeign henters hparts).symm
  exact answered_part hc hnumber hask hpath hbound he ((hparts x).2 hx)

omit hc in
private theorem answered_returns {method : Node} (hm : c.HasPlace method) :
    Answered (ask path (.returns method)) (Finds c.model path (.symbol (.method method))) := by
  have hlt : load c path 0 < load c path (number e) := Nat.add_lt_add_left (hnumber.pos he) _
  exact hask.returns hpath hm (Nat.lt_of_lt_of_le hlt hbound)

private theorem answered_ofLocal (hcatch : CatchesAreHarmless c) (hn : IsName e) {decl : Node}
    (hs : c.model.symbol? e = some (.localVar decl)) :
    Answered (ofLocal c.model ask path decl) (Finds c.model path (.value e)) := by
  obtain ⟨hcall, haccess, hbinding⟩ := hn.kind?_ne
  have hin := hc.isIn_symbol? he hs
  have hforeign : ¬IsForeign c.model e := by simp [isForeign_iff, hn, hs, haccess, hbinding, Symbol.isMember]
  have hlocal : (∀ loop, ¬Compilation.IsLoopVariable decl loop) → ∀ t, Enters c.model e t ↔ t = .localVar decl := by
    intro hloop t
    simp [enters_iff, hn, hs, hcall, hloop]
  unfold ofLocal
  split
  · next hident =>
    have hparts : ∀ x, PassedFrom c.model e x ↔ x ∈ decl.loopCollection?.toList := by
      simp [passedFrom_iff_of_isName hn, hs, hident]
    by_cases hloop : ∃ loop, Compilation.IsLoopVariable decl loop
    · refine answered_parts hc hnumber hask hpath hbound he hforeign ?_ hparts
      simp [enters_iff, hn, hs, hcall, hloop]
    · -- the variable of a `catch` clause, which the walk does not look into
      rw [not_exists] at hloop
      obtain ⟨clause, hclause, hkind, hvar⟩ := Compilation.exists_catch he hs hident hloop
      have hnone : decl.loopCollection? = none := by
        rw [Option.eq_none_iff_forall_ne_some]
        intro x hx
        obtain ⟨loop, hp, hisLoop, -⟩ := Node.exists_loop hx
        exact hloop loop ⟨hident, hp, hisLoop⟩
      have hpassed : ∀ x, ¬PassedFrom c.model e x := by simp [hparts, hnone]
      rw [hnone]
      refine .of_false fun h => ?_
      rw [finds_iff_of_enters hforeign hpassed (hlocal hloop), finds_symbol_iff] at h
      obtain ⟨-, x, hx, hfound⟩ := h
      exact hcatch clause decl hclause hkind hvar x hx hfound.flows
  · next hident =>
    refine answered_entered hc hnumber hask hpath hbound rfl hin hforeign ?_
        (hlocal fun loop h => hident h.isIdentifier)
    simp [passedFrom_iff_of_isName hn, hs, hident]

private theorem answered_ofSymbol (hcatch : CatchesAreHarmless c) (hn : IsName e) {s : Symbol}
    (hs : c.model.symbol? e = some s) : Answered (ofSymbol c.model ask path s) (Finds c.model path (.value e)) := by
  obtain ⟨hcall, haccess, hbinding⟩ := hn.kind?_ne
  have hin := hc.isIn_symbol? he hs
  have hpassed : (∀ decl, s ≠ .localVar decl) → ∀ x, ¬PassedFrom c.model e x := by
    intro hlocal x hx
    obtain ⟨decl, hdecl, -⟩ := (passedFrom_iff_of_isName hn).1 hx
    rw [hs] at hdecl
    exact hlocal decl (Option.some.inj hdecl)
  cases s with
  | parameter p =>
    rw [ofSymbol]
    cases hout : p.isOutParameter with
    | true =>
      refine .of_false (not_finds ?_ (hpassed nofun) ?_)
      · simp [isForeign_iff, hn, hs, hout, haccess, hbinding, Symbol.isMember]
      · simp [enters_iff, hn, hs, hcall]
    | false => exact .of_true (finds_value_iff.2 (.inl (.parameter hn hs hout)))
  | setterValue p =>
    rw [ofSymbol]
    split
    · next hprivate =>
      rw [Bool.and_eq_true] at hprivate
      refine answered_entered hc hnumber hask hpath hbound rfl (Symbol.isIn_of_eq rfl (hin p rfl)) ?_
        (hpassed nofun) ?_
      · simp [isForeign_iff, hn, hs, hprivate, haccess, hbinding, Symbol.isMember]
      · simp [enters_iff, hn, hs, hprivate, hcall]
    · next hopen =>
      simp only [Bool.and_eq_true, not_and_or, Bool.not_eq_true] at hopen
      exact .of_true (finds_value_iff.2 (.inl (.setterValue hn hs hopen)))
  | field f =>
    rw [ofSymbol]
    split
    · next hstatic => exact .of_true (finds_value_iff.2 (.inl (.member hn hs rfl hstatic)))
    · next hstatic =>
      refine answered_entered hc hnumber hask hpath hbound rfl hin ?_ (hpassed nofun) ?_
      · simp [isForeign_iff, hn, hs, hstatic, haccess, hbinding]
      · simp [enters_iff, hn, hs, hstatic, hcall]
  | property p =>
    rw [ofSymbol]
    split
    · next hstatic => exact .of_true (finds_value_iff.2 (.inl (.member hn hs rfl hstatic)))
    · next hstatic =>
      have hforeign : ¬IsForeign c.model e := by simp [isForeign_iff, hn, hs, hstatic, haccess, hbinding]
      split
      · next hcomputed =>
        simp only [Bool.and_eq_true, Bool.not_eq_true', Option.isNone_iff_eq_none] at hcomputed
        have hgetter := Ownership.hasPlace_getterBody (hin p rfl)
        refine (answered_returns hnumber hask hpath hbound he hgetter).congr
          (finds_iff_of_enters hforeign (hpassed nofun) ?_).symm
        simp [enters_iff, hn, hs, hstatic, hcomputed, hcall]
      · next hstored =>
        refine answered_entered hc hnumber hask hpath hbound rfl hin hforeign (hpassed nofun) ?_
        rw [Bool.and_eq_true, not_and_or, Bool.not_eq_true, Bool.not_eq_false', Option.isNone_iff_eq_none] at hstored
        rcases hstored with hauto | hvalue
        · simp [enters_iff, hn, hs, hstatic, hauto, hcall]
        · simp [enters_iff, hn, hs, hstatic, hvalue, hcall]
  | localVar decl => exact answered_ofLocal hc hnumber hask hpath hbound he hcatch hn hs
  | method _ | type _ | framework _ | external =>
    refine .of_false (not_finds ?_ (hpassed nofun) ?_)
    · simp [isForeign_iff, hn, hs, haccess, hbinding, Symbol.isMember]
    · simp [enters_iff, hn, hs, hcall]

private theorem answered_ofName (hcatch : CatchesAreHarmless c) (hn : IsName e) :
    Answered (ofName c.model ask path e) (Finds c.model path (.value e)) := by
  unfold ofName
  split
  · next s hs => exact answered_ofSymbol hc hnumber hask hpath hbound he hcatch hn hs
  · next hs =>
    obtain ⟨hcall, haccess, hbinding⟩ := hn.kind?_ne
    refine .of_false (not_finds ?_ ?_ ?_)
    · simp [isForeign_iff, hs, haccess, hbinding]
    · simp [passedFrom_iff_of_isName hn, hs]
    · simp [enters_iff, hs, hcall]

/-- The value of a call that does not hand on what it is called on comes from the called method. -/
private theorem answered_ofMethod (hk : e.kind? = some .invocationExpression) {name : Node} {receiver? : Option Node}
    (hi : e.invoked? = some (name, receiver?)) (hname : receiver? = none ∨ ¬HandsOn name)
    (hf : c.model.frameworkCall? e = none) :
    Answered (ofMethod c.model ask path e) (Finds c.model path (.value e)) := by
  have hforeign : ¬IsForeign c.model e := by simp [isForeign_iff, IsName, hk]
  have hpassed : ∀ x, ¬PassedFrom c.model e x := by
    intro x hx
    obtain ⟨name', hi', hhands⟩ := (passedFrom_iff_of_call hk).1 hx
    rw [hi] at hi'
    cases hi'
    simp [hhands] at hname
  unfold ofMethod
  split
  · next method hs =>
    have hmethod := hc.isIn_symbol? he hs method rfl
    refine (answered_returns hnumber hask hpath hbound he hmethod).congr
      (finds_iff_of_enters hforeign hpassed fun t => ?_).symm
    rw [enters_iff_of_call hk hi]
    simp [hname, hf, hs]
  · next hs =>
    refine .of_false (not_finds hforeign hpassed fun t ht => ?_)
    obtain ⟨-, -, f, hf, -⟩ := (enters_iff_of_call hk hi).1 ht
    exact hs f hf

private theorem answered_ofCall (hk : e.kind? = some .invocationExpression) :
    Answered (ofCall c.model ask path e) (Finds c.model path (.value e)) := by
  have hforeign : ¬IsForeign c.model e := by simp [isForeign_iff, IsName, hk]
  unfold ofCall
  split
  · next hi =>
    refine .of_false (not_finds hforeign ?_ ?_)
    · simp [passedFrom_iff_of_call hk, hi]
    · simp [enters_iff, IsName, hk, hi]
  · next name hi =>
    refine answered_ofMethod hc hnumber hask hpath hbound he hk hi (.inl rfl) ?_
    show Resolver.frameworkCall? _ e = none
    rw [Resolver.frameworkCall?, hi]
    rfl
  · next name receiver hi =>
    have hhands : (name.text == "ConfigureAwait" || Framework.isElementProjection name.text) = true ↔ HandsOn name := by
      simp [HandsOn]
    split
    · next hname =>
      rw [hhands] at hname
      refine (answered_part hc hnumber hask hpath hbound he (.receiver hk hi hname)).congr ?_
      have henters : ∀ s, ¬Enters c.model e s := by simp [enters_iff_of_call hk hi, hname]
      have hparts : ∀ x, PassedFrom c.model e x ↔ x ∈ [receiver] := by
        simp [passedFrom_iff_of_call hk, hi, hname, eq_comm]
      rw [finds_iff_of_parts hforeign henters hparts]
      simp
    · next hname =>
      rw [hhands] at hname
      split
      · next hf =>
        refine .of_false (not_finds hforeign ?_ ?_)
        · simp [passedFrom_iff_of_call hk, hi, hname]
        · simp [enters_iff_of_call hk hi, Option.ne_none_iff_isSome.2 hf]
      · next hf => exact answered_ofMethod hc hnumber hask hpath hbound he hk hi (.inr hname) (by simpa using hf)

/-- The walk takes a step as a search does. -/
private theorem answered_ofBare (hcatch : CatchesAreHarmless c) (hbare : e.insideConversion? = none) :
    Answered (ofBare c.model ask path e) (Finds c.model path (.value e)) := by
  have parts : ∀ {parts}, ¬IsForeign c.model e → (∀ s, ¬Enters c.model e s) →
      (∀ x, PassedFrom c.model e x ↔ x ∈ parts) → Answered (ofAny ask path parts) (Finds c.model path (.value e)) :=
    answered_parts hc hnumber hask hpath hbound he
  have name : IsName e → Answered (ofName c.model ask path e) (Finds c.model path (.value e)) :=
    answered_ofName hc hnumber hask hpath hbound he hcatch
  unfold ofBare
  split
  case h_1 hk => exact .of_true (finds_value_iff.2 (.inl (.element (.inl hk))))
  case h_2 hk => exact .of_true (finds_value_iff.2 (.inl (.element (.inr hk))))
  case h_3 hk | h_4 hk | h_6 hk =>
    exact parts (by simp [isForeign_iff, IsName, hk]) (by simp [enters_iff, IsName, hk])
      (by simp [passedFrom_iff, IsName, hk, hbare])
  case h_5 hk =>
    split
    · next ho =>
      rw [beq_iff_eq] at ho
      exact parts (by simp [isForeign_iff, IsName, hk]) (by simp [enters_iff, IsName, hk])
        (by simp [passedFrom_iff, IsName, hk, hbare, ho])
    · next ho =>
      rw [beq_iff_eq] at ho
      exact .of_false (not_finds (by simp [isForeign_iff, IsName, hk]) (by simp [passedFrom_iff, IsName, hk, hbare, ho])
        (by simp [enters_iff, IsName, hk]))
  case h_7 hk => exact answered_ofCall hc hnumber hask hpath hbound he hk
  case h_8 hk =>
    split
    · next wrapper hw =>
      refine (answered_part hc hnumber hask hpath hbound he (.wrapper hk hw)).congr ?_
      have hparts : ∀ x, PassedFrom c.model e x ↔ x ∈ [wrapper] := by
        intro x
        simpa [passedFrom_iff, IsName, hk, hw, hbare] using eq_comm
      rw [finds_iff_of_parts (by simp [isForeign_iff, IsName, hk, hw]) (by simp [enters_iff, IsName, hk, hw]) hparts]
      simp
    · next hw => exact name (.inr (.inr (.inr (.inr ⟨hk, hw⟩))))
  case h_9 hk => exact name (.inl hk)
  case h_10 hk => exact name (.inr (.inl hk))
  case h_11 hk => exact name (.inr (.inr (.inl hk)))
  case h_12 hk => exact name (.inr (.inr (.inr (.inl hk))))
  case h_13 =>
    have hname : ¬IsName e := by rintro (hk | hk | hk | hk | ⟨hk, -⟩) <;> contradiction
    refine .of_false (not_finds (fun h => ?_) (fun x h => ?_) fun s h => ?_)
    · cases h with
      | element h => rcases h with hk | hk <;> contradiction
      | _ => contradiction
    · cases h with
      | conversion h =>
        rw [hbare] at h
        cases h
      | _ => contradiction
    · cases h <;> contradiction

end

/-- The walk answers whether its search finds a foreign value, if it may go on for long enough. -/
theorem isExact_answerWithin {c : Compilation} (hc : c.IsRead) {number : Node → Nat} (hnumber : IsNumbering c number)
    (hcatch : CatchesAreHarmless c) (depth : Nat) : IsExact c number (answerWithin c.model depth) depth := by
  induction depth with
  | zero =>
    constructor
    · intro path e _ _ h
      exact absurd h (Nat.not_lt_zero _)
    · intro path method _ _ h
      exact absurd h (Nat.not_lt_zero _)
  | succ depth ih =>
    constructor
    · intro path e hpath he h
      have hstripped : load c path (number e.stripConversions) ≤ depth :=
        Nat.le_trans (Nat.add_le_add_left (hnumber.stripConversions_le he) _) (Nat.le_of_lt_succ h)
      have hbare := Node.next_follow Node.mem_children_of_insideConversion? e
      exact (answered_ofBare hc hnumber ih hpath hstripped he.of_stripConversions hcatch hbare).congr
        finds_stripConversions
    · intro path method hpath hm h
      exact answered_ofReturns hc hnumber ih hpath hm (Nat.le_of_lt_succ h)

/-! ### Samples -/

/-- Whether no collection mentions the variable that runs through it. -/
def loopsAreSimple (c : Compilation) : Bool :=
  c.places.all fun loop => loop.foreachVariable?.all fun decl => decl.loopCollection?.all fun x =>
    x.preorder.all fun y => !(y.is .identifier && y.text == decl.text)

private theorem loopsAreSimple_iff {c : Compilation} : loopsAreSimple c = true ↔ LoopsAreSimple c := by
  simp only [loopsAreSimple, LoopsAreSimple, List.all_eq_true, Option.all_eq_true, Compilation.mem_places_iff,
    Bool.not_eq_true', Bool.and_eq_false_iff, beq_eq_false_iff_ne]
  constructor
  · intro h loop decl x hloop hvar hx y hy hident
    simpa [hident] using h loop hloop decl hvar x hx y hy
  · intro h loop hloop decl hvar x hx y hy
    rw [or_iff_not_imp_left, Bool.not_eq_false]
    exact h loop decl x hloop hvar hx y hy

instance (c : Compilation) : Decidable (LoopsAreSimple c) := decidable_of_iff _ loopsAreSimple_iff

/-- Whether no value is written to a variable that a `catch` clause declares. -/
def catchesAreFixed (c : Compilation) : Bool :=
  c.places.all fun clause => !clause.is .catchDeclaration || clause.catchVariable?.all fun decl =>
    (Scope.ofSymbol? c (.localVar decl)).all fun scope =>
      (c.model.writes (.localVar decl) scope).all fun w => w.value?.isNone

private theorem catchesAreHarmless_of_catchesAreFixed {c : Compilation} (h : catchesAreFixed c = true) :
    CatchesAreHarmless c := by
  simp only [catchesAreFixed, List.all_eq_true, Compilation.mem_places_iff, Bool.or_eq_true, Bool.not_eq_true',
    Option.all_eq_true, Option.isNone_iff_eq_none] at h
  intro clause decl hclause hkind hvar x hx
  cases hx with
  | written _ hscope hw hx =>
    have hnone := (h clause hclause).resolve_left (by simp [hkind]) decl hvar _ hscope _ hw
    rw [hnone] at hx
    cases hx

namespace Sample

open Sketch

/-- `class C{C held=new C();void Keep(Items all){try{foreach(C one in all){held=one;}}catch(Error e){Log(e);}}C F(){return
G();}C G(){if(x)return F();return held;}}` -/
def keeper : Document :=
  document "C.cs"
    [classOf "C"
      [fieldOf [] "C" "held" (create "C"),
       method [] void "Keep" [parameterOf "Items" "all"]
        [attempt [loop "C" "one" (name "all") [assign (name "held") (name "one")]] "Error" "e"
          [statement (call (name "Log") [name "e"])]],
       method [] (name "C") "F" [] [returning (call (name "G") [])],
       method [] (name "C") "G" [] [choose (name "x") (returning (call (name "F") [])), returning (name "held")]]]

/-- `class D{D H(){return H();}void M(){new C().F().Dispose();H().Dispose();}}` -/
def user : Document :=
  document "D.cs"
    [classOf "D"
      [method [] (name "D") "H" [] [returning (call (name "H") [])],
       method [] void "M" []
        [statement (call (access (call (access (create "C") "F") []) "Dispose") []),
         statement (call (access (call (name "H") []) "Dispose") [])]]]

/-- `class C{static C shared=new C();C Value{get{return shared;}}C First(){return shared;}void M(){new C().Value.Dispose();
this.First().Dispose();try{}catch(C e){e=shared;e.Dispose();}}}` -/
def detours : Document :=
  document "C.cs"
    [classOf "C"
      [fieldOf ["static"] "C" "shared" (create "C"),
       computedOf "C" "Value" [returning (name "shared")],
       method [] (name "C") "First" [] [returning (name "shared")],
       method [] void "M" []
        [statement (call (access (access (create "C") "Value") "Dispose") []),
         statement (call (access (call (access self "First") []) "Dispose") []),
         attempt [] "C" "e" [assign (name "e") (name "shared"), statement (call (access (name "e") "Dispose") [])]]]]

end Sample

end Sharing

open Sharing in
/-- There is an answer whether a value may be shared, and it is yes exactly if the flow of values leads back to a
foreign one, by whatever way through methods, getters, setters and variables of all documents. -/
theorem Model.mayBeShared_iff (documents : List Document)
    (hloops : LoopsAreSimple (Compilation.ofDocuments documents))
    (hcatch : CatchesAreHarmless (Compilation.ofDocuments documents)) {e : Node}
    (he : (Compilation.ofDocuments documents).HasPlace e) :
    let m := (Compilation.ofDocuments documents).model
    (∃ b, m.mayBeShared e = some b) ∧
      (m.mayBeShared e = some true ↔ ∃ x, Relation.ReflTransGen (Flows m) e x ∧ IsForeign m x) := by
  intro m
  have hc := Compilation.isRead_ofDocuments documents
  obtain ⟨number, hnumber⟩ := exists_isNumbering hc hloops
  have hlimit := (Compilation.ofDocuments documents).room_lt_limit (hnumber.le_size he)
  obtain ⟨b, hb, hfinds⟩ := (isExact_answerWithin hc hnumber hcatch m.limit).value (IsTrail.nil _) he hlimit
  refine ⟨⟨b, hb⟩, ?_⟩
  rw [Model.mayBeShared, hb, Option.some_inj, hfinds, finds_nil_iff_flows hc he]

/-- What a method of another document returns leads, past a circle of calls and a loop, to a parameter; a method that
only calls itself leads nowhere. -/
theorem Model.mayBeShared_iff_keeper :
    let c := Compilation.ofDocuments [Sharing.Sample.keeper, Sharing.Sample.user]
    (∃ e, c.HasPlace e ∧ e.text = "new C().F()" ∧
      ∃ x, Relation.ReflTransGen (Sharing.Flows c.model) e x ∧ Sharing.IsForeign c.model x) ∧
    ∃ e, c.HasPlace e ∧ e.text = "H()" ∧
      ¬∃ x, Relation.ReflTransGen (Sharing.Flows c.model) e x ∧ Sharing.IsForeign c.model x := by
  intro c
  have hloops : Sharing.LoopsAreSimple c := by decide +kernel
  have hcatch : Sharing.CatchesAreHarmless c := Sharing.catchesAreHarmless_of_catchesAreFixed (by decide +kernel)
  have hf : (c.places.any fun e => e.text == "new C().F()" && c.model.mayBeShared e == some true) = true := by
    decide +kernel
  have hh : (c.places.any fun e => e.text == "H()" && c.model.mayBeShared e == some false) = true := by decide +kernel
  obtain ⟨e, he, hf⟩ := List.any_eq_true.1 hf
  obtain ⟨e', he', hh⟩ := List.any_eq_true.1 hh
  simp only [Bool.and_eq_true, beq_iff_eq] at hf hh
  have he := Compilation.mem_places_iff.1 he
  have he' := Compilation.mem_places_iff.1 he'
  refine ⟨⟨e, he, hf.1, (Model.mayBeShared_iff _ hloops hcatch he).2.1 hf.2⟩, e', he', hh.1, fun h => ?_⟩
  have hshared := (Model.mayBeShared_iff _ hloops hcatch he').2.2 h
  rw [hh.2] at hshared
  cases hshared

/-- Whether an expression names a static member. -/
def Sharing.namesStatic (m : Model) (e : Node) : Bool :=
  e.is .identifier && (m.symbol? e).any fun s => s.isMember && s.isStatic

private theorem Sharing.isForeign_of_namesStatic {m : Model} {e : Node} (h : namesStatic m e = true) :
    IsForeign m e := by
  simp only [namesStatic, Bool.and_eq_true, Option.any_eq_true] at h
  obtain ⟨hk, s, hs, hmember, hstatic⟩ := h
  exact .member (.inl (Node.is_iff.1 hk)) hs hmember hstatic

/-- Whether an expression names a computed property of an instance that returns a static member. -/
def Sharing.readsComputed (m : Model) (e : Node) : Bool :=
  match m.symbol? e with
  | some (.property p) => !(Symbol.property p).isStatic && !p.isAutoProperty && p.initializer?.isNone &&
      p.getterBody.returnedExpressions.any (namesStatic m)
  | _ => false

/-- Whether an expression names a method that returns a static member. -/
def Sharing.callsReturning (m : Model) (e : Node) : Bool :=
  match m.symbol? e with
  | some (.method f) => f.returnedExpressions.any (namesStatic m)
  | _ => false

/-- Whether an expression names a local variable that a static member is written to. -/
def Sharing.readsWritten (m : Model) (e : Node) : Bool :=
  match m.symbol? e with
  | some (.localVar decl) => (Scope.ofSymbol? m.compilation (.localVar decl)).any fun scope =>
      (m.writes (.localVar decl) scope).any fun w => w.value?.any (namesStatic m)
  | _ => false

open Sharing in
/-- The walk goes past what a computed property named `Value` returns, past what a method named `First` returns, and
past what is written to the variable of a `catch` clause. -/
theorem Model.mayBeShared_detours :
    let c := Compilation.ofDocuments [Sample.detours]
    LoopsAreSimple c ∧
    (∃ e p x, c.HasPlace e ∧ e.kind? = some .memberAccessExpression ∧ c.model.symbol? e = some (.property p) ∧
      (Symbol.property p).isStatic = false ∧ p.isAutoProperty = false ∧ p.initializer? = none ∧
      x ∈ p.getterBody.returnedExpressions ∧ IsForeign c.model x ∧ c.model.mayBeShared e = some false) ∧
    (∃ e f x, c.HasPlace e ∧ e.kind? = some .invocationExpression ∧ c.model.frameworkCall? e = none ∧
      c.model.symbol? e = some (.method f) ∧ x ∈ f.returnedExpressions ∧ IsForeign c.model x ∧
      c.model.mayBeShared e = some false) ∧
    ∃ e decl x, c.HasPlace e ∧ c.model.symbol? e = some (.localVar decl) ∧ Yields c.model (.localVar decl) x ∧
      IsForeign c.model x ∧ c.model.mayBeShared e = some false := by
  intro c
  have hvalue : (c.places.any fun e => e.is .memberAccessExpression && c.model.mayBeShared e == some false &&
      readsComputed c.model e) = true := by decide +kernel
  have hfirst : (c.places.any fun e => e.is .invocationExpression && c.model.mayBeShared e == some false &&
      (c.model.frameworkCall? e).isNone && callsReturning c.model e) = true := by decide +kernel
  have hcaught : (c.places.any fun e => c.model.mayBeShared e == some false && readsWritten c.model e) = true := by
    decide +kernel
  refine ⟨by decide +kernel, ?_, ?_, ?_⟩
  · obtain ⟨e, he, h⟩ := List.any_eq_true.1 hvalue
    rw [Bool.and_eq_true, Bool.and_eq_true, beq_iff_eq] at h
    obtain ⟨⟨hk, hnot⟩, h⟩ := h
    unfold readsComputed at h
    split at h
    · next p hs =>
      simp only [Bool.and_eq_true, Bool.not_eq_true', Option.isNone_iff_eq_none, List.any_eq_true] at h
      obtain ⟨⟨⟨hstatic, hauto⟩, hvalue⟩, x, hx, hforeign⟩ := h
      exact ⟨e, p, x, Compilation.mem_places_iff.1 he, Node.is_iff.1 hk, hs, hstatic, hauto, hvalue, hx,
        isForeign_of_namesStatic hforeign, hnot⟩
    · cases h
  · obtain ⟨e, he, h⟩ := List.any_eq_true.1 hfirst
    simp only [Bool.and_eq_true, beq_iff_eq, Option.isNone_iff_eq_none] at h
    obtain ⟨⟨⟨hk, hnot⟩, hf⟩, h⟩ := h
    unfold callsReturning at h
    split at h
    · next f hs =>
      obtain ⟨x, hx, hforeign⟩ := List.any_eq_true.1 h
      exact ⟨e, f, x, Compilation.mem_places_iff.1 he, Node.is_iff.1 hk, hf, hs, hx, isForeign_of_namesStatic hforeign,
        hnot⟩
    · cases h
  · obtain ⟨e, he, h⟩ := List.any_eq_true.1 hcaught
    rw [Bool.and_eq_true, beq_iff_eq] at h
    obtain ⟨hnot, h⟩ := h
    unfold readsWritten at h
    split at h
    · next decl hs =>
      simp only [Option.any_eq_true, List.any_eq_true] at h
      obtain ⟨scope, hscope, w, hw, x, hx, hforeign⟩ := h
      exact ⟨e, decl, x, Compilation.mem_places_iff.1 he, hs, .written rfl hscope hw hx,
        isForeign_of_namesStatic hforeign, hnot⟩
    · cases h

end Disposal
